import Mathlib.Data.Set.Insert
import TreecrdtLean.Core.VersionVector

/-!
# The dots of a version vector

A version vector stands for a set of dots `(replica, counter)`; `dots` reads it off the frontier
and the ranges. The results, for every other vector however malformed (a received `known_state` is
decoded without a check):

* `VersionVector.dots_merge`: a merge is a union of dots.
* `VersionVector.isAwareOf_iff`: `isAwareOf` is inclusion of dots, for vectors in the form that
  merges leave (`Normal`).
* `VersionVector.observe_new`: the vector of one operation.

`Normal` is weaker than the invariant of the source's comment: with a counter `u64::MAX` the
wrapping `+ 1` of `union` leaves ranges behind one that already covers them.
-/

namespace Treecrdt

private theorem toNat_one : (1 : UInt64).toNat = 1 := rfl

private theorem toNat_zero : (0 : UInt64).toNat = 0 := rfl

private theorem eq_zero_iff (a : UInt64) : a = 0 ↔ a.toNat = 0 := by
  rw [← UInt64.toNat_inj]; rfl

namespace ReplicaVersion

/-- A range of counters. -/
def ValidRange (r : UInt64 × UInt64) : Prop := 1 ≤ r.1.toNat ∧ r.1.toNat ≤ r.2.toNat

/-- The counters of a list of ranges. -/
def rangeDots (rs : List (UInt64 × UInt64)) : Set ℕ :=
  {c | ∃ r ∈ rs, 1 ≤ r.1.toNat ∧ r.1.toNat ≤ c ∧ c ≤ r.2.toNat}

/-- The counters seen of a replica. -/
def dots (v : ReplicaVersion) : Set ℕ := {c | 1 ≤ c ∧ c ≤ v.frontier.toNat} ∪ rangeDots v.ranges

theorem mem_dots {v : ReplicaVersion} {c : ℕ} :
    c ∈ v.dots ↔ (1 ≤ c ∧ c ≤ v.frontier.toNat) ∨
      ∃ r ∈ v.ranges, 1 ≤ r.1.toNat ∧ r.1.toNat ≤ c ∧ c ≤ r.2.toNat := Iff.rfl

instance (v : ReplicaVersion) (c : ℕ) : Decidable (c ∈ v.dots) :=
  decidable_of_iff _ mem_dots.symm

@[simp] theorem rangeDots_nil : rangeDots [] = ∅ := by ext; simp [rangeDots]

@[simp] theorem dots_default : dots {} = ∅ := by ext c; simp [mem_dots]; omega

theorem mem_rangeDots_cons {r : UInt64 × UInt64} {rs : List (UInt64 × UInt64)} {c : ℕ} :
    c ∈ rangeDots (r :: rs) ↔
      (1 ≤ r.1.toNat ∧ r.1.toNat ≤ c ∧ c ≤ r.2.toNat) ∨ c ∈ rangeDots rs := by
  simp [rangeDots]

theorem rangeDots_append (rs ts : List (UInt64 × UInt64)) :
    rangeDots (rs ++ ts) = rangeDots rs ∪ rangeDots ts := by
  ext c; simp [rangeDots, or_and_right, exists_or]

theorem rangeDots_perm {rs ts : List (UInt64 × UInt64)} (h : rs.Perm ts) :
    rangeDots rs = rangeDots ts := by
  ext c; simp [rangeDots, h.mem_iff]

theorem rangeDots_allRanges (v : ReplicaVersion) : rangeDots v.allRanges = v.dots := by
  unfold allRanges
  rw [rangeDots_append]
  unfold dots
  congr 1
  ext c
  by_cases h : v.frontier > 0
  · rw [if_pos h]
    simp [mem_rangeDots_cons]
  · rw [if_neg h]
    rw [gt_iff_lt, UInt64.lt_iff_toNat_lt] at h
    simp only [rangeDots_nil, Set.mem_empty_iff_false, Set.mem_ofPred_eq, false_iff]
    simp only [UInt64.toNat_zero] at h
    omega

/-! ## The form that `union` leaves -/

/-- The ranges are sorted and apart; behind a range that ends at `u64::MAX` anything may stand. -/
def Apart (a b : UInt64 × UInt64) : Prop :=
  a.1.toNat ≤ b.1.toNat ∧ (a.2.toNat + 1 < b.1.toNat ∨ a.2.toNat + 1 = 2 ^ 64)

structure Normal (v : ReplicaVersion) : Prop where
  valid : ∀ r ∈ v.ranges, ValidRange r
  apart : v.ranges.Pairwise Apart
  beyond : ∀ r ∈ v.ranges,
    v.frontier.toNat + 1 < r.1.toNat ∨ v.frontier.toNat + 1 = 2 ^ 64

theorem Normal.default : Normal {} := ⟨by simp, by simp, by simp⟩

theorem Normal.cons {f : UInt64} {r : UInt64 × UInt64} {rs : List (UInt64 × UInt64)}
    (h : Normal ⟨f, r :: rs⟩) : Normal ⟨r.2, rs⟩ where
  valid x hx := h.valid x (List.mem_cons_of_mem _ hx)
  apart := (List.pairwise_cons.mp h.apart).2
  beyond x hx := ((List.pairwise_cons.mp h.apart).1 x hx).2

/-- The first range of a normal version does not start right after the frontier. -/
theorem Normal.absorb {f : UInt64} {rs : List (UInt64 × UInt64)} (h : Normal ⟨f, rs⟩) :
    absorbFrontierRanges f rs = ⟨f, rs⟩ := by
  cases rs with
  | nil => rfl
  | cons r rs =>
    obtain ⟨s, e⟩ := r
    have hb := h.beyond (s, e) (by simp)
    have hv := h.valid (s, e) (by simp)
    have hf := UInt64.toNat_lt f
    simp only [ValidRange] at hv hb
    rw [absorbFrontierRanges, if_neg]
    intro he
    have := congrArg UInt64.toNat he
    rw [UInt64.toNat_add, toNat_one] at this
    omega

/-- The step of the merge loop of `union`: the merged ranges, the last one first, keep the dots
and stay apart, and the last one starts before every range still to come. -/
structure Merged (m : List (UInt64 × UInt64)) : Prop where
  valid : ∀ r ∈ m, ValidRange r
  apart : m.Pairwise fun b a => Apart a b

theorem Merged.step {m : List (UInt64 × UInt64)} (hm : Merged m) {r : UInt64 × UInt64}
    (hr : ∀ x ∈ m, x.1.toNat ≤ r.1.toNat) :
    Merged (mergeRange m r) ∧ rangeDots (mergeRange m r) = rangeDots m ∪ rangeDots [r] ∧
      ∀ x ∈ mergeRange m r, x.1.toNat ≤ r.1.toNat := by
  unfold mergeRange
  by_cases hbad : r.1 = 0 || r.2 = 0 || r.1 > r.2
  · rw [if_pos hbad]
    refine ⟨hm, ?_, hr⟩
    simp only [Bool.or_eq_true, decide_eq_true_eq, gt_iff_lt, UInt64.lt_iff_toNat_lt,
      eq_zero_iff] at hbad
    ext c
    simp only [Set.mem_union, mem_rangeDots_cons, rangeDots_nil, Set.mem_empty_iff_false,
      or_false]
    by_cases hc : c ∈ rangeDots m <;> simp only [hc, true_or, false_or, false_iff]
    omega
  rw [if_neg hbad]
  simp only [Bool.or_eq_true, decide_eq_true_eq, gt_iff_lt, UInt64.lt_iff_toNat_lt,
    eq_zero_iff, not_or, not_lt] at hbad
  have hrv : ValidRange r := ⟨by omega, by omega⟩
  cases m with
  | nil =>
    exact ⟨⟨by simpa using hrv, by simp⟩, by simp, by simp⟩
  | cons last rest =>
    have hlast := hr last (by simp)
    have hlv := hm.valid last (by simp)
    obtain ⟨hap, hrest⟩ := List.pairwise_cons.mp hm.apart
    have h1 := UInt64.toNat_lt last.2
    have h2 := UInt64.toNat_lt r.1
    simp only [ValidRange] at hlv hrv
    simp only [UInt64.le_iff_toNat_le, UInt64.toNat_add, toNat_one]
    split
    · -- The range overlaps the last one or is adjacent to it.
      rename_i hle
      refine ⟨⟨?_, ?_⟩, ?_, ?_⟩
      · intro x hx
        rcases List.mem_cons.mp hx with rfl | hx
        · simp only [ValidRange, toNat_max]; omega
        · exact hm.valid x (List.mem_cons_of_mem _ hx)
      · exact List.pairwise_cons.mpr ⟨fun x hx => hap x hx, hrest⟩
      · ext c
        simp only [Set.mem_union, mem_rangeDots_cons, rangeDots_nil, Set.mem_empty_iff_false,
          or_false, toNat_max]
        by_cases hc : c ∈ rangeDots rest <;> simp only [hc, or_true, true_or, or_false]
        omega
      · intro x hx
        rcases List.mem_cons.mp hx with rfl | hx
        · exact hlast
        · exact hr x (List.mem_cons_of_mem _ hx)
    · rename_i hgt
      refine ⟨⟨?_, ?_⟩, ?_, ?_⟩
      · intro x hx
        rcases List.mem_cons.mp hx with rfl | hx
        · exact hrv
        · exact hm.valid x hx
      · refine List.pairwise_cons.mpr ⟨fun x hx => ⟨hr x hx, ?_⟩, hm.apart⟩
        -- An earlier range ends before the last one starts, or at `u64::MAX`.
        rcases List.mem_cons.mp hx with rfl | hx
        · omega
        · have := hap x hx
          simp only [Apart] at this
          omega
      · ext c
        simp only [Set.mem_union, mem_rangeDots_cons, rangeDots_nil, Set.mem_empty_iff_false,
          or_false]
        exact or_comm
      · intro x hx
        rcases List.mem_cons.mp hx with rfl | hx
        · exact le_rfl
        · exact hr x hx

/-- The merge loop over ranges sorted by their start. -/
theorem Merged.foldl {all m : List (UInt64 × UInt64)} (hm : Merged m)
    (hs : all.Pairwise fun a b => a.1.toNat ≤ b.1.toNat)
    (hr : ∀ r ∈ all, ∀ x ∈ m, x.1.toNat ≤ r.1.toNat) :
    Merged (all.foldl mergeRange m) ∧
      rangeDots (all.foldl mergeRange m) = rangeDots m ∪ rangeDots all := by
  induction all generalizing m with
  | nil => exact ⟨hm, by simp⟩
  | cons r rest ih =>
    obtain ⟨hsr, hs'⟩ := List.pairwise_cons.mp hs
    obtain ⟨hm', hd, hle⟩ := hm.step (hr r (by simp))
    obtain ⟨hM, hD⟩ := ih hm' hs' fun r' hr' x hx => (hle x hx).trans (hsr r' hr')
    refine ⟨hM, ?_⟩
    rw [List.foldl_cons, hD, hd, Set.union_assoc, ← rangeDots_append]
    rfl

theorem Normal.ofMerged {m : List (UInt64 × UInt64)} (hv : ∀ r ∈ m, ValidRange r)
    (ha : m.Pairwise Apart) :
    Normal (ReplicaVersion.ofMerged m) ∧ (ReplicaVersion.ofMerged m).dots = rangeDots m := by
  cases m with
  | nil =>
    refine ⟨Normal.default, ?_⟩
    rw [rangeDots_nil]
    exact dots_default
  | cons r rest =>
    obtain ⟨s, e⟩ := r
    obtain ⟨hap, harest⟩ := List.pairwise_cons.mp ha
    have hr := hv (s, e) (by simp)
    simp only [ValidRange] at hr
    rw [ReplicaVersion.ofMerged]
    split
    · rename_i h1
      subst h1
      have hn : Normal ⟨e, rest⟩ :=
        ⟨fun x hx => hv x (List.mem_cons_of_mem _ hx), harest, fun x hx => (hap x hx).2⟩
      rw [hn.absorb]
      refine ⟨hn, ?_⟩
      ext c
      rw [mem_rangeDots_cons]
      simp [dots]
    · rename_i h1
      have h1' : s.toNat ≠ 1 := fun h => h1 (UInt64.toNat_inj.mp h)
      have hn : Normal ⟨0, (s, e) :: rest⟩ := by
        refine ⟨hv, ha, fun x hx => Or.inl ?_⟩
        simp only [UInt64.toNat_zero]
        rcases List.mem_cons.mp hx with rfl | hx
        · simp only; omega
        · have := (hap x hx).1
          simp only at this; omega
      rw [hn.absorb]
      refine ⟨hn, ?_⟩
      ext c
      simp only [mem_dots, UInt64.toNat_zero, rangeDots, Set.mem_ofPred_eq]
      constructor
      · rintro (h | h)
        · omega
        · exact h
      · exact Or.inr

theorem eq_default_iff {v : ReplicaVersion} : v = {} ↔ v.frontier = 0 ∧ v.ranges = [] := by
  cases v
  simp

/-- The ranges of two versions, as `union` merges them. -/
def sortedRanges (v other : ReplicaVersion) : List (UInt64 × UInt64) :=
  (v.allRanges ++ other.allRanges).mergeSort fun a b => a.1 ≤ b.1

theorem start_trans (a b c : UInt64 × UInt64) (hab : decide (a.1 ≤ b.1) = true)
    (hbc : decide (b.1 ≤ c.1) = true) : decide (a.1 ≤ c.1) = true := by
  simp only [decide_eq_true_eq, UInt64.le_iff_toNat_le] at hab hbc ⊢
  omega

theorem start_total (a b : UInt64 × UInt64) :
    (decide (a.1 ≤ b.1) || decide (b.1 ≤ a.1)) = true := by
  simp only [Bool.or_eq_true, decide_eq_true_eq, UInt64.le_iff_toNat_le]
  omega

theorem sortedRanges_sorted (v other : ReplicaVersion) :
    (v.sortedRanges other).Pairwise fun a b => a.1.toNat ≤ b.1.toNat := by
  have hle : (v.sortedRanges other).Pairwise fun a b => decide (a.1 ≤ b.1) :=
    List.pairwise_mergeSort start_trans start_total _
  exact hle.imp fun {a b} h => by simpa [UInt64.le_iff_toNat_le] using h

theorem union_eq {v other : ReplicaVersion} (h : other ≠ {}) :
    v.union other = ofMerged ((v.sortedRanges other).foldl mergeRange []).reverse := by
  rw [union, if_neg fun hd => h (eq_default_iff.mpr hd), sortedRanges]

/-- What the merge loop of `union` leaves. -/
theorem merged_sortedRanges (v other : ReplicaVersion) :
    Merged ((v.sortedRanges other).foldl mergeRange []) ∧
      rangeDots ((v.sortedRanges other).foldl mergeRange []) = v.dots ∪ other.dots := by
  obtain ⟨hM, hD⟩ := Merged.foldl (m := []) ⟨by simp, by simp⟩ (sortedRanges_sorted v other)
    (by simp)
  refine ⟨hM, ?_⟩
  rw [hD, rangeDots_nil, Set.empty_union, sortedRanges, rangeDots_perm (List.mergeSort_perm _ _),
    rangeDots_append, rangeDots_allRanges, rangeDots_allRanges]

/-- `union` with a version that is not empty: a normal version with the dots of both. -/
theorem union_spec_of_ne {v other : ReplicaVersion} (h : other ≠ {}) :
    Normal (v.union other) ∧ (v.union other).dots = v.dots ∪ other.dots := by
  obtain ⟨hM, hD⟩ := merged_sortedRanges v other
  obtain ⟨hN, hd⟩ := Normal.ofMerged (m := ((v.sortedRanges other).foldl mergeRange []).reverse)
    (fun r hr => hM.valid r (List.mem_reverse.mp hr)) (List.pairwise_reverse.mpr hM.apart)
  rw [union_eq h, hd, rangeDots_perm (List.reverse_perm _), hD]
  exact ⟨hN, rfl⟩

theorem union_default (v : ReplicaVersion) : v.union {} = v := rfl

/-- `union` of a version with any other: a normal version with the dots of both. -/
theorem union_spec {v : ReplicaVersion} (hv : Normal v) (other : ReplicaVersion) :
    Normal (v.union other) ∧ (v.union other).dots = v.dots ∪ other.dots := by
  by_cases h : other = {}
  · rw [h, union_default, dots_default, Set.union_empty]
    exact ⟨hv, rfl⟩
  · exact union_spec_of_ne h

/-! ## Inclusion -/

/-- The counter after the frontier has not been seen. -/
theorem Normal.succ_frontier {v : ReplicaVersion} (hv : Normal v)
    (h : v.frontier.toNat + 1 < 2 ^ 64) : v.frontier.toNat + 1 ∉ v.dots := by
  rw [mem_dots]
  rintro (h1 | ⟨r, hr, -, h2, -⟩)
  · omega
  · have := hv.beyond r hr
    omega

theorem coveredBy_iff {rs : List (UInt64 × UInt64)} {s e : UInt64} (hse : s.toNat ≤ e.toNat)
    (hv : ∀ r ∈ rs, ValidRange r) (ha : rs.Pairwise Apart) :
    coveredBy s e rs = true ↔ ∀ c, s.toNat ≤ c → c ≤ e.toNat → c ∈ rangeDots rs := by
  have he := UInt64.toNat_lt e
  induction rs with
  | nil =>
    simp only [coveredBy, rangeDots_nil, Set.mem_empty_iff_false, Bool.false_eq_true, false_iff]
    exact fun h => h s.toNat le_rfl hse
  | cons r rest ih =>
    obtain ⟨rs, re⟩ := r
    obtain ⟨hap, harest⟩ := List.pairwise_cons.mp ha
    have hr := hv (rs, re) (by simp)
    replace ih := ih (fun r hr => hv r (List.mem_cons_of_mem _ hr)) harest
    simp only [ValidRange] at hr
    -- A dot behind the first range starts after it, unless the first range ends at `u64::MAX`.
    have hbehind : ∀ c ∈ rangeDots rest,
        rs.toNat ≤ c ∧ (re.toNat + 1 < c ∨ re.toNat + 1 = 2 ^ 64) := by
      rintro c ⟨x, hx, -, h1, -⟩
      have := hap x hx
      simp only [Apart] at this
      omega
    simp only [coveredBy, gt_iff_lt, Bool.and_eq_true, decide_eq_true_eq,
      UInt64.lt_iff_toNat_lt, UInt64.le_iff_toNat_le, mem_rangeDots_cons]
    split_ifs with h1 h2
    · simp only [false_iff]
      intro h
      rcases h s.toNat le_rfl hse with h | h
      · omega
      · have := (hbehind _ h).1
        omega
    · simp only [true_iff]
      intro c hc1 hc2
      exact Or.inl (by omega)
    · refine ih.trans ⟨fun h c hc1 hc2 => Or.inr (h c hc1 hc2), fun h c hc1 hc2 => ?_⟩
      rcases h c hc1 hc2 with hc | hc
      · -- The dot after the first range would have to be behind it.
        have hnext := h (re.toNat + 1) (by omega) (by omega)
        rcases hnext with hn | hn
        · omega
        · have := (hbehind _ hn).2
          omega
      · exact hc

theorem containsRange_iff {v : ReplicaVersion} (hv : Normal v) {r : UInt64 × UInt64}
    (hr : ValidRange r) :
    v.containsRange r.1 r.2 = true ↔ ∀ c, r.1.toNat ≤ c → c ≤ r.2.toNat → c ∈ v.dots := by
  obtain ⟨s, e⟩ := r
  simp only [ValidRange] at hr
  have he := UInt64.toNat_lt e
  have hdots : ∀ c, c ∈ v.dots ↔ (1 ≤ c ∧ c ≤ v.frontier.toNat) ∨ c ∈ rangeDots v.ranges :=
    fun c => Iff.rfl
  unfold containsRange
  simp only [Bool.or_eq_true, decide_eq_true_eq, gt_iff_lt, UInt64.lt_iff_toNat_lt,
    UInt64.le_iff_toNat_le, eq_zero_iff]
  rw [if_neg (by omega)]
  split_ifs with h1 h2
  · simp only [true_iff]
    intro c hc1 hc2
    exact (hdots c).mpr (Or.inl (by omega))
  · simp only [false_iff]
    intro h
    exact hv.succ_frontier (by omega) (h _ (by omega) (by omega))
  · rw [coveredBy_iff hr.2 hv.valid hv.apart]
    refine forall_congr' fun c => imp_congr_right fun hc1 => imp_congr_right fun hc2 => ?_
    rw [hdots]
    refine ⟨Or.inr, fun h => h.resolve_left (by omega)⟩

/-- `is_superset_of` is inclusion of dots, for a normal version and one with proper ranges. -/
theorem isSupersetOf_iff {v other : ReplicaVersion} (hv : Normal v)
    (ho : ∀ r ∈ other.ranges, ValidRange r) :
    v.isSupersetOf other = true ↔ other.dots ⊆ v.dots := by
  have hof := UInt64.toNat_lt other.frontier
  unfold isSupersetOf
  simp only [UInt64.lt_iff_toNat_lt]
  split_ifs with h1
  · simp only [false_iff]
    intro h
    exact hv.succ_frontier (by omega) (h (mem_dots.mpr (Or.inl (by omega))))
  · rw [List.all_eq_true]
    constructor
    · intro h c hc
      rcases mem_dots.mp hc with hc | ⟨r, hr, -, hc1, hc2⟩
      · exact mem_dots.mpr (Or.inl (by omega))
      · exact (containsRange_iff hv (ho r hr)).mp (h r hr) c hc1 hc2
    · intro h r hr
      refine (containsRange_iff hv (ho r hr)).mpr fun c hc1 hc2 => h ?_
      exact mem_dots.mpr (Or.inr ⟨r, hr, (ho r hr).1, hc1, hc2⟩)

/-! ## `observe` -/

/-- A version that observed one counter. -/
theorem observe_default (c : UInt64) :
    Normal (observe {} c) ∧ (observe {} c).dots = {d | d = c.toNat ∧ 1 ≤ d} := by
  have hc := UInt64.toNat_lt c
  unfold observe
  simp only [UInt64.le_iff_toNat_le, eq_zero_iff, toNat_zero]
  split_ifs with h0 h1 h2
  · refine ⟨Normal.default, ?_⟩
    rw [dots_default]
    ext d
    simp only [Set.mem_empty_iff_false, Set.mem_ofPred_eq, false_iff]
    omega
  · omega
  · refine ⟨⟨by simp [absorbFrontierRanges], by simp [absorbFrontierRanges],
      by simp [absorbFrontierRanges]⟩, ?_⟩
    subst h2
    ext d
    simp only [absorbFrontierRanges, mem_dots, List.not_mem_nil, false_and, exists_false,
      or_false, Set.mem_ofPred_eq]
    rw [show (0 + 1 : UInt64).toNat = 1 from rfl]
    omega
  · have h2' : c.toNat ≠ 1 := fun h => h2 (UInt64.toNat_inj.mp h)
    have hr : observeRange [] c = [(c, c)] := rfl
    rw [hr]
    refine ⟨⟨?_, by simp, ?_⟩, ?_⟩
    · intro r hr
      rw [List.mem_singleton.mp hr]
      simp only [ValidRange]
      omega
    · intro r hr
      rw [List.mem_singleton.mp hr]
      simp only [toNat_zero]
      omega
    · ext d
      simp only [mem_dots, toNat_zero, List.mem_singleton, exists_eq_left, Set.mem_ofPred_eq]
      omega

end ReplicaVersion

/-! ## Vectors -/

namespace VersionVector

/-- The dots of a version vector. -/
def dots (vv : VersionVector) : Set (ReplicaId × ℕ) := {d | d.2 ∈ (vv.version d.1).dots}

/-- Every entry is in the form that merges leave. -/
def Normal (vv : VersionVector) : Prop := ∀ r, (vv.version r).Normal

theorem mem_dots {vv : VersionVector} {d : ReplicaId × ℕ} :
    d ∈ vv.dots ↔ d.2 ∈ (vv.version d.1).dots := Iff.rfl

instance (vv : VersionVector) (d : ReplicaId × ℕ) : Decidable (d ∈ vv.dots) :=
  decidable_of_iff _ mem_dots.symm

@[simp] theorem version_new (r : ReplicaId) : new.version r = {} := rfl

@[simp] theorem dots_new : new.dots = ∅ := by
  ext d; simp [mem_dots]

theorem Normal.new : Normal new := fun _ => ReplicaVersion.Normal.default

theorem version_update (vv : VersionVector) (r r' : ReplicaId)
    (f : ReplicaVersion → ReplicaVersion) :
    (vv.update r f).version r' = if r' = r then f (vv.version r) else vv.version r' := by
  by_cases h : r' = r
  · subst h
    simp [version, update]
  · simp [version, update, h, AList.lookup_insert_ne h]

/-- The dots that an entry of the map adds. -/
def entryDots (es : List (Sigma fun _ : ReplicaId => ReplicaVersion)) : Set (ReplicaId × ℕ) :=
  {d | ∃ e ∈ es, e.1 = d.1 ∧ d.2 ∈ e.2.dots}

theorem entryDots_entries (vv : VersionVector) : entryDots vv.entries.entries = vv.dots := by
  ext ⟨r, c⟩
  simp only [entryDots, Set.mem_ofPred_eq, mem_dots, version]
  constructor
  · rintro ⟨⟨r', v⟩, he, rfl, hc⟩
    have hl : vv.entries.lookup r' = some v := AList.mem_lookup_iff.mpr he
    rw [hl]
    exact hc
  · intro hc
    rcases hl : vv.entries.lookup r with _ | v
    · rw [hl] at hc
      simp at hc
    · rw [hl] at hc
      exact ⟨⟨r, v⟩, AList.mem_lookup_iff.mp hl, rfl, hc⟩

private theorem foldl_union (es : List (Sigma fun _ : ReplicaId => ReplicaVersion))
    {vv : VersionVector} (hv : Normal vv) :
    Normal (es.foldl (fun acc e => acc.update e.1 (·.union e.2)) vv) ∧
      (es.foldl (fun acc e => acc.update e.1 (·.union e.2)) vv).dots =
        vv.dots ∪ entryDots es := by
  induction es generalizing vv with
  | nil => exact ⟨hv, by ext; simp [entryDots]⟩
  | cons e es ih =>
    obtain ⟨hN, hd⟩ := ReplicaVersion.union_spec (hv e.1) e.2
    have hv' : Normal (vv.update e.1 (·.union e.2)) := by
      intro r
      rw [version_update]
      split
      · exact hN
      · exact hv r
    obtain ⟨hM, hD⟩ := ih hv'
    refine ⟨hM, ?_⟩
    rw [List.foldl_cons, hD]
    ext ⟨r, c⟩
    simp only [Set.mem_union, mem_dots, version_update, entryDots, Set.mem_ofPred_eq,
      List.mem_cons, exists_eq_or_imp]
    by_cases hr : r = e.1
    · subst hr
      rw [if_pos rfl, hd, Set.mem_union]
      simp only [true_and, or_assoc]
    · rw [if_neg hr]
      simp only [Ne.symm hr, false_and, false_or]

/-- A merge is a union of dots, for every `other`. -/
theorem merge_spec {vv : VersionVector} (hv : Normal vv) (other : VersionVector) :
    Normal (vv.merge other) ∧ (vv.merge other).dots = vv.dots ∪ other.dots := by
  have := foldl_union other.entries.entries hv
  rwa [entryDots_entries] at this

theorem Normal.merge {vv : VersionVector} (hv : Normal vv) (other : VersionVector) :
    Normal (vv.merge other) := (merge_spec hv other).1

theorem dots_merge {vv : VersionVector} (hv : Normal vv) (other : VersionVector) :
    (vv.merge other).dots = vv.dots ∪ other.dots := (merge_spec hv other).2

/-- `is_aware_of` is inclusion of dots. -/
theorem isAwareOf_iff {vv other : VersionVector} (hv : Normal vv) (ho : Normal other) :
    vv.isAwareOf other = true ↔ other.dots ⊆ vv.dots := by
  rw [isAwareOf, List.all_eq_true, ← entryDots_entries other]
  have hentry : ∀ e ∈ other.entries.entries, ∀ r ∈ e.2.ranges, ReplicaVersion.ValidRange r := by
    intro e he
    have hl : other.entries.lookup e.1 = some e.2 := AList.mem_lookup_iff.mpr he
    have := (ho e.1).valid
    rwa [version, hl] at this
  constructor
  · rintro h ⟨r, c⟩ ⟨e, he, rfl, hc⟩
    exact (ReplicaVersion.isSupersetOf_iff (hv e.1) (hentry e he)).mp (h e he) hc
  · intro h e he
    refine (ReplicaVersion.isSupersetOf_iff (hv e.1) (hentry e he)).mpr fun c hc => ?_
    exact h (show (e.1, c) ∈ entryDots other.entries.entries from ⟨e, he, rfl, hc⟩)

/-- A vector that observed one dot. -/
theorem observe_new (r : ReplicaId) (c : UInt64) :
    Normal (new.observe r c) ∧ (new.observe r c).dots = {d | d = (r, c.toNat) ∧ 1 ≤ d.2} := by
  obtain ⟨hN, hd⟩ := ReplicaVersion.observe_default c
  constructor
  · intro r'
    rw [observe, version_update]
    split
    · exact hN
    · exact ReplicaVersion.Normal.default
  · ext ⟨r', c'⟩
    rw [observe, mem_dots, version_update]
    by_cases h : r' = r
    · subst h
      rw [if_pos rfl, version_new, hd]
      simp only [Set.mem_ofPred_eq, Prod.mk.injEq, true_and]
    · rw [if_neg h, version_new, ReplicaVersion.dots_default]
      simp [h]

end VersionVector

end Treecrdt
