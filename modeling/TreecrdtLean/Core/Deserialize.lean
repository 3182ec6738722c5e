import Mathlib.Data.Finite.Prod
import Mathlib.Data.Set.Finite.Lattice
import TreecrdtLean.Core.DotSets

/-!
# Version vectors from the wire (`version_vector.rs`, `serde_impl`)

A received vector is only normalized where a replica is listed again: the first entry of a replica is
taken as it stands, and `union` merges the later ones into it. So the vector is in canonical form
exactly if the entries that no merge touches are, and no merge meets a range that ends at `u64::MAX`
with another one behind it: `last.1 + 1` wraps there (`VersionVectorWire.Clean`).
-/

namespace Treecrdt

namespace ReplicaVersion

instance (r : UInt64 × UInt64) : Decidable (ValidRange r) := inferInstanceAs (Decidable (_ ∧ _))

/-- The invariant of the source: the ranges are sorted by start and disjoint, and each of them starts
above `frontier + 1`. -/
structure Documented (v : ReplicaVersion) : Prop where
  sorted : v.ranges.Pairwise fun a b => a.1 ≤ b.1
  disjoint : v.ranges.Pairwise fun a b => ∀ c, a.1 ≤ c → c ≤ a.2 → b.1 ≤ c → ¬ c ≤ b.2
  beyond : ∀ r ∈ v.ranges, v.frontier.toNat + 1 < r.1.toNat

/-! ## Canonical unions -/

theorem chain_iff {f : ℕ} {rs : List (UInt64 × UInt64)} :
    Chain f rs ↔ (∀ r ∈ rs, f + 1 < r.1.toNat ∧ r.1.toNat ≤ r.2.toNat) ∧
      rs.Pairwise fun a b => a.2.toNat + 1 < b.1.toNat := by
  constructor
  · intro h
    refine ⟨h.start_gt, ?_⟩
    induction rs generalizing f with
    | nil => exact .nil
    | cons r rs ih =>
      exact List.pairwise_cons.mpr ⟨fun x hx => (h.2.2.start_gt x hx).1, ih h.2.2⟩
  · rintro ⟨hstart, hgap⟩
    induction rs generalizing f with
    | nil => trivial
    | cons r rs ih =>
      obtain ⟨hr, hrs⟩ := List.forall_mem_cons.mp hstart
      obtain ⟨hhead, htail⟩ := List.pairwise_cons.mp hgap
      exact ⟨hr.1, hr.2, ih (fun x hx => ⟨hhead x hx, (hrs x hx).2⟩) htail⟩

/-- In a list that is sorted by start no proper range stands behind one that ends at `u64::MAX`. -/
def NoneBehindMax (l : List (UInt64 × UInt64)) : Prop :=
  (l.filter fun r => ValidRange r).Pairwise fun a _ => a.2.toNat + 1 < 2 ^ 64

theorem validRange_iff {r : UInt64 × UInt64} :
    ValidRange r ↔ ¬ (r.1 = 0 || r.2 = 0 || r.1 > r.2) = true := by
  simp only [Bool.or_eq_true, decide_eq_true_eq, gt_iff_lt, UInt64.lt_iff_toNat_lt,
    ← UInt64.toNat_inj, UInt64.toNat_zero, ValidRange]
  omega

theorem mergeRange_of_not_valid {m : List (UInt64 × UInt64)} {r : UInt64 × UInt64}
    (hr : ¬ ValidRange r) : mergeRange m r = m := by
  unfold mergeRange
  rw [if_pos (not_not.mp fun h => hr (validRange_iff.mpr h))]

theorem mergeRange_cons {last r : UInt64 × UInt64} {rest : List (UInt64 × UInt64)}
    (hr : ValidRange r) : mergeRange (last :: rest) r =
      if r.1 ≤ last.2 + 1 then (last.1, max last.2 r.2) :: rest else r :: last :: rest := by
  unfold mergeRange
  rw [if_neg (validRange_iff.mp hr)]

theorem noneBehindMax_cons {r : UInt64 × UInt64} {l : List (UInt64 × UInt64)} (hr : ValidRange r) :
    NoneBehindMax (r :: l) ↔
      (r.2.toNat + 1 = 2 ^ 64 → (l.filter fun r => ValidRange r) = []) ∧ NoneBehindMax l := by
  have hrmax := UInt64.toNat_lt r.2
  rw [NoneBehindMax, List.filter_cons_of_pos (by simpa using hr), List.pairwise_cons]
  refine and_congr_left fun _ => ⟨fun h hmax => ?_, fun h x hx => ?_⟩
  · refine List.eq_nil_iff_forall_not_mem.mpr fun x hx => ?_
    have := h x hx
    omega
  · by_contra hmax
    rw [h (by omega)] at hx
    cases hx

/-- The merge loop leaves a range behind one that ends at `u64::MAX` if it meets one there. -/
theorem foldl_mergeRange_iff {l m : List (UInt64 × UInt64)} :
    ((l.foldl mergeRange m).Pairwise fun _ a => a.2.toNat + 1 < 2 ^ 64) ↔
      (m.Pairwise fun _ a => a.2.toNat + 1 < 2 ^ 64) ∧ NoneBehindMax l ∧
        ((∃ x ∈ m, x.2.toNat + 1 = 2 ^ 64) → (l.filter fun r => ValidRange r) = []) := by
  induction l generalizing m with
  | nil => simp [NoneBehindMax]
  | cons r l ih =>
    rw [List.foldl_cons, ih]
    by_cases hr : ValidRange r
    swap
    · rw [mergeRange_of_not_valid hr, NoneBehindMax, NoneBehindMax,
        List.filter_cons_of_neg (by simpa using hr)]
    have hall : ∀ m : List (UInt64 × UInt64), (∀ x ∈ m, x.2.toNat + 1 < 2 ^ 64) ↔
        ¬ ∃ x ∈ m, x.2.toNat + 1 = 2 ^ 64 := fun m => by
      push Not
      refine forall₂_congr fun x _ => ?_
      have := UInt64.toNat_lt x.2
      omega
    have hrmax := UInt64.toNat_lt r.2
    rw [noneBehindMax_cons hr, List.filter_cons_of_pos (by simpa using hr)]
    rcases m with _ | ⟨last, rest⟩
    · have hnil : mergeRange [] r = [r] := by
        unfold mergeRange
        rw [if_neg (validRange_iff.mp hr)]
      rw [hnil]
      simp only [List.pairwise_cons, List.not_mem_nil, false_imp_iff, implies_true, List.Pairwise.nil,
        List.mem_singleton, exists_eq_left, false_and, exists_false]
      tauto
    · have hlast := UInt64.toNat_lt last.2
      rw [mergeRange_cons hr]
      split
      · -- A range is merged into the last one, so that one does not end at `u64::MAX`.
        rename_i hle
        have hne : last.2.toNat + 1 ≠ 2 ^ 64 := by
          intro hmax
          rw [UInt64.le_iff_toNat_le, UInt64.toNat_add, show (1 : UInt64).toNat = 1 from rfl, hmax,
            Nat.mod_self] at hle
          have := hr.1
          omega
        have hmax : (max last.2 r.2).toNat + 1 = 2 ^ 64 ↔ r.2.toNat + 1 = 2 ^ 64 := by
          rw [toNat_max]
          omega
        simp only [List.pairwise_cons, List.exists_mem_cons_iff, hall, hmax, hne, false_or,
          reduceCtorEq]
        generalize (∃ x ∈ rest, x.2.toNat + 1 = 2 ^ 64) = R
        tauto
      · rw [List.pairwise_cons, hall, List.exists_mem_cons_iff (l := last :: rest)]
        simp only [reduceCtorEq]
        generalize (∃ x ∈ last :: rest, x.2.toNat + 1 = 2 ^ 64) = R
        tauto

/-- A normal version is canonical if its ranges stand behind no `u64::MAX`. -/
theorem Normal.canonical_iff {v : ReplicaVersion} (h : Normal v) :
    v.Canonical ↔ v.allRanges.Pairwise fun a _ => a.2.toNat + 1 < 2 ^ 64 := by
  have hstart : ∀ r ∈ v.ranges, r.1.toNat < 2 ^ 64 := fun r _ => UInt64.toNat_lt r.1
  rw [Canonical, chain_iff, allRanges]
  constructor
  · rintro ⟨hbeyond, hgap⟩
    have hranges : v.ranges.Pairwise fun a _ => a.2.toNat + 1 < 2 ^ 64 :=
      hgap.imp_of_mem fun _ hb hab => hab.trans (hstart _ hb)
    split
    · exact List.pairwise_cons.mpr
        ⟨fun r hr => (hbeyond r hr).1.trans (hstart r hr), hranges⟩
    · exact hranges
  · intro hmax
    have hranges : v.ranges.Pairwise fun a _ => a.2.toNat + 1 < 2 ^ 64 :=
      hmax.sublist (List.sublist_append_right _ _)
    refine ⟨fun r hr => ⟨?_, (h.valid r hr).2⟩, ?_⟩
    · obtain hgap | hfull := h.beyond r hr
      · exact hgap
      -- A frontier of `u64::MAX` would stand before the range.
      · have hpos : v.frontier > 0 := by
          rw [gt_iff_lt, UInt64.lt_iff_toNat_lt, UInt64.toNat_zero]
          omega
        rw [if_pos hpos] at hmax
        have := (List.pairwise_cons.mp hmax).1 r hr
        simp only at this
        omega
    · refine (hranges.and h.apart).imp fun {a b} hab => ?_
      obtain ⟨hend, -, hgap | hfull⟩ := hab <;> omega

theorem allRanges_ofMerged {m : List (UInt64 × UInt64)} (hv : ∀ r ∈ m, ValidRange r)
    (ha : m.Pairwise Apart) : (ofMerged m).allRanges = m := by
  cases m with
  | nil => rfl
  | cons r rest =>
    obtain ⟨s, e⟩ := r
    obtain ⟨hap, harest⟩ := List.pairwise_cons.mp ha
    obtain ⟨hr, hrest⟩ := List.forall_mem_cons.mp hv
    rw [ofMerged]
    split
    · rename_i h1
      subst h1
      have hn : Normal ⟨e, rest⟩ := ⟨hrest, harest, fun x hx => (hap x hx).2⟩
      have hpos : e > 0 := by
        rw [gt_iff_lt, UInt64.lt_iff_toNat_lt, UInt64.toNat_zero]
        exact hr.1.trans hr.2
      rw [hn.absorb, allRanges, if_pos hpos]
      rfl
    · rename_i h1
      have hne : s ≠ 0 + 1 := h1
      rw [absorbFrontierRanges, if_neg hne]
      rfl

theorem canonical_union_iff {v other : ReplicaVersion} (h : other ≠ {}) :
    (v.union other).Canonical ↔ NoneBehindMax (v.sortedRanges other) := by
  obtain ⟨hM, -⟩ := merged_sortedRanges v other
  rw [(union_spec_of_ne h).1.canonical_iff, union_eq h,
    allRanges_ofMerged (fun r hr => hM.valid r (List.mem_reverse.mp hr))
      (List.pairwise_reverse.mpr hM.apart), List.pairwise_reverse, foldl_mergeRange_iff]
  simp

theorem Normal.allRanges_valid {v : ReplicaVersion} (h : Normal v) :
    ∀ r ∈ v.allRanges, ValidRange r := by
  intro r hr
  obtain hr | hr := List.mem_append.mp hr
  · split at hr
    · rename_i hpos
      rw [List.mem_singleton.mp hr]
      exact ⟨le_refl _, UInt64.lt_iff_toNat_lt.mp hpos⟩
    · cases hr
  · exact h.valid r hr

theorem Normal.allRanges_sorted {v : ReplicaVersion} (h : Normal v) :
    v.allRanges.Pairwise fun a b => decide (a.1 ≤ b.1) := by
  have hranges : v.ranges.Pairwise fun a b => decide (a.1 ≤ b.1) = true :=
    h.apart.imp fun hab => decide_eq_true (UInt64.le_iff_toNat_le.mpr hab.1)
  rw [allRanges]
  split
  · exact List.pairwise_cons.mpr
      ⟨fun r hr => decide_eq_true (UInt64.le_iff_toNat_le.mpr (h.valid r hr).1), hranges⟩
  · exact hranges

/-- A range behind `u64::MAX` stays there. -/
theorem Normal.canonical_of_union {v other : ReplicaVersion} (hv : Normal v)
    (h : (v.union other).Canonical) : v.Canonical := by
  by_cases ho : other = {}
  · rwa [ho, union_default] at h
  have hsub : (v.allRanges).Sublist (v.sortedRanges other) :=
    List.sublist_mergeSort start_trans start_total hv.allRanges_sorted
      (List.sublist_append_left _ _)
  have hvalid := hv.allRanges_valid
  have hfilter := hsub.filter fun r => decide (ValidRange r)
  rw [List.filter_eq_self.mpr fun r hr => by simpa using hvalid r hr] at hfilter
  exact hv.canonical_iff.mpr (((canonical_union_iff ho).mp h).sublist hfilter)

/-! ## Unions of the entries of a replica -/

/-- No merge of the entries of a replica meets a range behind one that ends at `u64::MAX`; where
nothing is merged, the version is canonical as it stands. -/
def CleanUnions : ReplicaVersion → List ReplicaVersion → Prop
  | v, [] => v.Canonical
  | v, x :: xs => (x = {} ∨ NoneBehindMax (v.sortedRanges x)) ∧ CleanUnions (v.union x) xs

theorem Normal.canonical_of_foldl {v : ReplicaVersion} (hv : Normal v) {xs : List ReplicaVersion}
    (h : (xs.foldl union v).Canonical) : v.Canonical := by
  induction xs generalizing v with
  | nil => exact h
  | cons x xs ih => exact hv.canonical_of_union (ih (union_spec hv x).1 h)

theorem cleanUnions_iff {v : ReplicaVersion} {xs : List ReplicaVersion} :
    CleanUnions v xs ↔ (xs.foldl union v).Canonical := by
  induction xs generalizing v with
  | nil => rfl
  | cons x xs ih =>
    rw [CleanUnions, ih, List.foldl_cons, and_iff_right_iff_imp]
    intro h
    by_cases hx : x = {}
    · exact Or.inl hx
    · exact Or.inr ((canonical_union_iff hx).mp ((union_spec_of_ne hx).1.canonical_of_foldl h))

theorem dots_foldl_union (v : ReplicaVersion) (xs : List ReplicaVersion) :
    (xs.foldl union v).dots = v.dots ∪ {c | ∃ x ∈ xs, c ∈ x.dots} := by
  induction xs generalizing v with
  | nil => simp
  | cons x xs ih =>
    have hx : (v.union x).dots = v.dots ∪ x.dots := by
      by_cases hx : x = {}
      · rw [hx, union_default, dots_default, Set.union_empty]
      · exact (union_spec_of_ne hx).2
    rw [List.foldl_cons, ih, hx]
    ext c
    simp [or_assoc]

theorem dots_range {v : ReplicaVersion} {c : ℕ} (h : c ∈ v.dots) : 1 ≤ c ∧ c < 2 ^ 64 := by
  obtain ⟨h1, h2⟩ | ⟨r, -, h1, h2, h3⟩ := mem_dots.mp h
  · exact ⟨h1, h2.trans_lt (UInt64.toNat_lt _)⟩
  · exact ⟨h1.trans h2, h3.trans_lt (UInt64.toNat_lt _)⟩

/-! ## The documented invariant -/

theorem Canonical.documented {v : ReplicaVersion} (h : Canonical v) : v.Documented := by
  obtain ⟨hbeyond, hgap⟩ := chain_iff.mp h
  refine ⟨?_, ?_, fun r hr => (hbeyond r hr).1⟩
  · refine hgap.imp_of_mem fun {a b} ha hb hab => UInt64.le_iff_toNat_le.mpr ?_
    have := (hbeyond a ha).2
    omega
  · refine hgap.imp fun {a b} hab c _ hca hbc _ => ?_
    rw [UInt64.le_iff_toNat_le] at hca hbc
    omega

theorem exists_of_coveredBy {rs : List (UInt64 × UInt64)} {s e : UInt64}
    (h : coveredBy s e rs = true) : ∃ r ∈ rs, r.1 ≤ s ∧ e ≤ r.2 := by
  induction rs with
  | nil => cases h
  | cons r rs ih =>
    rw [coveredBy] at h
    split_ifs at h with hgt hin
    · exact ⟨r, List.mem_cons_self, by simpa using hin⟩
    · obtain ⟨x, hx, hcov⟩ := ih h
      exact ⟨x, List.mem_cons_of_mem _ hx, hcov⟩

/-- A documented version with proper ranges is canonical, if it contains what lies across the end of
a range. -/
theorem Documented.canonical {v : ReplicaVersion} (h : v.Documented)
    (hvalid : ∀ r ∈ v.ranges, ValidRange r)
    (hacross : ∀ r ∈ v.ranges, r.2.toNat + 1 < 2 ^ 64 → r.2.toNat ∈ v.dots →
      r.2.toNat + 1 ∈ v.dots → v.containsRange r.2 (r.2 + 1) = true) : v.Canonical := by
  refine chain_iff.mpr ⟨fun r hr => ⟨h.beyond r hr, (hvalid r hr).2⟩, ?_⟩
  refine (h.sorted.and h.disjoint).imp_of_mem fun {a b} ha hb hab => ?_
  obtain ⟨hstart, hdisj⟩ := hab
  have hva := hvalid a ha
  have hvb := hvalid b hb
  have hlt : a.2.toNat < b.1.toNat := by
    by_contra hle
    exact hdisj b.1 hstart (UInt64.le_iff_toNat_le.mpr (by omega)) (UInt64.le_refl _)
      (UInt64.le_iff_toNat_le.mpr hvb.2)
  by_contra hgap
  have hnext : a.2.toNat + 1 = b.1.toNat := by omega
  have hb1 := UInt64.toNat_lt b.1
  have hcontains := hacross a ha (by omega)
    (mem_dots.mpr (Or.inr ⟨a, ha, hva.1, hva.2, le_rfl⟩))
    (mem_dots.mpr (Or.inr ⟨b, hb, hvb.1, by omega, by rw [hnext]; exact hvb.2⟩))
  have hsucc : (a.2 + 1).toNat = a.2.toNat + 1 := by
    rw [UInt64.toNat_add]
    exact Nat.mod_eq_of_lt (by simp; omega)
  have hbeyond := h.beyond a ha
  -- Only the range itself can cover its end, and it ends there.
  obtain ⟨r, hr, hrs, hre⟩ : ∃ r ∈ v.ranges, r.1 ≤ a.2 ∧ a.2 + 1 ≤ r.2 := by
    unfold containsRange at hcontains
    split_ifs at hcontains with hbad hfront
    · rw [UInt64.le_iff_toNat_le, hsucc] at hfront
      have := hva.2
      omega
    · exact exists_of_coveredBy hcontains
  rw [UInt64.le_iff_toNat_le] at hrs hre
  rw [hsucc] at hre
  by_cases hra : r = a
  · rw [hra] at hre
    omega
  · have hsymm : Std.Symm fun a b : UInt64 × UInt64 =>
        ∀ c, a.1 ≤ c → c ≤ a.2 → b.1 ≤ c → ¬ c ≤ b.2 :=
      ⟨fun a b hab c h1 h2 h3 h4 => hab c h3 h4 h1 h2⟩
    refine h.disjoint.forall hr ha hra a.2 ?_ ?_ ?_ (UInt64.le_refl _)
    · exact UInt64.le_iff_toNat_le.mpr hrs
    · exact UInt64.le_iff_toNat_le.mpr (by omega)
    · exact UInt64.le_iff_toNat_le.mpr hva.2

end ReplicaVersion

namespace VersionVector

/-- A vector built with `observe`. -/
inductive Observed : VersionVector → Prop where
  | new : Observed .new
  | observe {vv : VersionVector} (h : Observed vv) (replica : ReplicaId) (counter : UInt64) :
      Observed (vv.observe replica counter)

theorem Observed.canonical {vv : VersionVector} (h : Observed vv) : Canonical vv := by
  induction h with
  | new => exact .new
  | observe _ replica counter ih => exact ih.observe replica counter

/-- Every finite set of dots can be observed. -/
theorem exists_observed (D : Finset (ReplicaId × ℕ)) (hD : ∀ d ∈ D, 1 ≤ d.2 ∧ d.2 < 2 ^ 64) :
    ∃ o, Observed o ∧ o.dots = D := by
  induction D using Finset.induction with
  | empty => exact ⟨.new, .new, by simp⟩
  | insert d D hd ih =>
    obtain ⟨o, ho, hdots⟩ := ih fun x hx => hD x (Finset.mem_insert_of_mem hx)
    obtain ⟨hpos, hlt⟩ := hD d (Finset.mem_insert_self d D)
    have hto : (UInt64.ofNat d.2).toNat = d.2 := by
      rw [UInt64.toNat_ofNat']
      exact Nat.mod_eq_of_lt hlt
    refine ⟨_, ho.observe d.1 (.ofNat d.2), ?_⟩
    ext x
    rw [mem_dots_observe ho.canonical, hdots, hto, Finset.coe_insert, Set.mem_insert_iff, or_comm]
    refine or_congr_left ⟨fun hx => hx.1, ?_⟩
    rintro rfl
    exact ⟨rfl, hpos⟩

/-- Awareness, replica by replica. -/
theorem isAwareOf_iff_versions {vv other : VersionVector} :
    vv.isAwareOf other = true ↔ ∀ r, (vv.version r).isSupersetOf (other.version r) = true := by
  rw [isAwareOf, List.all_eq_true]
  constructor
  · intro h r
    rcases hl : other.entries.lookup r with _ | v
    · rw [version, version, hl, Option.getD_none]
      simp [ReplicaVersion.isSupersetOf, UInt64.lt_iff_toNat_lt]
    · have := h ⟨r, v⟩ (AList.mem_lookup_iff.mp hl)
      rwa [version, version, hl, Option.getD_some]
  · rintro h ⟨r, v⟩ he
    have hl : other.entries.lookup r = some v := AList.mem_lookup_iff.mpr he
    have := h r
    rwa [version, version, hl, Option.getD_some] at this

end VersionVector

/-! ## The wire -/

structure VersionVectorEntry where
  replica : Bytes
  frontier : UInt64
  ranges : List (UInt64 × UInt64)

/-- `VersionVectorWire`: the current shape, or the legacy one with a map. -/
inductive VersionVectorWire where
  | repr (entries : List VersionVectorEntry)
  | legacy (entries : List (ReplicaId × ReplicaVersion))

/-- The version that an entry stands for. -/
def VersionVectorEntry.incoming (entry : VersionVectorEntry) : ReplicaVersion :=
  { frontier := entry.frontier, ranges := entry.ranges }

/-- An entry of the current shape: merged into the version of its replica, if there is one. -/
def VersionVectorEntry.addTo (entries : AList fun _ : ReplicaId => ReplicaVersion)
    (entry : VersionVectorEntry) : AList fun _ : ReplicaId => ReplicaVersion :=
  let replica : ReplicaId := ⟨entry.replica⟩
  match entries.lookup replica with
  | some existing => entries.insert replica (existing.union entry.incoming)
  | none => entries.insert replica entry.incoming

namespace VersionVectorWire

/-- `VersionVector::deserialize`. The last entry of a replica wins where a map is read. -/
def deserialize : VersionVectorWire → VersionVector
  | .repr entries => ⟨entries.foldl VersionVectorEntry.addTo ∅⟩
  | .legacy entries => ⟨entries.foldl (fun map e => map.insert e.1 e.2) ∅⟩

/-- The entries that the wire lists. -/
def listed : VersionVectorWire → List (ReplicaId × ReplicaVersion)
  | .repr entries => entries.map fun e => (⟨e.replica⟩, e.incoming)
  | .legacy entries => entries

/-- The entries of a replica. -/
def versionsOf (wire : VersionVectorWire) (r : ReplicaId) : List ReplicaVersion :=
  (wire.listed.filter fun e => e.1 = r).map (·.2)

/-- The dots that the wire lists. -/
def dots (wire : VersionVectorWire) : Set (ReplicaId × ℕ) :=
  {d | ∃ v ∈ wire.versionsOf d.1, d.2 ∈ v.dots}

/-- The entries that no merge touches are canonical, and no merge meets a range behind one that ends
at `u64::MAX`. In the legacy shape the last entry of a replica lists the dots of the earlier ones. -/
def Clean (wire : VersionVectorWire) : Prop :=
  ∀ r, match wire with
    | .repr _ => ∀ v vs, wire.versionsOf r = v :: vs → v.CleanUnions vs
    | .legacy _ => ∀ v, (wire.versionsOf r).getLast? = some v →
        v.Canonical ∧ ∀ x ∈ wire.versionsOf r, x.dots ⊆ v.dots

/-- The vector read from the wire is well formed, and awareness between it and any observed vector is
inclusion of dots. -/
structure WellRead (wire : VersionVectorWire) : Prop where
  invariant : ∀ e ∈ wire.deserialize.entries.entries, e.2.Documented
  aware : ∀ o, VersionVector.Observed o →
    (wire.deserialize.isAwareOf o = true ↔ o.dots ⊆ wire.dots)
  known : ∀ o, VersionVector.Observed o →
    (o.isAwareOf wire.deserialize = true ↔ wire.dots ⊆ o.dots)

/-! ### What is read -/

theorem lookup_repr (entries : List VersionVectorEntry) (r : ReplicaId) :
    (deserialize (.repr entries)).entries.lookup r =
      match versionsOf (.repr entries) r with
      | [] => none
      | v :: vs => some (vs.foldl ReplicaVersion.union v) := by
  induction entries using List.reverseRecOn with
  | nil => rfl
  | append_singleton entries e ih =>
    have hversions : versionsOf (.repr (entries ++ [e])) r = versionsOf (.repr entries) r ++
        if (⟨e.replica⟩ : ReplicaId) = r then [e.incoming] else [] := by
      simp only [versionsOf, listed, List.map_append, List.filter_append, List.map_cons, List.map_nil,
        List.filter_cons, List.filter_nil, decide_eq_true_eq]
      split <;> rfl
    have hread : (deserialize (.repr (entries ++ [e]))).entries =
        VersionVectorEntry.addTo (deserialize (.repr entries)).entries e := by
      simp only [deserialize, List.foldl_append, List.foldl_cons, List.foldl_nil]
    rw [hversions, hread, VersionVectorEntry.addTo]
    by_cases hr : (⟨e.replica⟩ : ReplicaId) = r
    · rw [if_pos hr, hr, ih]
      rcases versionsOf (.repr entries) r with _ | ⟨v, vs⟩
      · simp
      · simp
    · rw [if_neg hr, List.append_nil, ← ih]
      split <;> rw [AList.lookup_insert_ne (Ne.symm hr)]

theorem lookup_legacy (entries : List (ReplicaId × ReplicaVersion)) (r : ReplicaId) :
    (deserialize (.legacy entries)).entries.lookup r =
      (versionsOf (.legacy entries) r).getLast? := by
  induction entries using List.reverseRecOn with
  | nil => rfl
  | append_singleton entries e ih =>
    have hversions : versionsOf (.legacy (entries ++ [e])) r = versionsOf (.legacy entries) r ++
        if e.1 = r then [e.2] else [] := by
      simp only [versionsOf, listed, List.map_append, List.filter_append, List.filter_cons,
        List.filter_nil, decide_eq_true_eq]
      split <;> rfl
    have hread : (deserialize (.legacy (entries ++ [e]))).entries =
        (deserialize (.legacy entries)).entries.insert e.1 e.2 := by
      simp only [deserialize, List.foldl_append, List.foldl_cons, List.foldl_nil]
    rw [hversions, hread]
    by_cases hr : e.1 = r
    · subst hr
      simp
    · rw [if_neg hr, List.append_nil, ← ih, AList.lookup_insert_ne (Ne.symm hr)]

/-! ### Well-read vectors -/

theorem mem_versionsOf {wire : VersionVectorWire} {r : ReplicaId} {v : ReplicaVersion} :
    v ∈ wire.versionsOf r ↔ (r, v) ∈ wire.listed := by
  simp only [versionsOf, List.mem_map, List.mem_filter, decide_eq_true_eq]
  constructor
  · rintro ⟨e, ⟨he, rfl⟩, rfl⟩
    exact he
  · exact fun h => ⟨(r, v), ⟨h, rfl⟩, rfl⟩

/-- Some observed vector knows everything that the wire lists. -/
theorem exists_observed_all (wire : VersionVectorWire) :
    ∃ o, VersionVector.Observed o ∧ wire.dots ⊆ o.dots := by
  have hrange : ∀ d ∈ wire.dots, 1 ≤ d.2 ∧ d.2 < 2 ^ 64 := fun d hd => by
    obtain ⟨v, -, hc⟩ := hd
    exact ReplicaVersion.dots_range hc
  have hfinite : wire.dots.Finite := by
    have hreplicas : {r | r ∈ wire.listed.map (·.1)}.Finite := List.finite_toSet _
    refine (hreplicas.prod (Set.finite_lt_nat (2 ^ 64))).subset fun d hd => ⟨?_, (hrange d hd).2⟩
    obtain ⟨v, hv, -⟩ := hd
    exact List.mem_map.mpr ⟨_, mem_versionsOf.mp hv, rfl⟩
  obtain ⟨o, ho, hdots⟩ := VersionVector.exists_observed hfinite.toFinset fun d hd =>
    hrange d (hfinite.mem_toFinset.mp hd)
  exact ⟨o, ho, by rw [hdots, hfinite.coe_toFinset]⟩

/-- Awareness of two neighbouring counters is one range of the version. -/
theorem containsRange_of_aware {vv : VersionVector} {r : ReplicaId} {e : UInt64}
    (he : 2 ≤ e.toNat) (hlt : e.toNat + 1 < 2 ^ 64)
    (h : ∀ o, VersionVector.Observed o → o.dots = {(r, e.toNat), (r, e.toNat + 1)} →
      vv.isAwareOf o = true) : (vv.version r).containsRange e (e + 1) = true := by
  obtain ⟨o, ho, hdots⟩ := VersionVector.exists_observed {(r, e.toNat), (r, e.toNat + 1)} (by
    intro d hd
    rw [Finset.mem_insert, Finset.mem_singleton] at hd
    obtain rfl | rfl := hd <;> simp only <;> omega)
  rw [Finset.coe_pair] at hdots
  have hsucc : (e + 1).toNat = e.toNat + 1 := by
    rw [UInt64.toNat_add]
    exact Nat.mod_eq_of_lt hlt
  have hversion : o.version r = ⟨0, [(e, e + 1)]⟩ := by
    refine (ho.canonical r).eq_of_dots ?_ ?_
    · refine ⟨?_, ?_, trivial⟩
      · rw [UInt64.toNat_zero]
        omega
      · omega
    · ext c
      have hc : c ∈ (o.version r).dots ↔ (r, c) ∈ o.dots := Iff.rfl
      rw [hc, hdots, ReplicaVersion.mem_dots]
      simp only [Set.mem_insert_iff, Set.mem_singleton_iff, Prod.mk.injEq, true_and,
        UInt64.toNat_zero, List.mem_singleton, exists_eq_left, hsucc]
      omega
  have haware := VersionVector.isAwareOf_iff_versions.mp (h o ho hdots) r
  rw [hversion, ReplicaVersion.isSupersetOf] at haware
  split_ifs at haware
  simpa using haware

/-- A vector is well read if its versions are canonical and hold the dots that were listed. -/
theorem wellRead_iff (wire : VersionVectorWire) (hsub : wire.deserialize.dots ⊆ wire.dots) :
    wire.WellRead ↔ (∀ r, (wire.deserialize.version r).Canonical) ∧
      wire.dots ⊆ wire.deserialize.dots := by
  generalize hvv : wire.deserialize = vv at hsub
  constructor
  · intro h
    have hcanon : ∀ r, (vv.version r).Canonical := by
      intro r
      have hdocumented : (vv.version r).Documented := by
        rcases hl : vv.entries.lookup r with _ | v
        · rw [VersionVector.version, hl]
          exact ReplicaVersion.Canonical.default.documented
        · rw [VersionVector.version, hl]
          exact h.invariant ⟨r, v⟩ (hvv ▸ AList.mem_lookup_iff.mp hl)
      have hvalid : ∀ x ∈ (vv.version r).ranges, ReplicaVersion.ValidRange x := by
        obtain ⟨o, ho, hall⟩ := exists_observed_all wire
        have haware := VersionVector.isAwareOf_iff_versions.mp ((h.known o ho).mpr hall) r
        rw [hvv, ReplicaVersion.isSupersetOf] at haware
        split_ifs at haware
        intro x hx
        have hcontains := List.all_eq_true.mp haware x hx
        unfold ReplicaVersion.containsRange at hcontains
        split_ifs at hcontains with hbad
        all_goals exact ReplicaVersion.validRange_iff.mpr hbad
      refine hdocumented.canonical hvalid fun x hx hlt hend hnext => ?_
      have hbeyond := hdocumented.beyond x hx
      have hx' := hvalid x hx
      refine containsRange_of_aware (by have := hx'.2; omega) hlt fun o ho hdots => ?_
      rw [← hvv, h.aware o ho, hdots]
      rintro d (rfl | rfl)
      · exact hsub hend
      · exact hsub hnext
    refine ⟨hcanon, fun d hd => ?_⟩
    -- Awareness of the one dot.
    have hrange : 1 ≤ d.2 ∧ d.2 < 2 ^ 64 := by
      obtain ⟨v, -, hc⟩ := hd
      exact ReplicaVersion.dots_range hc
    obtain ⟨o, ho, hdots⟩ := VersionVector.exists_observed {d} (by simpa using hrange)
    rw [Finset.coe_singleton] at hdots
    have haware := (h.aware o ho).mpr (by rw [hdots]; exact Set.singleton_subset_iff.mpr hd)
    rw [hvv, VersionVector.isAwareOf_iff (VersionVector.Canonical.normal hcanon)
      ho.canonical.normal, hdots] at haware
    exact haware rfl
  · rintro ⟨hcanon, hdots⟩
    have heq : wire.dots = vv.dots := Set.Subset.antisymm hdots hsub
    have hnormal := VersionVector.Canonical.normal hcanon
    refine ⟨fun e he => ?_, fun o ho => ?_, fun o ho => ?_⟩
    · have hl : vv.entries.lookup e.1 = some e.2 := AList.mem_lookup_iff.mpr (hvv ▸ he)
      have := hcanon e.1
      rw [VersionVector.version, hl] at this
      exact this.documented
    · rw [hvv, heq]
      exact VersionVector.isAwareOf_iff hnormal ho.canonical.normal
    · rw [hvv, heq]
      exact VersionVector.isAwareOf_iff ho.canonical.normal hnormal

theorem version_repr (entries : List VersionVectorEntry) (r : ReplicaId) :
    (deserialize (.repr entries)).version r = match versionsOf (.repr entries) r with
      | [] => {}
      | v :: vs => vs.foldl ReplicaVersion.union v := by
  rw [VersionVector.version, lookup_repr]
  split <;> rfl

theorem dots_repr (entries : List VersionVectorEntry) :
    (deserialize (.repr entries)).dots = dots (.repr entries) := by
  ext ⟨r, c⟩
  rw [VersionVector.mem_dots, version_repr, dots, Set.mem_ofPred_eq]
  split
  · rename_i h
    simp [h]
  · rename_i v vs h
    rw [ReplicaVersion.dots_foldl_union, h]
    simp

/-- **When a received vector is well formed.** It is, and awareness of it is inclusion of the dots
that were listed, exactly if its entries are clean. -/
theorem wellRead_iff_clean (wire : VersionVectorWire) : wire.WellRead ↔ wire.Clean := by
  cases wire with
  | repr entries =>
    have hdots := dots_repr entries
    rw [wellRead_iff _ hdots.le, and_iff_left hdots.ge, Clean]
    refine forall_congr' fun r => ?_
    rw [version_repr]
    simp only [ReplicaVersion.cleanUnions_iff]
    generalize versionsOf (.repr entries) r = versions
    rcases versions with _ | ⟨v, vs⟩
    · simp [ReplicaVersion.Canonical.default]
    · simp
  | legacy entries =>
    have hmem : ∀ d, d ∈ (deserialize (.legacy entries)).dots ↔
        ∃ v, (versionsOf (.legacy entries) d.1).getLast? = some v ∧ d.2 ∈ v.dots := by
      intro d
      rw [VersionVector.mem_dots, VersionVector.version, lookup_legacy]
      rcases (versionsOf (.legacy entries) d.1).getLast? with _ | v <;> simp
    have hsub : (deserialize (.legacy entries)).dots ⊆ dots (.legacy entries) := by
      intro d hd
      obtain ⟨v, hv, hc⟩ := (hmem d).mp hd
      exact ⟨v, List.mem_of_getLast? hv, hc⟩
    rw [wellRead_iff _ hsub, Clean]
    have hversion : ∀ r, ((deserialize (.legacy entries)).version r).Canonical ↔
        ∀ v, (versionsOf (.legacy entries) r).getLast? = some v → v.Canonical := by
      intro r
      rw [VersionVector.version, lookup_legacy]
      rcases (versionsOf (.legacy entries) r).getLast? with _ | v
      · simp [ReplicaVersion.Canonical.default]
      · simp
    have hall : dots (.legacy entries) ⊆ (deserialize (.legacy entries)).dots ↔
        ∀ r v, (versionsOf (.legacy entries) r).getLast? = some v →
          ∀ x ∈ versionsOf (.legacy entries) r, x.dots ⊆ v.dots := by
      constructor
      · intro h r v hv x hx c hc
        obtain ⟨v', hv', hc'⟩ := (hmem (r, c)).mp (h ⟨x, hx, hc⟩)
        rw [hv] at hv'
        cases hv'
        exact hc'
      · rintro h ⟨r, c⟩ ⟨x, hx, hc⟩
        obtain ⟨v, hv⟩ := Option.ne_none_iff_exists'.mp fun hnone =>
          List.ne_nil_of_mem hx (List.getLast?_eq_none_iff.mp hnone)
        exact (hmem (r, c)).mpr ⟨v, hv, h r v hv x hx hc⟩
    rw [hall, ← forall_and]
    refine forall_congr' fun r => ?_
    rw [hversion, ← forall_and]
    exact forall_congr' fun v => imp_and.symm

/-- Two ranges of one replica that are not sorted. -/
theorem not_wellRead_unsorted :
    ¬ WellRead (.repr [{ replica := [1], frontier := 0, ranges := [(4, 4), (2, 2)] }]) := by
  intro h
  have := (h.invariant ⟨⟨[1]⟩, ⟨0, [(4, 4), (2, 2)]⟩⟩ (by decide)).sorted
  exact absurd this (by decide)

end VersionVectorWire

end Treecrdt
