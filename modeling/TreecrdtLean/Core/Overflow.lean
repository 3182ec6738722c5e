import Mathlib.Data.List.TakeWhile
import TreecrdtLean.Core.Deserialize

/-!
# Version vectors with overflow checks (`version_vector.rs`)

The five `+ 1` of `observe`, `merge_with_next`, `absorb_frontier_ranges` and `union`, as a build with
overflow checks runs them: `none` is the panic. `observe` reaches none of them with `u64::MAX` in a
canonical version. The merge loop of `union` does, exactly if a range comes behind one that ends at
`u64::MAX`, and so does the last line of `union`, exactly if nothing is missing any more (`Fits`).
-/

namespace Treecrdt

namespace ReplicaVersion

/-- `a + b` on `u64`. -/
def checkedAdd (a b : UInt64) : Option UInt64 :=
  if a.toNat + b.toNat < 2 ^ 64 then some (a + b) else none

def absorbFrontierRangesChecked (frontier : UInt64) :
    List (UInt64 × UInt64) → Option ReplicaVersion
  | [] => some { frontier, ranges := [] }
  | (s, e) :: rest => do
    if s = (← checkedAdd frontier 1) then absorbFrontierRangesChecked e rest
    else return { frontier, ranges := (s, e) :: rest }

def mergeWithNextChecked (ranges : List (UInt64 × UInt64)) (idx : ℕ) :
    Option (List (UInt64 × UInt64)) :=
  match ranges[idx]?, ranges[idx + 1]? with
  | some a, some b => do
    if b.1 ≤ (← checkedAdd a.2 1) then
      return (ranges.set idx (a.1, max a.2 b.2)).eraseIdx (idx + 1)
    else return ranges
  | _, _ => some ranges

def observeNextChecked (ranges : List (UInt64 × UInt64)) (idx : ℕ) (counter : UInt64) :
    Option (List (UInt64 × UInt64)) :=
  match ranges[idx]? with
  | some (nextStart, nextEnd) =>
    -- `next_start.saturating_sub(1)`
    if counter = (if nextStart = 0 then 0 else nextStart - 1) then
      let ranges := ranges.set idx (counter, nextEnd)
      if 0 < idx then mergeWithNextChecked ranges (idx - 1) else some ranges
    else if nextStart ≤ counter ∧ counter ≤ nextEnd then some ranges
    else some (ranges.insertIdx idx (counter, counter))
  | none => some (ranges.insertIdx idx (counter, counter))

def observeAtChecked (ranges : List (UInt64 × UInt64)) (idx : ℕ) (counter : UInt64) :
    Option (List (UInt64 × UInt64)) :=
  if 0 < idx then
    match ranges[idx - 1]? with
    | some (prevStart, prevEnd) => do
      if prevStart ≤ counter ∧ counter ≤ prevEnd then return ranges
      if counter = (← checkedAdd prevEnd 1) then
        mergeWithNextChecked (ranges.set (idx - 1) (prevStart, counter)) (idx - 1)
      else observeNextChecked ranges idx counter
    | none => observeNextChecked ranges idx counter
  else observeNextChecked ranges idx counter

def observeChecked (v : ReplicaVersion) (counter : UInt64) : Option ReplicaVersion := do
  if counter = 0 then return v
  if counter ≤ v.frontier then return v
  if counter = (← checkedAdd v.frontier 1) then absorbFrontierRangesChecked counter v.ranges
  else
    let idx := (v.ranges.takeWhile fun r => r.1 < counter).length
    return { v with ranges := ← observeAtChecked v.ranges idx counter }

/-- One range of the merge loop of `union`; `merged` is kept with its last range first. -/
def mergeRangeChecked (merged : List (UInt64 × UInt64)) (r : UInt64 × UInt64) :
    Option (List (UInt64 × UInt64)) :=
  if r.1 = 0 || r.2 = 0 || r.1 > r.2 then some merged
  else
    match merged with
    | [] => some [r]
    | last :: rest => do
      if r.1 ≤ (← checkedAdd last.2 1) then return (last.1, max last.2 r.2) :: rest
      else return r :: last :: rest

def ofMergedChecked : List (UInt64 × UInt64) → Option ReplicaVersion
  | [] => absorbFrontierRangesChecked 0 []
  | (s, e) :: rest => if s = 1 then absorbFrontierRangesChecked e rest
    else absorbFrontierRangesChecked 0 ((s, e) :: rest)

def unionChecked (v other : ReplicaVersion) : Option ReplicaVersion :=
  if other.frontier = 0 ∧ other.ranges = [] then some v
  else do
    let all := (v.allRanges ++ other.allRanges).mergeSort fun a b => a.1 ≤ b.1
    let merged ← all.foldlM mergeRangeChecked []
    let u ← ofMergedChecked merged.reverse
    -- The invariant is enforced once more: no range starts at `frontier + 1`.
    if u.ranges.head?.map (·.1) = some (← checkedAdd u.frontier 1) then
      absorbFrontierRangesChecked u.frontier u.ranges
    else return u

/-! ## `observe` -/

theorem checkedAdd_eq {a b : UInt64} (h : a.toNat + b.toNat < 2 ^ 64) :
    checkedAdd a b = some (a + b) := if_pos h

theorem checkedAdd_one {a : UInt64} (h : a.toNat + 1 < 2 ^ 64) :
    checkedAdd a 1 = some (a + 1) := checkedAdd_eq h

theorem checkedAdd_max {a : UInt64} (h : ¬ a.toNat + 1 < 2 ^ 64) : checkedAdd a 1 = none :=
  if_neg h

theorem absorbFrontierRangesChecked_eq {f : UInt64} {rs : List (UInt64 × UInt64)}
    (h : rs ≠ [] → f.toNat + 1 < 2 ^ 64)
    (hgap : rs.Pairwise fun a b => a.2.toNat + 1 < b.1.toNat) :
    absorbFrontierRangesChecked f rs = some (absorbFrontierRanges f rs) := by
  induction rs generalizing f with
  | nil => rfl
  | cons r rs ih =>
    obtain ⟨hhead, htail⟩ := List.pairwise_cons.mp hgap
    rw [absorbFrontierRangesChecked, absorbFrontierRanges, checkedAdd_one (h (by simp)),
      Option.bind_eq_bind, Option.bind_some]
    split
    · refine ih (fun hne => ?_) htail
      obtain ⟨x, hx⟩ := List.exists_mem_of_ne_nil rs hne
      exact (hhead x hx).trans (UInt64.toNat_lt x.1)
    · rfl

theorem mergeWithNextChecked_eq {rs : List (UInt64 × UInt64)} {idx : ℕ}
    (h : ∀ a b, rs[idx]? = some a → rs[idx + 1]? = some b → a.2.toNat + 1 < 2 ^ 64) :
    mergeWithNextChecked rs idx = some (mergeWithNext rs idx) := by
  unfold mergeWithNextChecked mergeWithNext
  rcases ha : rs[idx]? with _ | a
  · rfl
  rcases hb : rs[idx + 1]? with _ | b
  · rfl
  simp only [checkedAdd_one (h a b ha hb), Option.bind_eq_bind, Option.bind_some]
  split <;> rfl

/-- In a chain a range that has another one behind it does not end at `u64::MAX`. -/
theorem Chain.end_lt {f : ℕ} {rs : List (UInt64 × UInt64)} (h : Chain f rs) {i : ℕ}
    {a b : UInt64 × UInt64} (ha : rs[i]? = some a) (hb : rs[i + 1]? = some b) :
    a.2.toNat + 1 < b.1.toNat := by
  obtain ⟨hi, rfl⟩ := List.getElem?_eq_some_iff.mp ha
  obtain ⟨hi', rfl⟩ := List.getElem?_eq_some_iff.mp hb
  exact List.pairwise_iff_getElem.mp (chain_iff.mp h).2 i (i + 1) hi hi' (Nat.lt_succ_self i)

theorem observeNextChecked_eq {f : ℕ} {rs : List (UInt64 × UInt64)} (h : Chain f rs) (idx : ℕ)
    (c : UInt64) : observeNextChecked rs idx c = some (observeNext rs idx c) := by
  unfold observeNextChecked observeNext
  rcases hr : rs[idx]? with _ | next
  · rfl
  simp only
  by_cases hpred : c = if next.1 = 0 then 0 else next.1 - 1
  · rw [if_pos hpred, if_pos hpred]
    split
    · rename_i hpos
      refine mergeWithNextChecked_eq fun a b ha hb => ?_
      rw [List.getElem?_set_ne (by omega)] at ha
      have hgap := h.end_lt ha (b := next) (by rwa [Nat.sub_add_cancel hpos])
      exact hgap.trans (UInt64.toNat_lt _)
    · rfl
  · rw [if_neg hpred, if_neg hpred]
    split <;> rfl

theorem observeAtChecked_eq {f : ℕ} {rs : List (UInt64 × UInt64)} (h : Chain f rs) {idx : ℕ}
    {c : UInt64} (hprev : ∀ a, 0 < idx → rs[idx - 1]? = some a → a.1 < c) :
    observeAtChecked rs idx c = some (observeAt rs idx c) := by
  unfold observeAtChecked observeAt
  split
  · rename_i hpos
    rcases ha : rs[idx - 1]? with _ | prev
    · exact observeNextChecked_eq h idx c
    have hlt := UInt64.lt_iff_toNat_lt.mp (hprev prev hpos ha)
    have hc := UInt64.toNat_lt c
    simp only
    split
    · rfl
    rename_i hout
    -- The counter lies behind the previous range, which so ends below `u64::MAX`.
    have hbehind : prev.2.toNat < c.toNat := by
      rw [UInt64.le_iff_toNat_le, UInt64.le_iff_toNat_le] at hout
      omega
    rw [checkedAdd_one (by omega), Option.bind_eq_bind, Option.bind_some]
    split
    · rename_i hadj
      have hadjN : c.toNat = prev.2.toNat + 1 := by
        rw [hadj, toNat_succ (by omega)]
      refine mergeWithNextChecked_eq fun a b ha' hb => ?_
      rw [List.getElem?_set_ne (by omega)] at hb
      have hgap := h.end_lt ha hb
      rw [List.getElem?_set_self (List.getElem?_eq_some_iff.mp ha).1] at ha'
      cases ha'
      rw [hadjN]
      exact Nat.lt_of_le_of_lt hgap (UInt64.toNat_lt b.1)
    · exact observeNextChecked_eq h idx c
  · exact observeNextChecked_eq h idx c

/-- `observe` does not overflow, whatever the counter. -/
theorem Canonical.observeChecked_eq {v : ReplicaVersion} (h : Canonical v) (c : UInt64) :
    v.observeChecked c = some (v.observe c) := by
  have hc := UInt64.toNat_lt c
  unfold observeChecked ReplicaVersion.observe
  split
  · rfl
  split
  · rfl
  rename_i hle
  rw [UInt64.le_iff_toNat_le] at hle
  rw [checkedAdd_one (by omega), Option.bind_eq_bind, Option.bind_some]
  split
  · refine absorbFrontierRangesChecked_eq (fun hne => ?_) (chain_iff.mp h).2
    rename_i hnext
    obtain ⟨x, hx⟩ := List.exists_mem_of_ne_nil v.ranges hne
    have hx' := (Chain.start_gt h x hx).1
    have := UInt64.toNat_lt x.1
    rw [hnext, toNat_succ (by omega)]
    omega
  · have hprev : ∀ a, 0 < (v.ranges.takeWhile fun r => r.1 < c).length →
        v.ranges[(v.ranges.takeWhile fun r => r.1 < c).length - 1]? = some a → a.1 < c := by
      intro a hpos ha
      obtain ⟨hi, rfl⟩ := List.getElem?_eq_some_iff.mp ha
      have hlen : (v.ranges.takeWhile fun r => r.1 < c).length - 1 <
          (v.ranges.takeWhile fun r => r.1 < c).length := by omega
      have hmem := List.getElem_mem hlen
      rw [(List.takeWhile_prefix _).getElem hlen] at hmem
      simpa using List.mem_takeWhile_imp hmem
    simp only [observeAtChecked_eq h hprev, Option.bind_eq_bind, Option.bind_some]
    rfl

/-! ## `union` -/

/-- One range overflows in the merge loop if the last merged one ends at `u64::MAX`. -/
theorem mergeRangeChecked_eq {m : List (UInt64 × UInt64)} {r : UInt64 × UInt64}
    (h : ∀ last ∈ m.head?, last.2.toNat + 1 < 2 ^ 64) :
    mergeRangeChecked m r = some (mergeRange m r) := by
  unfold mergeRangeChecked mergeRange
  split
  · rfl
  rcases m with _ | ⟨last, rest⟩
  · rfl
  simp only [checkedAdd_one (h last rfl), Option.bind_eq_bind, Option.bind_some]
  split <;> rfl

theorem mergeRangeChecked_max {last r : UInt64 × UInt64} {rest : List (UInt64 × UInt64)}
    (hr : ValidRange r) (hlast : ¬ last.2.toNat + 1 < 2 ^ 64) :
    mergeRangeChecked (last :: rest) r = none := by
  unfold mergeRangeChecked
  rw [if_neg (validRange_iff.mp hr)]
  simp only [checkedAdd_max hlast, Option.bind_eq_bind, Option.bind_none]

/-- The last merged range ends where the range ends that was merged. -/
theorem head_mergeRange {m : List (UInt64 × UInt64)} {r : UInt64 × UInt64} (hr : ValidRange r)
    (h : ∀ last ∈ m.head?, last.2.toNat + 1 < 2 ^ 64) :
    (∀ last ∈ (mergeRange m r).head?, last.2.toNat + 1 < 2 ^ 64) ↔ r.2.toNat + 1 < 2 ^ 64 := by
  rcases m with _ | ⟨last, rest⟩
  · unfold mergeRange
    rw [if_neg (validRange_iff.mp hr)]
    simp
  · have hlast := h last rfl
    rw [mergeRange_cons hr]
    split
    · simp only [List.head?_cons, Option.mem_def, Option.some.injEq, forall_eq', toNat_max]
      omega
    · simp

theorem mergeRangeChecked_of_not_valid {m : List (UInt64 × UInt64)} {r : UInt64 × UInt64}
    (hr : ¬ ValidRange r) : mergeRangeChecked m r = some m := by
  unfold mergeRangeChecked
  rw [if_pos (not_not.mp fun h => hr (validRange_iff.mpr h))]

/-- Behind `u64::MAX` the merge loop only gets past what is no range. -/
theorem foldlM_mergeRangeChecked_max {l rest : List (UInt64 × UInt64)} {last : UInt64 × UInt64}
    (hlast : ¬ last.2.toNat + 1 < 2 ^ 64) :
    l.foldlM mergeRangeChecked (last :: rest) =
      if (l.filter fun r => ValidRange r) = [] then some (l.foldl mergeRange (last :: rest))
      else none := by
  induction l with
  | nil => rfl
  | cons r l ih =>
    rw [List.foldlM_cons, List.foldl_cons]
    by_cases hr : ValidRange r
    · rw [mergeRangeChecked_max hr hlast, List.filter_cons_of_pos (by simpa using hr),
        if_neg (List.cons_ne_nil _ _), Option.bind_eq_bind, Option.bind_none]
    · rw [mergeRangeChecked_of_not_valid hr, mergeRange_of_not_valid hr,
        List.filter_cons_of_neg (by simpa using hr), Option.bind_eq_bind, Option.bind_some, ih]

/-- The merge loop overflows exactly where it meets a range behind one that ends at `u64::MAX`. -/
theorem foldlM_mergeRangeChecked {l m : List (UInt64 × UInt64)}
    (h : ∀ last ∈ m.head?, last.2.toNat + 1 < 2 ^ 64) :
    (NoneBehindMax l → l.foldlM mergeRangeChecked m = some (l.foldl mergeRange m)) ∧
      (¬ NoneBehindMax l → l.foldlM mergeRangeChecked m = none) := by
  induction l generalizing m with
  | nil => exact ⟨fun _ => rfl, fun hn => absurd List.Pairwise.nil hn⟩
  | cons r l ih =>
    rw [List.foldlM_cons, mergeRangeChecked_eq h, Option.bind_eq_bind, Option.bind_some,
      List.foldl_cons]
    by_cases hr : ValidRange r
    · have hrmax := UInt64.toNat_lt r.2
      rw [noneBehindMax_cons hr]
      by_cases hmax : r.2.toNat + 1 < 2 ^ 64
      · obtain ⟨hclean, hbad⟩ := ih ((head_mergeRange hr h).mpr hmax)
        exact ⟨fun hn => hclean hn.2, fun hn => hbad fun hl => hn ⟨fun _ => by omega, hl⟩⟩
      · -- From here on the last merged range ends at `u64::MAX`.
        have hhead := (head_mergeRange hr h).not.mpr hmax
        rcases hm : mergeRange m r with _ | ⟨last, rest⟩
        · rw [hm] at hhead
          simp at hhead
        rw [hm] at hhead
        rw [foldlM_mergeRangeChecked_max (by simpa using hhead)]
        constructor
        · exact fun hn => if_pos (hn.1 (by omega))
        · refine fun hn => if_neg fun hnil => hn ⟨fun _ => hnil, ?_⟩
          rw [NoneBehindMax, hnil]
          exact .nil
    · rw [mergeRange_of_not_valid hr, NoneBehindMax, List.filter_cons_of_neg (by simpa using hr)]
      exact ih h

theorem Canonical.allRanges_gap {v : ReplicaVersion} (h : v.Canonical) :
    v.allRanges.Pairwise fun a b => a.2.toNat + 1 < b.1.toNat := by
  obtain ⟨hbeyond, hgap⟩ := chain_iff.mp h
  rw [allRanges]
  split
  · exact List.pairwise_cons.mpr ⟨fun r hr => (hbeyond r hr).1, hgap⟩
  · exact hgap

theorem ofMergedChecked_eq {m : List (UInt64 × UInt64)}
    (h : m.Pairwise fun a b => a.2.toNat + 1 < b.1.toNat) :
    ofMergedChecked m = some (ofMerged m) := by
  rcases m with _ | ⟨r, rest⟩
  · rfl
  obtain ⟨hhead, htail⟩ := List.pairwise_cons.mp h
  rw [ofMergedChecked, ofMerged]
  split
  · refine absorbFrontierRangesChecked_eq (fun hne => ?_) htail
    obtain ⟨x, hx⟩ := List.exists_mem_of_ne_nil rest hne
    exact (hhead x hx).trans (UInt64.toNat_lt x.1)
  · exact absorbFrontierRangesChecked_eq (fun _ => by decide) h

/-- Where the merge loop does not overflow, `union` does not unless its frontier is `u64::MAX`. -/
theorem unionChecked_eq {v other : ReplicaVersion} (h : other ≠ {}) :
    (NoneBehindMax (v.sortedRanges other) ∧ (v.union other).frontier.toNat + 1 < 2 ^ 64 →
        v.unionChecked other = some (v.union other)) ∧
      (¬ (NoneBehindMax (v.sortedRanges other) ∧ (v.union other).frontier.toNat + 1 < 2 ^ 64) →
        v.unionChecked other = none) := by
  have hne : ¬ (other.frontier = 0 ∧ other.ranges = []) := fun hd => h (eq_default_iff.mpr hd)
  obtain ⟨hclean, hbad⟩ := foldlM_mergeRangeChecked (l := v.sortedRanges other) (m := []) (by simp)
  unfold unionChecked
  rw [if_neg hne]
  dsimp only
  rw [← sortedRanges]
  by_cases hn : NoneBehindMax (v.sortedRanges other)
  swap
  · rw [hbad hn]
    exact ⟨fun h => absurd h.1 hn, fun _ => rfl⟩
  have hcanon := (canonical_union_iff h).mpr hn
  obtain ⟨hM, -⟩ := merged_sortedRanges v other
  have hall := allRanges_ofMerged (fun r hr => hM.valid r (List.mem_reverse.mp hr))
    (List.pairwise_reverse.mpr hM.apart)
  rw [← union_eq h] at hall
  rw [hclean hn]
  simp only [Option.bind_eq_bind, Option.bind_some,
    ofMergedChecked_eq (hall ▸ hcanon.allRanges_gap), ← union_eq h]
  constructor
  · rintro ⟨-, hlt⟩
    rw [checkedAdd_one hlt, Option.bind_some, if_neg]
    · rfl
    · intro hfirst
      obtain ⟨x, hx, hstart⟩ := Option.map_eq_some_iff.mp hfirst
      have := (Chain.start_gt hcanon x (List.mem_of_head? hx)).1
      rw [hstart, toNat_succ hlt] at this
      omega
  · intro hnot
    rw [checkedAdd_max fun hlt => hnot ⟨hn, hlt⟩]
    rfl

/-! ## What `union` can merge -/

/-- Neither of the two has a range that comes behind one of the other that ends at `u64::MAX`, where
the ranges are taken by their starts and those of `v` before those of `other`; and some counter is
missing in both. -/
def Fits (v other : ReplicaVersion) : Prop :=
  other = {} ∨
    (∀ a ∈ v.allRanges, a.2.toNat + 1 = 2 ^ 64 → ∀ b ∈ other.allRanges, b.1 < a.1) ∧
      (∀ b ∈ other.allRanges, b.2.toNat + 1 = 2 ^ 64 → ∀ a ∈ v.allRanges, a.1 ≤ b.1) ∧
      ∃ c, 1 ≤ c ∧ c < 2 ^ 64 ∧ c ∉ v.dots ∧ c ∉ other.dots

/-- Two elements stand before each other only where one of them stands twice. -/
theorem two_le_count {α : Type} [BEq α] [LawfulBEq α] {l : List α} {a b : α} (hab : [a, b].Sublist l)
    (hba : [b, a].Sublist l) (hne : a ≠ b) : 2 ≤ l.count a ∨ 2 ≤ l.count b := by
  induction l with
  | nil => cases hab
  | cons x l ih =>
    rcases hab with _ | hab | hab
    · rename_i hab
      rcases hba with _ | hba | hba
      · rename_i hba
        exact (ih hab hba).imp (le_trans · List.count_le_count_cons)
          (le_trans · List.count_le_count_cons)
      · rename_i hba
        refine Or.inr ?_
        rw [List.count_cons_self]
        have := List.count_pos_iff.mpr (hab.subset (List.mem_cons_of_mem a List.mem_cons_self))
        omega
    · rename_i hb
      rcases hba with _ | hba | hba
      · rename_i hba
        refine Or.inl ?_
        rw [List.count_cons_self]
        have := List.count_pos_iff.mpr (hba.subset (List.mem_cons_of_mem b List.mem_cons_self))
        omega
      · exact absurd rfl hne

theorem Canonical.allRanges_nodup {v : ReplicaVersion} (h : v.Canonical) : v.allRanges.Nodup := by
  refine h.allRanges_gap.imp_of_mem fun {a b} ha _ hgap heq => ?_
  have hvalid := (h.normal.allRanges_valid a ha).2
  rw [← heq] at hgap
  omega

/-- The range that ends at `u64::MAX` starts last. -/
theorem Canonical.start_lt_max {v : ReplicaVersion} (h : v.Canonical) {a b : UInt64 × UInt64}
    (ha : a ∈ v.allRanges) (hb : b ∈ v.allRanges) (hmax : a.2.toNat + 1 = 2 ^ 64) :
    b = a ∨ b.1.toNat < a.1.toNat := by
  have hb1 := UInt64.toNat_lt b.1
  have hvalid := (h.normal.allRanges_valid b hb).2
  obtain ⟨i, hi, rfl⟩ := List.getElem_of_mem ha
  obtain ⟨j, hj, rfl⟩ := List.getElem_of_mem hb
  have hgap := List.pairwise_iff_getElem.mp h.allRanges_gap
  rcases lt_trichotomy i j with hij | rfl | hij
  · have := hgap i j hi hj hij
    omega
  · exact Or.inl rfl
  · have := hgap j i hj hi hij
    exact Or.inr (by omega)

section Sorted

variable {v other : ReplicaVersion}

/-- Ranges of the two keep their order where their starts do not decide. -/
theorem pair_sortedRanges {a b : UInt64 × UInt64} (ha : a ∈ v.allRanges)
    (hb : b ∈ other.allRanges) (hle : a.1 ≤ b.1) : [a, b].Sublist (v.sortedRanges other) := by
  refine List.pair_sublist_mergeSort start_trans start_total (decide_eq_true hle) ?_
  exact (List.singleton_sublist.mpr ha).append (List.singleton_sublist.mpr hb)

theorem mem_sortedRanges {a : UInt64 × UInt64} :
    a ∈ v.sortedRanges other ↔ a ∈ v.allRanges ∨ a ∈ other.allRanges := by
  rw [sortedRanges, List.mem_mergeSort, List.mem_append]

theorem count_sortedRanges (a : UInt64 × UInt64) :
    (v.sortedRanges other).count a = v.allRanges.count a + other.allRanges.count a := by
  rw [sortedRanges, (List.mergeSort_perm _ _).count_eq, List.count_append]

theorem sortedRanges_noneBehindMax (hv : v.Canonical) (ho : other.Canonical) :
    NoneBehindMax (v.sortedRanges other) ↔
      (v.sortedRanges other).Pairwise fun a _ => a.2.toNat + 1 < 2 ^ 64 := by
  rw [NoneBehindMax, List.filter_eq_self.mpr fun r hr => ?_]
  refine decide_eq_true ?_
  obtain hr | hr := mem_sortedRanges.mp hr
  · exact hv.normal.allRanges_valid r hr
  · exact ho.normal.allRanges_valid r hr

/-- Where no range of one comes behind `u64::MAX` of the other, none does in the sorted list: that
range is in it once, and it starts behind all others, or with one that the sort has put before it. -/
theorem noneBehindMax_iff (hv : v.Canonical) (ho : other.Canonical) :
    NoneBehindMax (v.sortedRanges other) ↔
      (∀ a ∈ v.allRanges, a.2.toNat + 1 = 2 ^ 64 → ∀ b ∈ other.allRanges, b.1 < a.1) ∧
        ∀ b ∈ other.allRanges, b.2.toNat + 1 = 2 ^ 64 → ∀ a ∈ v.allRanges, a.1 ≤ b.1 := by
  rw [sortedRanges_noneBehindMax hv ho]
  constructor
  · intro h
    refine ⟨fun a ha hmax b hb => ?_, fun b hb hmax a ha => ?_⟩
    · by_contra hle
      have := List.pairwise_pair.mp (h.sublist (pair_sortedRanges ha hb (UInt64.not_lt.mp hle)))
      omega
    · by_contra hlt
      have hlt' : b.1.toNat < a.1.toNat := by
        rw [UInt64.le_iff_toNat_le] at hlt
        omega
      -- The sorted list has `b` before `a`, which starts behind it.
      have hboth := h.and (sortedRanges_sorted v other)
      have ha' : a ∈ v.sortedRanges other := mem_sortedRanges.mpr (Or.inl ha)
      have hb' : b ∈ v.sortedRanges other := mem_sortedRanges.mpr (Or.inr hb)
      obtain ⟨i, hi, hia⟩ := List.getElem_of_mem ha'
      obtain ⟨j, hj, hjb⟩ := List.getElem_of_mem hb'
      rcases lt_trichotomy i j with hij | rfl | hij
      · have := (List.pairwise_iff_getElem.mp hboth i j hi hj hij).2
        rw [hia, hjb] at this
        omega
      · rw [hia] at hjb
        rw [hjb] at hlt'
        exact lt_irrefl _ hlt'
      · have := (List.pairwise_iff_getElem.mp hboth j i hj hi hij).1
        rw [hjb] at this
        omega
  · rintro ⟨hleft, hright⟩
    rw [List.pairwise_iff_forall_sublist]
    intro a b hab
    have hpair := (sortedRanges_sorted v other).sublist hab
    have hle : a.1.toNat ≤ b.1.toNat := (List.pairwise_cons.mp hpair).1 b List.mem_cons_self
    have hamax := UInt64.toNat_lt a.2
    by_contra hnot
    have hmax : a.2.toNat + 1 = 2 ^ 64 := by omega
    have hcv := List.nodup_iff_count_le_one.mp hv.allRanges_nodup
    have hco := List.nodup_iff_count_le_one.mp ho.allRanges_nodup
    have hnotBoth : a ∈ v.allRanges → a ∉ other.allRanges := fun ha ha' =>
      UInt64.lt_irrefl _ (hleft a ha hmax a ha')
    have hne : a ≠ b := by
      rintro rfl
      have htwo : 2 ≤ v.allRanges.count a + other.allRanges.count a := by
        rw [← count_sortedRanges]
        exact hab.count_le a |>.trans' (by simp)
      have h1 := hcv a
      have h2 := hco a
      exact hnotBoth (List.count_pos_iff.mp (by omega)) (List.count_pos_iff.mp (by omega))
    obtain ha | ha := mem_sortedRanges.mp (hab.subset List.mem_cons_self)
    · obtain hb | hb := mem_sortedRanges.mp (hab.subset (List.mem_cons_of_mem a List.mem_cons_self))
      · obtain heq | hlt := hv.start_lt_max ha hb hmax
        · exact hne heq.symm
        · omega
      · have := UInt64.lt_iff_toNat_lt.mp (hleft a ha hmax b hb)
        omega
    · have hav : a ∉ v.allRanges := fun hav => hnotBoth hav ha
      have hbo : b ∉ other.allRanges := fun hbo => by
        obtain heq | hlt := ho.start_lt_max ha hbo hmax
        · exact hne heq.symm
        · omega
      obtain hb | hb := mem_sortedRanges.mp (hab.subset (List.mem_cons_of_mem a List.mem_cons_self))
      · -- `b` starts with `a`, so the sort has left it before `a`.
        have hba := pair_sortedRanges hb ha (hright a ha hmax b hb)
        have hca := hco a
        have hcb := hcv b
        obtain h2 | h2 := two_le_count hab hba hne
        · rw [count_sortedRanges, List.count_eq_zero.mpr hav] at h2
          omega
        · rw [count_sortedRanges, List.count_eq_zero.mpr hbo] at h2
          omega
      · exact hbo hb

/-- The frontier is `u64::MAX` exactly if no counter is missing. -/
theorem Canonical.frontier_lt_iff (h : v.Canonical) :
    v.frontier.toNat + 1 < 2 ^ 64 ↔ ∃ c, 1 ≤ c ∧ c < 2 ^ 64 ∧ c ∉ v.dots := by
  constructor
  · exact fun hlt => ⟨_, Nat.le_add_left 1 _, hlt, h.normal.succ_frontier hlt⟩
  · rintro ⟨c, h1, hlt, hc⟩
    by_contra hmax
    exact hc (h.frontier_isGreatest.1 c h1 (by omega))

theorem fits_iff (hv : v.Canonical) (ho : other.Canonical) (hne : other ≠ {}) :
    v.Fits other ↔
      NoneBehindMax (v.sortedRanges other) ∧ (v.union other).frontier.toNat + 1 < 2 ^ 64 := by
  have hdots := (union_spec_of_ne (v := v) hne).2
  rw [Fits, or_iff_right hne, ← and_assoc, ← noneBehindMax_iff hv ho]
  refine and_congr_right fun hn => ?_
  rw [((canonical_union_iff hne).mpr hn).frontier_lt_iff, hdots]
  simp only [Set.mem_union, not_or]

/-- `union` does not overflow exactly if the two fit. -/
theorem Canonical.unionChecked_eq (hv : v.Canonical) (ho : other.Canonical) :
    (v.Fits other → v.unionChecked other = some (v.union other) ∧ (v.union other).Canonical) ∧
      (¬ v.Fits other → v.unionChecked other = none) := by
  by_cases hne : other = {}
  · subst hne
    exact ⟨fun _ => ⟨rfl, hv⟩, fun h => absurd (Or.inl rfl) h⟩
  obtain ⟨hclean, hbad⟩ := ReplicaVersion.unionChecked_eq (v := v) hne
  rw [fits_iff hv ho hne]
  exact ⟨fun h => ⟨hclean h, (canonical_union_iff hne).mpr h.1⟩, hbad⟩

end Sorted

end ReplicaVersion

namespace VersionVector

/-- `entries.entry(replica).or_default()`, updated by `f`. -/
def updateChecked (vv : VersionVector) (replica : ReplicaId)
    (f : ReplicaVersion → Option ReplicaVersion) : Option VersionVector := do
  return ⟨vv.entries.insert replica (← f (vv.version replica))⟩

def observeChecked (vv : VersionVector) (replica : ReplicaId) (counter : UInt64) :
    Option VersionVector := vv.updateChecked replica (·.observeChecked counter)

def mergeChecked (vv other : VersionVector) : Option VersionVector :=
  other.entries.entries.foldlM (fun acc e => acc.updateChecked e.1 (·.unionChecked e.2)) vv

/-- The entries of every replica fit. -/
def Fits (vv other : VersionVector) : Prop :=
  ∀ e ∈ other.entries.entries, (vv.version e.1).Fits e.2

theorem updateChecked_some {vv : VersionVector} {replica : ReplicaId}
    {f : ReplicaVersion → Option ReplicaVersion} {g : ReplicaVersion → ReplicaVersion}
    (h : f (vv.version replica) = some (g (vv.version replica))) :
    vv.updateChecked replica f = some (vv.update replica g) := by
  rw [updateChecked, h]
  rfl

theorem updateChecked_none {vv : VersionVector} {replica : ReplicaId}
    {f : ReplicaVersion → Option ReplicaVersion} (h : f (vv.version replica) = none) :
    vv.updateChecked replica f = none := by
  rw [updateChecked, h]
  rfl

theorem Canonical.observeChecked_eq {vv : VersionVector} (h : Canonical vv) (r : ReplicaId)
    (c : UInt64) : vv.observeChecked r c = some (vv.observe r c) :=
  updateChecked_some (g := (·.observe c)) ((h r).observeChecked_eq c)

/-- One entry at a time: a merged entry leaves the versions that the later ones meet. -/
theorem foldlM_updateChecked {es : List (Sigma fun _ : ReplicaId => ReplicaVersion)}
    {vv : VersionVector} (hv : Canonical vv) (hes : ∀ e ∈ es, e.2.Canonical)
    (hkeys : es.NodupKeys) :
    ((∀ e ∈ es, (vv.version e.1).Fits e.2) →
        es.foldlM (fun acc e => acc.updateChecked e.1 (·.unionChecked e.2)) vv =
            some (es.foldl (fun acc e => acc.update e.1 (·.union e.2)) vv) ∧
          Canonical (es.foldl (fun acc e => acc.update e.1 (·.union e.2)) vv)) ∧
      ((¬ ∀ e ∈ es, (vv.version e.1).Fits e.2) →
        es.foldlM (fun acc e => acc.updateChecked e.1 (·.unionChecked e.2)) vv = none) := by
  induction es generalizing vv with
  | nil => exact ⟨fun _ => ⟨rfl, hv⟩, fun hn => absurd (fun _ he => by cases he) hn⟩
  | cons e es ih =>
    obtain ⟨hhead, htail⟩ := List.forall_mem_cons.mp hes
    obtain ⟨hfresh, hkeys'⟩ := List.nodupKeys_cons.mp hkeys
    obtain ⟨hfits, hbad⟩ := (hv e.1).unionChecked_eq hhead
    rw [List.forall_mem_cons, List.foldlM_cons, List.foldl_cons]
    by_cases he : (vv.version e.1).Fits e.2
    swap
    · rw [updateChecked_none (hbad he)]
      exact ⟨fun h => absurd h.1 he, fun _ => rfl⟩
    obtain ⟨hsome, hcanon⟩ := hfits he
    rw [updateChecked_some (g := (·.union e.2)) hsome, Option.bind_eq_bind, Option.bind_some]
    have hv' : Canonical (vv.update e.1 (·.union e.2)) := by
      intro r
      rw [version_update]
      split
      · exact hcanon
      · exact hv r
    have hsame : ∀ x ∈ es, ((vv.update e.1 (·.union e.2)).version x.1).Fits x.2 ↔
        (vv.version x.1).Fits x.2 := by
      intro x hx
      have hne : x.1 ≠ e.1 := fun heq => hfresh (heq ▸ List.mem_keys_of_mem hx)
      rw [version_update, if_neg hne]
    have hall := forall₂_congr hsame
    rw [and_iff_right he, ← hall]
    exact ih hv' htail hkeys'

/-- `merge` does not overflow exactly if the vectors fit. -/
theorem Canonical.mergeChecked_eq {vv other : VersionVector} (hv : Canonical vv)
    (ho : Canonical other) :
    (vv.Fits other → vv.mergeChecked other = some (vv.merge other) ∧
        Canonical (vv.merge other)) ∧
      (¬ vv.Fits other → vv.mergeChecked other = none) := by
  refine foldlM_updateChecked hv (fun e he => ?_) other.entries.nodupKeys
  have hl : other.entries.lookup e.1 = some e.2 := AList.mem_lookup_iff.mpr he
  have hversion := ho e.1
  rwa [version, hl] at hversion

/-! ## Every sequence of calls -/

/-- Calls of `observe` and `merge` that build a vector; the other vector of a `merge` was built by
calls as well, and may share some. -/
inductive Calls where
  | new
  | observe (calls : Calls) (replica : ReplicaId) (counter : UInt64)
  | merge (calls other : Calls)

namespace Calls

/-- The vector, as the wrapping `+` of a release build makes it. -/
def run : Calls → VersionVector
  | new => .new
  | observe calls replica counter => calls.run.observe replica counter
  | merge calls other => calls.run.merge other.run

/-- The vector that a build with overflow checks makes; `none` is a panic on the way. -/
def runChecked : Calls → Option VersionVector
  | new => some .new
  | observe calls replica counter => do (← calls.runChecked).observeChecked replica counter
  | merge calls other => do (← calls.runChecked).mergeChecked (← other.runChecked)

/-- The counters other than 0 that the calls observed. -/
def observed : Calls → Set (ReplicaId × ℕ)
  | new => ∅
  | observe calls replica counter =>
    calls.observed ∪ {d | d = (replica, counter.toNat) ∧ counter ≠ 0}
  | merge calls other => calls.observed ∪ other.observed

/-- The two vectors of every `merge` fit. -/
def Fit : Calls → Prop
  | new => True
  | observe calls _ _ => calls.Fit
  | merge calls other => calls.Fit ∧ other.Fit ∧ calls.run.Fits other.run

/-- A run that overflows nowhere is the run that wraps, and leaves the canonical form of the counters
observed. -/
theorem Fit.spec {calls : Calls} (h : calls.Fit) :
    calls.runChecked = some calls.run ∧ calls.run.Canonical ∧
      calls.run.dots = calls.observed := by
  induction calls with
  | new => exact ⟨rfl, Canonical.new, dots_new⟩
  | observe calls replica counter ih =>
    obtain ⟨hrun, hcanon, hdots⟩ := ih h
    refine ⟨?_, hcanon.observe replica counter, ?_⟩
    · rw [runChecked, hrun]
      exact hcanon.observeChecked_eq replica counter
    · ext d
      rw [run, mem_dots_observe hcanon, hdots, observed, Set.mem_union]
      refine or_congr_right ?_
      rw [Set.mem_ofPred_eq, ne_eq, ← UInt64.toNat_inj]
      constructor
      · rintro ⟨rfl, hpos⟩
        exact ⟨rfl, fun h0 => by simp [h0] at hpos⟩
      · rintro ⟨rfl, hpos⟩
        exact ⟨rfl, Nat.one_le_iff_ne_zero.mpr hpos⟩
  | merge calls other ih ih' =>
    obtain ⟨hrun, hcanon, hdots⟩ := ih h.1
    obtain ⟨hrun', hcanon', hdots'⟩ := ih' h.2.1
    obtain ⟨hmerge, hmerged⟩ := (hcanon.mergeChecked_eq hcanon').1 h.2.2
    refine ⟨?_, hmerged, ?_⟩
    · rw [runChecked, hrun, hrun']
      exact hmerge
    · rw [run, dots_merge hcanon.normal, hdots, hdots', observed]

/-- A merge of two vectors that do not fit is a panic. -/
theorem runChecked_of_not_fit {calls : Calls} (h : ¬ calls.Fit) : calls.runChecked = none := by
  induction calls with
  | new => exact absurd trivial h
  | observe calls replica counter ih =>
    rw [runChecked, ih h]
    rfl
  | merge calls other ih ih' =>
    rw [runChecked]
    by_cases hleft : calls.Fit
    swap
    · rw [ih hleft]
      rfl
    by_cases hright : other.Fit
    swap
    · rw [ih' hright, hleft.spec.1]
      rfl
    rw [hleft.spec.1, hright.spec.1]
    refine (hleft.spec.2.1.mergeChecked_eq hright.spec.2.1).2 fun hfits => ?_
    exact h ⟨hleft, hright, hfits⟩

/-- A sequence of calls overflows nowhere and denotes the counters it observed exactly if the
vectors of every merge fit. -/
theorem runChecked_iff_fit (calls : Calls) :
    (∃ vv, calls.runChecked = some vv ∧ vv.dots = calls.observed) ↔ calls.Fit := by
  constructor
  · rintro ⟨vv, hrun, -⟩
    by_contra h
    rw [runChecked_of_not_fit h] at hrun
    cases hrun
  · exact fun h => ⟨calls.run, h.spec.1, h.spec.2.2⟩

/-- The counterexample: two vectors that have observed `u64::MAX` of a replica are merged. -/
theorem merge_max_overflows :
    ¬ ∃ vv, (merge (observe new ⟨[7]⟩ 0xFFFFFFFFFFFFFFFF)
        (observe new ⟨[7]⟩ 0xFFFFFFFFFFFFFFFF)).runChecked = some vv ∧
      vv.dots = (merge (observe new ⟨[7]⟩ 0xFFFFFFFFFFFFFFFF)
        (observe new ⟨[7]⟩ 0xFFFFFFFFFFFFFFFF)).observed := by
  rintro ⟨vv, hrun, -⟩
  rw [runChecked_of_not_fit] at hrun
  · cases hrun
  · rintro ⟨-, -, hfits⟩
    have hentry : (⟨⟨[7]⟩, { ranges := [(0xFFFFFFFFFFFFFFFF, 0xFFFFFFFFFFFFFFFF)] }⟩ :
        Sigma fun _ : ReplicaId => ReplicaVersion) ∈
          (observe new ⟨[7]⟩ 0xFFFFFFFFFFFFFFFF).run.entries.entries := by decide
    obtain hdefault | ⟨hbehind, -, -⟩ := hfits _ hentry
    · exact absurd hdefault (by decide)
    · exact absurd (hbehind (0xFFFFFFFFFFFFFFFF, 0xFFFFFFFFFFFFFFFF) (by decide) (by decide)
        (0xFFFFFFFFFFFFFFFF, 0xFFFFFFFFFFFFFFFF) (by decide)) (by decide)

end Calls

end VersionVector

end Treecrdt
