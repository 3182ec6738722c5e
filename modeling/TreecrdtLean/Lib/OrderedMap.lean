import Mathlib.Tactic.Common
import Mathlib.Data.List.Nodup

/-!
# Maps that remember the order of insertion

A key that is set again keeps its place.

* `get?_set`, `get?_erase`: what is read after a write or a removal.
* `mem_values_iff`: the values are what can be read.
* `get?_setAll`, `get?_addAll`: writes of a list of entries, where the last or the first of a key
  stays.
-/

namespace Treecrdt

/-- A list of entries with distinct keys. -/
structure OrderedMap (κ β : Type) where
  entries : List (κ × β)
  nodup : (entries.map Prod.fst).Nodup

namespace OrderedMap

variable {κ β : Type}

def empty : OrderedMap κ β := ⟨[], List.nodup_nil⟩

variable [DecidableEq κ]

def get? (m : OrderedMap κ β) (k : κ) : Option β := m.entries.lookup k

def values (m : OrderedMap κ β) : List β := m.entries.map Prod.snd

/-- Write an entry, at its place or at the end. -/
def setEntry (k : κ) (v : β) : List (κ × β) → List (κ × β)
  | [] => [(k, v)]
  | e :: l => if e.1 = k then (k, v) :: l else e :: setEntry k v l

theorem mem_keys_setEntry {k k' : κ} {v : β} {l : List (κ × β)} :
    k' ∈ (setEntry k v l).map Prod.fst ↔ k' = k ∨ k' ∈ l.map Prod.fst := by
  induction l with
  | nil => simp [setEntry]
  | cons e l ih =>
    unfold setEntry
    split
    · rename_i he
      simp only [List.map_cons, List.mem_cons, he]
      tauto
    · simp only [List.map_cons, List.mem_cons, ih]
      tauto

theorem nodup_setEntry {k : κ} {v : β} {l : List (κ × β)} (h : (l.map Prod.fst).Nodup) :
    ((setEntry k v l).map Prod.fst).Nodup := by
  induction l with
  | nil => simp [setEntry]
  | cons e l ih =>
    rw [List.map_cons, List.nodup_cons] at h
    unfold setEntry
    split
    · rename_i he
      rw [List.map_cons, List.nodup_cons, ← he]
      exact h
    · rename_i he
      rw [List.map_cons, List.nodup_cons, mem_keys_setEntry, not_or]
      exact ⟨⟨he, h.1⟩, ih h.2⟩

def set (m : OrderedMap κ β) (k : κ) (v : β) : OrderedMap κ β :=
  ⟨setEntry k v m.entries, nodup_setEntry m.nodup⟩

@[simp] theorem get?_empty (k : κ) : (empty : OrderedMap κ β).get? k = none := rfl

theorem lookup_cons_eq (e : κ × β) (l : List (κ × β)) (k : κ) :
    (e :: l).lookup k = if k = e.1 then some e.2 else l.lookup k := by
  obtain ⟨k', v⟩ := e
  by_cases h : k = k'
  · simp [h]
  · have hbeq : (k == k') = false := by simpa using h
    rw [List.lookup_cons, hbeq, if_neg h]

theorem lookup_setEntry {k k' : κ} {v : β} {l : List (κ × β)} :
    (setEntry k v l).lookup k' = if k' = k then some v else l.lookup k' := by
  induction l with
  | nil => rw [setEntry, lookup_cons_eq]
  | cons e l ih =>
    unfold setEntry
    split
    · rename_i he
      rw [lookup_cons_eq, lookup_cons_eq, he]
      split <;> rfl
    · rename_i he
      rw [lookup_cons_eq, lookup_cons_eq, ih]
      by_cases h : k' = e.1
      · rw [if_pos h, if_pos h, if_neg fun hk => he (h.symm.trans hk)]
      · rw [if_neg h, if_neg h]

theorem get?_set (m : OrderedMap κ β) (k k' : κ) (v : β) :
    (m.set k v).get? k' = if k' = k then some v else m.get? k' := lookup_setEntry

theorem mem_entries_iff {m : OrderedMap κ β} {k : κ} {v : β} :
    (k, v) ∈ m.entries ↔ m.get? k = some v := by
  obtain ⟨l, hl⟩ := m
  unfold get?
  induction l with
  | nil => simp
  | cons e l ih =>
    rw [List.map_cons, List.nodup_cons] at hl
    rw [List.mem_cons, lookup_cons_eq, ih hl.2]
    split
    · rename_i hk
      have hnot : List.lookup k l ≠ some v := fun hlook =>
        hl.1 (hk ▸ List.mem_map_of_mem ((ih hl.2).mpr hlook))
      constructor
      · rintro (rfl | h')
        · rfl
        · exact absurd h' hnot
      · intro hv
        exact Or.inl (Prod.ext hk (Option.some.inj hv).symm)
    · rename_i hk
      exact or_iff_right fun he => hk (congrArg Prod.fst he)

theorem mem_values_iff {m : OrderedMap κ β} {v : β} :
    v ∈ m.values ↔ ∃ k, m.get? k = some v := by
  simp only [values, List.mem_map, Prod.exists, mem_entries_iff, exists_eq_right]

/-- Remove an entry. -/
def erase (m : OrderedMap κ β) (k : κ) : OrderedMap κ β :=
  ⟨m.entries.filter fun e => e.1 ≠ k, (List.filter_sublist.map Prod.fst).nodup m.nodup⟩

theorem lookup_filter_ne {k k' : κ} {l : List (κ × β)} :
    (l.filter fun e => e.1 ≠ k).lookup k' = if k' = k then none else l.lookup k' := by
  induction l with
  | nil => simp
  | cons e l ih =>
    rw [List.filter_cons]
    by_cases he : e.1 = k
    · rw [if_neg (by simp [he]), ih, lookup_cons_eq]
      split
      · rfl
      · rename_i hk
        rw [if_neg (he ▸ hk)]
    · rw [if_pos (by simp [he]), lookup_cons_eq, lookup_cons_eq, ih]
      by_cases hk : k' = e.1
      · rw [if_pos hk, if_pos hk, if_neg (hk ▸ he)]
      · rw [if_neg hk, if_neg hk]

theorem get?_erase (m : OrderedMap κ β) (k k' : κ) :
    (m.erase k).get? k' = if k' = k then none else m.get? k' := lookup_filter_ne

/-! ## Writes of lists -/

/-- The value of the first entry with a key. -/
def first (l : List (κ × β)) (k : κ) : Option β := l.lookup k

/-- The value of the last entry with a key. -/
def last (l : List (κ × β)) (k : κ) : Option β := first l.reverse k

theorem first_cons (e : κ × β) (l : List (κ × β)) (k : κ) :
    first (e :: l) k = if k = e.1 then some e.2 else first l k := lookup_cons_eq e l k

theorem mem_of_first {l : List (κ × β)} {k : κ} {v : β} (h : first l k = some v) : (k, v) ∈ l := by
  induction l with
  | nil => cases h
  | cons e l ih =>
    rw [first_cons] at h
    split at h
    · rename_i hk
      obtain rfl := Option.some.inj h
      exact hk ▸ List.mem_cons_self
    · exact List.mem_cons_of_mem _ (ih h)

theorem mem_of_last {l : List (κ × β)} {k : κ} {v : β} (h : last l k = some v) : (k, v) ∈ l :=
  List.mem_reverse.mp (mem_of_first h)

/-- Write entries one after the other. -/
def setAll (m : OrderedMap κ β) (l : List (κ × β)) : OrderedMap κ β :=
  l.foldl (fun m e => m.set e.1 e.2) m

theorem get?_setAll (m : OrderedMap κ β) (l : List (κ × β)) (k : κ) :
    (m.setAll l).get? k = (last l k).or (m.get? k) := by
  induction l generalizing m with
  | nil => rfl
  | cons e l ih =>
    rw [setAll, List.foldl_cons, ← setAll, ih, get?_set, last, last, first, first,
      List.reverse_cons, List.lookup_append, Option.or_assoc, lookup_cons_eq]
    split <;> rfl

/-- Write the entries whose key is new. -/
def addAll (m : OrderedMap κ β) (l : List (κ × β)) : OrderedMap κ β :=
  l.foldl (fun m e => if (m.get? e.1).isSome then m else m.set e.1 e.2) m

theorem get?_addAll (m : OrderedMap κ β) (l : List (κ × β)) (k : κ) :
    (m.addAll l).get? k = (m.get? k).or (first l k) := by
  induction l generalizing m with
  | nil => simp [addAll, first]
  | cons e l ih =>
    rw [addAll, List.foldl_cons, ← addAll, ih, first_cons]
    split
    · rename_i hsome
      obtain ⟨v, hv⟩ := Option.isSome_iff_exists.mp hsome
      split
      · rename_i hk
        rw [hk, hv]
        rfl
      · rfl
    · rename_i hnone
      rw [get?_set]
      split
      · rename_i hk
        have hget : m.get? e.1 = none := by simpa using hnone
        rw [hk, hget]
        rfl
      · rfl

end OrderedMap

end Treecrdt
