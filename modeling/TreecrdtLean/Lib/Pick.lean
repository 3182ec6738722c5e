import Mathlib.Data.List.Count
import Mathlib.Data.List.Nodup
import Mathlib.Logic.Function.Basic

/-!
# Elements picked by their keys

Each key has a number of copies left. A walk over a list keeps an element while its key has copies
left, and uses one of them up (`pick`).

* `count_pick`: how many elements of a key are picked; `pick_perm`: with as many copies as in a part
  of the list's own keys, these are the keys of what is picked.
* `fresh`: the first elements of the keys that were not seen before; `pick_fresh`: with their keys
  as the copies, they are what is picked.
-/

namespace Treecrdt

variable {α κ : Type} [DecidableEq κ] (key : α → κ)

/-- The elements whose keys have copies left; each uses one up. -/
def pick : (κ → ℕ) → List α → List α
  | _, [] => []
  | left, a :: l =>
    if left (key a) = 0 then pick left l
    else a :: pick (Function.update left (key a) (left (key a) - 1)) l

/-- The first element of each key that was not seen. -/
def fresh : List κ → List α → List α
  | _, [] => []
  | seen, a :: l => if key a ∈ seen then fresh seen l else a :: fresh (key a :: seen) l

variable {key} {l : List α}

theorem pick_sublist (left : κ → ℕ) (l : List α) : (pick key left l).Sublist l := by
  induction l generalizing left with
  | nil => exact .slnil
  | cons a l ih =>
    rw [pick]
    split
    · exact (ih _).cons _
    · exact (ih _).cons_cons _

theorem count_pick (left : κ → ℕ) (l : List α) (k : κ) :
    ((pick key left l).map key).count k = min (left k) ((l.map key).count k) := by
  induction l generalizing left with
  | nil => simp [pick]
  | cons a l ih =>
    rw [pick]
    by_cases hk : key a = k
    · subst hk
      split
      · rename_i hzero
        rw [ih, hzero, Nat.zero_min, Nat.zero_min]
      · rename_i hleft
        rw [List.map_cons, List.count_cons_self, ih, Function.update_self, List.map_cons,
          List.count_cons_self]
        omega
    · have hrest : ((a :: l).map key).count k = (l.map key).count k := by
        rw [List.map_cons, List.count_cons_of_ne hk]
      rw [hrest]
      split
      · exact ih left
      · rw [List.map_cons, List.count_cons_of_ne hk, ih, Function.update_of_ne (Ne.symm hk)]

/-- With the copies of keys that the list has, these keys are picked. -/
theorem pick_perm {keys : List κ} (h : keys.Subperm (l.map key)) :
    ((pick key (fun k => keys.count k) l).map key).Perm keys := by
  rw [List.perm_iff_count]
  intro k
  rw [count_pick, Nat.min_eq_left (h.count_le k)]

theorem fresh_sublist (seen : List κ) (l : List α) : (fresh key seen l).Sublist l := by
  induction l generalizing seen with
  | nil => exact .slnil
  | cons a l ih =>
    rw [fresh]
    split
    · exact (ih _).cons _
    · exact (ih _).cons_cons _

theorem not_seen_of_mem_fresh {seen : List κ} {a : α} (h : a ∈ fresh key seen l) :
    key a ∉ seen := by
  induction l generalizing seen with
  | nil => cases h
  | cons b l ih =>
    rw [fresh] at h
    split at h
    · exact ih h
    · rename_i hnew
      obtain rfl | h := List.mem_cons.mp h
      · exact hnew
      · exact fun hseen => ih h (List.mem_cons_of_mem _ hseen)

theorem count_fresh_of_mem {seen : List κ} {k : κ} (h : k ∈ seen) :
    ((fresh key seen l).map key).count k = 0 := by
  rw [List.count_eq_zero]
  intro hk
  obtain ⟨a, ha, rfl⟩ := List.mem_map.mp hk
  exact not_seen_of_mem_fresh ha h

theorem fresh_nodup (seen : List κ) (l : List α) : ((fresh key seen l).map key).Nodup := by
  induction l generalizing seen with
  | nil => exact .nil
  | cons a l ih =>
    rw [fresh]
    split
    · exact ih seen
    · rw [List.map_cons, List.nodup_cons]
      refine ⟨fun h => ?_, ih _⟩
      obtain ⟨b, hb, hkey⟩ := List.mem_map.mp h
      exact not_seen_of_mem_fresh hb (hkey ▸ List.mem_cons_self)

/-- The order in which the keys were seen does not matter. -/
theorem fresh_congr {seen seen' : List κ} (h : ∀ k, k ∈ seen ↔ k ∈ seen') (l : List α) :
    fresh key seen l = fresh key seen' l := by
  induction l generalizing seen seen' with
  | nil => rfl
  | cons a l ih =>
    have hcons : ∀ k, k ∈ key a :: seen ↔ k ∈ key a :: seen' := by simp [h]
    rw [fresh, fresh, ih h, ih hcons]
    simp only [h]

theorem fresh_map {β : Type} {key : β → κ} (f : α → β) (seen : List κ) (l : List α) :
    fresh key seen (l.map f) = (fresh (fun a => key (f a)) seen l).map f := by
  induction l generalizing seen with
  | nil => rfl
  | cons a l ih =>
    rw [List.map_cons, fresh, fresh]
    split
    · exact ih seen
    · rw [ih, List.map_cons]

/-- With the keys of the first elements as the copies, these elements are picked. -/
theorem pick_fresh (seen : List κ) (l : List α) :
    pick key (fun k => ((fresh key seen l).map key).count k) l = fresh key seen l := by
  induction l generalizing seen with
  | nil => rfl
  | cons a l ih =>
    by_cases ha : key a ∈ seen
    · have hfresh : fresh key seen (a :: l) = fresh key seen l := by rw [fresh, if_pos ha]
      rw [hfresh, pick, if_pos (count_fresh_of_mem ha), ih]
    · have hfresh : fresh key seen (a :: l) = a :: fresh key (key a :: seen) l := by
        rw [fresh, if_neg ha]
      have hself : ((fresh key (key a :: seen) l).map key).count (key a) = 0 :=
        count_fresh_of_mem List.mem_cons_self
      rw [hfresh, pick, if_neg (by rw [List.map_cons, List.count_cons_self]; omega)]
      congr 1
      rw [← ih (key a :: seen)]
      congr 1
      funext k
      by_cases hk : k = key a
      · subst hk
        rw [Function.update_self, List.map_cons, List.count_cons_self, ih, hself]
      · rw [Function.update_of_ne hk, List.map_cons, List.count_cons_of_ne (Ne.symm hk), ih]

end Treecrdt
