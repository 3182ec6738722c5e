import Mathlib.Order.Basic
import Mathlib.Data.List.Basic
import Mathlib.Data.List.Sort
import Mathlib.Algebra.GroupWithZero.Nat

/-!
# Pages of a sorted list

A page holds the first elements behind a cursor, the key of an element that was read before. The
pages of a list that is strictly sorted by its keys, each behind the last element of those before,
are together a prefix of the list (`pages_eq_take`). Such a list has no other order
(`eq_of_sorted`).
-/

namespace Treecrdt

variable {α κ : Type} [LinearOrder κ] (K : α → κ)

/-- The elements behind a cursor. -/
def behind (cursor : Option κ) (l : List α) : List α := l.filter fun a => cursor.all (· < K a)

/-- The pages of these sizes, each behind the last element of those before. -/
def pages (l : List α) : List ℕ → Option κ → List α
  | [], _ => []
  | limit :: limits, cursor =>
    let page := (behind K cursor l).take limit
    page ++ pages l limits ((page.getLast?.map K).or cursor)

variable {K} {l : List α}

/-- Two lists of the same elements, strictly sorted by their keys, are one. -/
theorem eq_of_sorted {l' : List α} (hl : l.Pairwise fun a b => K a < K b)
    (hl' : l'.Pairwise fun a b => K a < K b) (hmem : ∀ a, a ∈ l ↔ a ∈ l') : l = l' := by
  have hnodup : ∀ {l : List α}, l.Pairwise (fun a b => K a < K b) → l.Nodup := fun h =>
    h.imp fun hlt he => by subst he; exact lt_irrefl _ hlt
  have hperm : l.Perm l' := (List.perm_ext_iff_of_nodup (hnodup hl) (hnodup hl')).mpr hmem
  exact hperm.eq_of_pairwise (fun a b _ _ hab hba => absurd (hab.trans hba) (lt_irrefl _)) hl hl'

theorem mem_behind {cursor : Option κ} {a : α} :
    a ∈ behind K cursor l ↔ a ∈ l ∧ ∀ key ∈ cursor, key < K a := by
  rw [behind, List.mem_filter, Option.all_eq_true]
  simp only [decide_eq_true_eq]
  rfl

/-- Behind the last element of a page is the rest. -/
theorem behind_last (hl : l.Pairwise fun a b => K a < K b) {cursor : Option κ} {limit : ℕ} {a : α}
    (ha : ((behind K cursor l).take limit).getLast? = some a) :
    behind K (some (K a)) l = (behind K cursor l).drop limit := by
  obtain ⟨front, hfront⟩ := List.getLast?_eq_some_iff.mp ha
  have hsplit : behind K cursor l = front ++ a :: (behind K cursor l).drop limit :=
    calc behind K cursor l
        = (behind K cursor l).take limit ++ (behind K cursor l).drop limit :=
          (List.take_append_drop _ _).symm
      _ = front ++ a :: (behind K cursor l).drop limit := by simp [hfront]
  have hsorted : (behind K cursor l).Pairwise fun a b => K a < K b := hl.filter _
  have hagain : behind K (some (K a)) l = behind K (some (K a)) (behind K cursor l) := by
    have hcursor := (mem_behind.mp (hsplit ▸ List.mem_append_right front List.mem_cons_self :
      a ∈ behind K cursor l)).2
    rw [behind, behind, behind, List.filter_filter]
    refine List.filter_congr fun x _ => ?_
    rw [Bool.eq_iff_iff, Bool.and_eq_true, Option.all_eq_true, Option.all_eq_true]
    simp only [decide_eq_true_eq]
    refine ⟨fun h => ⟨h, fun key hkey => (hcursor key hkey).trans (h _ rfl)⟩, And.left⟩
  generalize hrest : (behind K cursor l).drop limit = rest at hsplit
  rw [hagain, hsplit]
  rw [hsplit] at hsorted
  obtain ⟨-, hback, hcross⟩ := List.pairwise_append.mp hsorted
  have hsmall : front.filter (fun x => (some (K a)).all (· < K x)) = [] := by
    rw [List.filter_eq_nil_iff]
    intro x hx
    have hlt := hcross x hx a List.mem_cons_self
    simpa using hlt.le
  have hlarge : rest.filter (fun x => (some (K a)).all (· < K x)) = rest := by
    rw [List.filter_eq_self]
    intro x hx
    simpa using List.rel_of_pairwise_cons hback hx
  rw [behind, List.filter_append, hsmall, List.nil_append, List.filter_cons_of_neg (by simp),
    hlarge]

theorem pages_eq_take (hl : l.Pairwise fun a b => K a < K b) (limits : List ℕ)
    (cursor : Option κ) : pages K l limits cursor = (behind K cursor l).take limits.sum := by
  induction limits generalizing cursor with
  | nil => rw [pages, List.sum_nil, List.take_zero]
  | cons limit limits ih =>
    rw [pages, ih, List.sum_cons, List.take_add]
    congr 1
    cases hlast : ((behind K cursor l).take limit).getLast? with
    | none =>
      -- The page is empty: it was to be, or there is no more.
      rw [Option.map_none, Option.none_or]
      obtain hzero | hnil := List.take_eq_nil_iff.mp (List.getLast?_eq_none_iff.mp hlast)
      · rw [hzero, List.drop_zero]
      · rw [hnil, List.drop_nil]
    | some a => rw [Option.map_some, Option.some_or, behind_last hl hlast]

/-- The pages from the start. -/
theorem pages_none (hl : l.Pairwise fun a b => K a < K b) (limits : List ℕ) :
    pages K l limits none = l.take limits.sum := by
  rw [pages_eq_take hl, behind]
  simp

end Treecrdt
