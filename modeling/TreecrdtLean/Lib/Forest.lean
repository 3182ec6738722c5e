import Mathlib.Logic.Relation
import Mathlib.Data.Set.Card
import Mathlib.SetTheory.Cardinal.Finite

/-!
# Parent pointers

A forest is a function `up : α → Option α`. `Above up a b` holds when a walk up from `a` meets `b`.

* `Acyclic.update`: hanging a node under one that is not below it keeps a forest acyclic.
* `Acyclic.depth`, `Acyclic.height`: measures for walks up and for recursions down.
* `MeetsCycle up a`: the walk up from `a` runs into a cycle (in a forest, for no node).
* `Climb up ok k a b`: a walk up of `k` steps, along nodes that meet `ok`.
-/

namespace Treecrdt

namespace Forest

open Relation

variable {α : Type*}

/-- The walk up from `a` meets `b`, which may be `a` itself. -/
def Above (up : α → Option α) : α → α → Prop := ReflTransGen fun a b => up a = some b

/-- The walk up from `a` meets `b` after at least one step. -/
def StrictlyAbove (up : α → Option α) : α → α → Prop := TransGen fun a b => up a = some b

/-- No walk comes back to where it started. -/
def Acyclic (up : α → Option α) : Prop := ∀ a, ¬ StrictlyAbove up a a

/-- The walk up from `a` runs into a cycle. -/
def MeetsCycle (up : α → Option α) (a : α) : Prop := ∃ b, Above up a b ∧ StrictlyAbove up b b

theorem acyclic_none : Acyclic fun _ : α => none := by
  intro a h
  obtain ⟨b, hb, -⟩ := TransGen.head'_iff.mp h
  cases hb

variable {up : α → Option α}

/-- A forest with fewer links. -/
theorem Acyclic.of_imp {up' : α → Option α} (h : Acyclic up)
    (himp : ∀ a b, up' a = some b → up a = some b) : Acyclic up' :=
  fun a ha => h a (TransGen.mono himp a a ha)

theorem above_iff {a b : α} : Above up a b ↔ a = b ∨ ∃ c, up a = some c ∧ Above up c b := by
  constructor
  · intro h
    rcases ReflTransGen.cases_head h with rfl | ⟨c, hc, hcb⟩
    · exact Or.inl rfl
    · exact Or.inr ⟨c, hc, hcb⟩
  · rintro (rfl | ⟨c, hc, hcb⟩)
    · exact ReflTransGen.refl
    · exact ReflTransGen.head hc hcb

/-- A cycle leads on from each of its nodes. -/
theorem not_meetsCycle_of_none {a : α} (h : up a = none) : ¬ MeetsCycle up a := by
  rintro ⟨c, hac, hc⟩
  obtain rfl | ⟨d, hd, -⟩ := above_iff.mp hac
  · obtain ⟨d, hd, -⟩ := TransGen.head'_iff.mp hc
    exact Option.some_ne_none d (hd.symm.trans h)
  · exact Option.some_ne_none d (hd.symm.trans h)

theorem meetsCycle_of_some {a b : α} (h : up a = some b) : MeetsCycle up a ↔ MeetsCycle up b := by
  constructor
  · rintro ⟨c, hac, hc⟩
    obtain rfl | ⟨d, hd, hdc⟩ := above_iff.mp hac
    -- The start is on the cycle, and so is the node above it.
    · obtain ⟨d, hd, hda⟩ := TransGen.head'_iff.mp hc
      obtain rfl := Option.some.inj (h.symm.trans hd)
      exact ⟨a, hda, hc⟩
    · obtain rfl := Option.some.inj (h.symm.trans hd)
      exact ⟨c, hdc, hc⟩
  · rintro ⟨c, hbc, hc⟩
    exact ⟨c, .head h hbc, hc⟩

theorem acyclic_iff : Acyclic up ↔ ∀ a, ¬ MeetsCycle up a := by
  constructor
  · rintro h a ⟨b, -, hb⟩
    exact h b hb
  · exact fun h a ha => h a ⟨a, .refl, ha⟩

section

variable [DecidableEq α] {n : α} {p : Option α}

/-- A walk to `n` does not depend on what is above `n`. -/
private theorem above_of_update {a : α} (h : Above (Function.update up n p) a n) :
    Above up a n := by
  induction h using ReflTransGen.head_induction_on with
  | refl => exact ReflTransGen.refl
  | @head x y hxy _ ih =>
    by_cases hx : x = n
    · rw [hx]
      exact ReflTransGen.refl
    · rw [Function.update_of_ne hx] at hxy
      exact ReflTransGen.head hxy ih

theorem above_update_self {a : α} : Above (Function.update up n p) a n ↔ Above up a n := by
  refine ⟨above_of_update, fun h => above_of_update (n := n) (p := up n) ?_⟩
  rwa [Function.update_idem, Function.update_eq_self]

/-- A walk that does not meet `n` stays. -/
theorem above_update_of_not_above {a x : α} (h : Above up a x) (hn : ¬ Above up a n) :
    Above (Function.update up n p) a x := by
  induction h using ReflTransGen.head_induction_on with
  | refl => exact ReflTransGen.refl
  | @head a b hab _ ih =>
    have ha : a ≠ n := by
      rintro rfl
      exact hn ReflTransGen.refl
    refine ReflTransGen.head ?_ (ih fun hb => hn (ReflTransGen.head hab hb))
    rwa [Function.update_of_ne ha]

/-- A walk in the new forest is one in the old forest, or leads through `n`. -/
private theorem strictlyAbove_of_update {a b : α}
    (h : StrictlyAbove (Function.update up n p) a b) :
    StrictlyAbove up a b ∨
      Above (Function.update up n p) a n ∧ StrictlyAbove (Function.update up n p) n b := by
  induction h using TransGen.head_induction_on with
  | @single x hx =>
    by_cases h : x = n
    · subst h
      exact Or.inr ⟨ReflTransGen.refl, TransGen.single hx⟩
    · rw [Function.update_of_ne h] at hx
      exact Or.inl (TransGen.single hx)
  | @head x y hxy hyb ih =>
    by_cases h : x = n
    · subst h
      exact Or.inr ⟨ReflTransGen.refl, TransGen.head hxy hyb⟩
    · rcases ih with ih | ⟨hyn, hnb⟩
      · rw [Function.update_of_ne h] at hxy
        exact Or.inl (TransGen.head hxy ih)
      · exact Or.inr ⟨ReflTransGen.head hxy hyn, hnb⟩

/-- Hanging `n` under a node that is not below it. -/
theorem Acyclic.update (h : Acyclic up) (hp : ∀ q, p = some q → ¬ Above up q n) :
    Acyclic (Function.update up n p) := by
  intro a ha
  rcases strictlyAbove_of_update ha with ha' | ⟨han, hna⟩
  · exact h a ha'
  -- The cycle leads through `n`: its part behind `n` starts at the new parent.
  · obtain ⟨q, hq, hqn⟩ := TransGen.head'_iff.mp (TransGen.trans_left hna han)
    rw [Function.update_self] at hq
    exact hp q hq (above_of_update hqn)

/-- A walk to `x` in the old forest is one in the new forest, or its last part starts above `n`. -/
theorem above_update_of_above {a x : α} (h : Above up a x) :
    Above (Function.update up n p) a x ∨ n = x ∨
      ∃ q, up n = some q ∧ Above (Function.update up n p) q x := by
  induction h using ReflTransGen.head_induction_on with
  | refl => exact Or.inl ReflTransGen.refl
  | @head a b hab _ ih =>
    obtain ih | ih := ih
    · by_cases ha : a = n
      · exact Or.inr (Or.inr ⟨b, ha ▸ hab, ih⟩)
      · refine Or.inl (ReflTransGen.head ?_ ih)
        rwa [Function.update_of_ne ha]
    · exact Or.inr ih

/-- What is above neither `n` nor its old parent has the same nodes below it. -/
theorem above_update_iff {a x : α} (hn : ¬ Above (Function.update up n p) n x)
    (hold : ∀ q, up n = some q → ¬ Above (Function.update up n p) q x) :
    Above (Function.update up n p) a x ↔ Above up a x := by
  have hne : n ≠ x := fun he => hn (he ▸ ReflTransGen.refl)
  constructor
  · intro h
    induction h using ReflTransGen.head_induction_on with
    | refl => exact ReflTransGen.refl
    | @head a b hab hbx ih =>
      have ha : a ≠ n := by
        rintro rfl
        exact hn (ReflTransGen.head hab hbx)
      rw [Function.update_of_ne ha] at hab
      exact ReflTransGen.head hab ih
  · intro h
    obtain h | he | ⟨q, hq, habove⟩ := above_update_of_above (n := n) (p := p) h
    · exact h
    · exact absurd he hne
    · exact absurd habove (hold q hq)

end

/-! ## Measures -/

section

variable [Finite α]

/-- The number of nodes strictly above. -/
noncomputable def depth (up : α → Option α) (a : α) : ℕ := {b | StrictlyAbove up a b}.ncard

/-- The number of nodes strictly below. -/
noncomputable def height (up : α → Option α) (a : α) : ℕ := {b | StrictlyAbove up b a}.ncard

theorem Acyclic.depth_lt (h : Acyclic up) {a b : α} (hab : up a = some b) :
    depth up b < depth up a := by
  refine Set.ncard_lt_ncard ⟨fun c hc => TransGen.head hab hc, fun hsub => ?_⟩ (Set.toFinite _)
  exact h b (hsub (TransGen.single hab))

theorem Acyclic.height_lt (h : Acyclic up) {a b : α} (hab : up a = some b) :
    height up a < height up b := by
  refine Set.ncard_lt_ncard ⟨fun c hc => TransGen.tail hc hab, fun hsub => ?_⟩ (Set.toFinite _)
  exact h a (hsub (TransGen.single hab))

theorem Acyclic.depth_lt_card (h : Acyclic up) (a : α) : depth up a < Nat.card α := by
  rw [← Set.ncard_univ]
  exact Set.ncard_lt_ncard ⟨Set.subset_univ _, fun hsub => h a (hsub (Set.mem_univ a))⟩
    (Set.toFinite _)

theorem Acyclic.height_lt_card (h : Acyclic up) (a : α) : height up a < Nat.card α := by
  rw [← Set.ncard_univ]
  exact Set.ncard_lt_ncard ⟨Set.subset_univ _, fun hsub => h a (hsub (Set.mem_univ a))⟩
    (Set.toFinite _)

end

/-! ## Walks of a given length -/

/-- A walk of `k` steps up from `a` to `b`, along nodes that meet `ok`. -/
inductive Climb (up : α → Option α) (ok : α → Prop) : ℕ → α → α → Prop
  | here {a : α} (h : ok a) : Climb up ok 0 a a
  | step {k : ℕ} {a b c : α} (h : ok a) (hab : up a = some b) (hbc : Climb up ok k b c) :
      Climb up ok (k + 1) a c

namespace Climb

variable {ok ok' : α → Prop} {k l : ℕ} {a b c : α}

theorem trans (hab : Climb up ok k a b) (hbc : Climb up ok l b c) : Climb up ok (k + l) a c := by
  induction hab with
  | here _ => rwa [Nat.zero_add]
  | @step k a a' b ha haa' _ ih =>
    rw [Nat.add_right_comm]
    exact step ha haa' (ih hbc)

theorem imp (h : Climb up ok k a b) (himp : ∀ x, ok x → ok' x) : Climb up ok' k a b := by
  induction h with
  | here ha => exact here (himp _ ha)
  | step ha hab _ ih => exact step (himp _ ha) hab ih

/-- Nothing but the top itself is above the top. -/
theorem eq_of_none (h : Climb up ok k a b) (ha : up a = none) : a = b := by
  cases h with
  | here _ => rfl
  | step _ hab _ => rw [ha] at hab; cases hab

end Climb

end Forest

end Treecrdt
