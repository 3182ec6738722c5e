import Mathlib.Data.List.Basic

/-!
# Events and the ones before them

A run is a list of events, the newest last. `EachBehind P` says `P` of every event and of what was
before it; it grows with the run by one event (`eachBehind_concat`), so an induction from the right
proves that an invariant of the run is such a condition.

Where a step function says what an event does, `List.foldlM` runs it; `Along P` says `P` of every
step of a run, and `Along.invariant` proves what such steps keep.
-/

namespace Treecrdt

variable {α : Type}

/-- Every event of the run is as `P` says, given the events before it. -/
def EachBehind (P : List α → α → Prop) (run : List α) : Prop :=
  ∀ before e after, run = before ++ e :: after → P before e

variable {P Q : List α → α → Prop} {run : List α} {e : α}

theorem eachBehind_nil : EachBehind P [] := by
  intro before e after h
  cases before <;> cases h

theorem eachBehind_concat : EachBehind P (run ++ [e]) ↔ EachBehind P run ∧ P run e := by
  constructor
  · refine fun h => ⟨fun before x after hrun => ?_, h run e [] rfl⟩
    exact h before x (after ++ [e]) (by rw [hrun, List.append_assoc, List.cons_append])
  · rintro ⟨h, he⟩ before x after hrun
    obtain ⟨rfl, hx⟩ | ⟨mid, hafter, hmid⟩ : (before = run ∧ x :: after = [e]) ∨
        ∃ mid, x :: after = mid ++ [e] ∧ run = before ++ mid := by
      obtain ⟨mid, hbefore, hlast⟩ | ⟨mid, hrun', hafter⟩ := List.append_eq_append_iff.mp hrun
      · cases mid with
        | nil => exact Or.inl ⟨by rw [hbefore, List.append_nil], hlast.symm⟩
        | cons y mid =>
          have hlen := congrArg List.length hlast
          simp at hlen
      · exact Or.inr ⟨mid, hafter, hrun'⟩
    · cases hx
      exact he
    · cases mid with
      | nil =>
        cases hafter
        rw [hmid, List.append_nil] at he
        exact he
      | cons y mid =>
        obtain ⟨rfl, -⟩ := List.cons.inj hafter
        exact h before x mid hmid

/-! ## Runs of a step function -/

section Steps

variable {σ : Type} {step : σ → α → Option σ} {s s' : σ} {events : List α} {I : σ → Prop}

/-- Every step of the run is as `C` says. -/
def Along (step : σ → α → Option σ) (C : σ → α → Prop) : σ → List α → Prop
  | _, [] => True
  | s, e :: events => C s e ∧ ∀ next ∈ step s e, Along step C next events

theorem Along.invariant {C : σ → α → Prop}
    (hkeep : ∀ s e s', I s → C s e → step s e = some s' → I s') (h : I s)
    (halong : Along step C s events) (hrun : events.foldlM step s = some s') : I s' := by
  induction events generalizing s with
  | nil =>
    cases hrun
    exact h
  | cons e events ih =>
    obtain ⟨next, hnext, hrun⟩ := Option.bind_eq_some_iff.mp hrun
    exact ih (hkeep s e next h halong.1 hnext) (halong.2 next hnext) hrun

theorem along_true : Along step (fun _ _ => True) s events := by
  induction events generalizing s with
  | nil => trivial
  | cons e events ih => exact ⟨trivial, fun next _ => ih⟩

theorem invariant_of_step (hkeep : ∀ s e s', I s → step s e = some s' → I s') (h : I s)
    (hrun : events.foldlM step s = some s') : I s' :=
  along_true.invariant (fun s e s' hs _ => hkeep s e s' hs) h hrun

instance decidableAlong {C : σ → α → Prop} [∀ s e, Decidable (C s e)] :
    ∀ s events, Decidable (Along step C s events)
  | _, [] => isTrue trivial
  | s, e :: events =>
    match h : step s e with
    | none => decidable_of_iff (C s e) (by simp [Along, h])
    | some next =>
      have : Decidable (Along step C next events) := decidableAlong next events
      decidable_of_iff (C s e ∧ Along step C next events) (by simp [Along, h])

end Steps

end Treecrdt
