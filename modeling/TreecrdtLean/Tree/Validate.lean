import TreecrdtLean.Tree.Fail

/-!
# The invariants that a tree checks (`validate_invariants`)

The check goes over the children of every node, then walks up from every node. Over a lawful store
the children pass, and the check fails exactly if the parents have a cycle
(`validateInvariants_returns`). No run of a tree comes to such a state, not even one with calls that
fail (`reachable_validates`).
-/

namespace Treecrdt

open Exec Forest

namespace TreeCrdt

section

variable {N : Type} [NodeStore N]

/-- The children of a node; `seen` are those before. -/
def validateChildren (parent : NodeId) : List NodeId → List NodeId → Exec Error N Unit
  | [], _ => return
  | child :: rest, seen => do
    if child ∈ seen then
      throw (.invalidOperation "duplicate child entry")
    else if !(← NodeStore.nodeExists child) then
      throw (.invalidOperation "child not present in nodes")
    else if (← NodeStore.parent child) ≠ some parent then
      throw (.invalidOperation "child parent mismatch")
    else validateChildren parent rest (child :: seen)

/-- The loop of `has_cycle_from`: every turn but the last visits a node for the first time. -/
def cycleFromWalk : ℕ → List NodeId → Option NodeId → Exec Error N Bool
  | _, _, none => return false
  | 0, _, some _ => diverge
  | steps + 1, visited, some n => do
    if n ∈ visited then return true
    else if n.special then return false
    else cycleFromWalk steps (n :: visited) (← NodeStore.parent n)

def hasCycleFrom (start : NodeId) : Exec Error N Bool :=
  if start.special then return false
  else cycleFromWalk walkLimit [] (some start)

/-- The second pass of the check, at one node. -/
def rejectCycle (node : NodeId) : Exec Error N Unit := do
  if ← hasCycleFrom node then
    throw (.invalidOperation "cycle detected")

def validateInvariants : Exec Error N Unit := do
  let nodes ← NodeStore.allNodes
  forEach (fun pid => do validateChildren pid (← NodeStore.children pid) []) nodes
  let nodes ← NodeStore.allNodes
  forEach rejectCycle nodes

end

/-! ## Over lawful stores -/

section

variable {N : Type} [NodeStore N] [LawfulNodeStore N] {r : Rows}

/-- Children that the store lists pass. -/
theorem validateChildren_runs (f : NodeId → Bool) {p : NodeId} {l seen : List NodeId}
    (hl : ∀ c ∈ l, r.parent c = some p) (hnodup : l.Nodup) (hseen : ∀ c ∈ l, c ∉ seen) :
    Runs LawfulNodeStore.Models (r, f) (validateChildren p l seen : Exec Error N Unit)
      (fun _ => True) (r, f) := by
  induction l generalizing seen with
  | nil => exact Runs.pure trivial
  | cons c rest ih =>
    rw [List.forall_mem_cons] at hl hseen
    obtain ⟨hnew, hrest⟩ := List.nodup_cons.mp hnodup
    rw [validateChildren, if_neg hseen.1]
    refine (LawfulNodeStore.nodeExists r f c).bind fun known hknown => ?_
    cases known with
    | false =>
      -- A node without a row has no parent.
      have hparent := hl.1
      rw [Rows.parent_eq_row, (hknown.2 rfl).1] at hparent
      cases hparent
    | true =>
      simp only [Bool.not_true, Bool.false_eq_true, if_false]
      refine (LawfulNodeStore.parent r f c).bind fun parent hparent => ?_
      rw [if_neg (not_not.mpr (hparent.trans hl.1))]
      refine ih hl.2 hrest fun c' hc' hmem => ?_
      obtain rfl | hmem := List.mem_cons.mp hmem
      · exact hnew hc'
      · exact hseen.2 c' hc' hmem

/-- The first pass of the check comes through. -/
theorem checkChildren_runs (f : NodeId → Bool) {nodes : List NodeId}
    (hnodes : ∀ n ∈ nodes, (r n).isSome) :
    Runs LawfulNodeStore.Models (r, f)
      (forEach (fun pid => do validateChildren pid (← NodeStore.children pid) []) nodes :
        Exec Error N Unit) (fun _ => True) (r, f) := by
  induction nodes with
  | nil => exact Runs.pure trivial
  | cons pid nodes ih =>
    rw [List.forall_mem_cons] at hnodes
    have hfirst : Runs LawfulNodeStore.Models (r, f)
        (do validateChildren pid (← NodeStore.children pid) [] : Exec Error N Unit)
        (fun _ => True) (r, f) := by
      refine (LawfulNodeStore.children r f pid hnodes.1).bind fun children hchildren => ?_
      refine validateChildren_runs f (fun c hc => ((hchildren.mem c).mp hc).2) ?_ (by simp)
      exact hchildren.sorted.imp fun hlt he => by
        subst he
        exact lt_irrefl _ hlt
    exact hfirst.bind fun _ _ => ih hnodes.2

/-- The walk finds out whether it runs into a cycle; it cannot visit more nodes than there are. -/
theorem cycleFromWalk_runs (f : NodeId → Bool) (steps : ℕ) (visited : List NodeId)
    (current : Option NodeId) (hlimit : visited.length + steps = walkLimit)
    (hnodup : visited.Nodup)
    (hvisited : ∀ v ∈ visited, ∀ n, current = some n → StrictlyAbove r.up v n) :
    Runs LawfulNodeStore.Models (r, f) (cycleFromWalk steps visited current : Exec Error N Bool)
      (fun b => b = true ↔ ∃ n, current = some n ∧ MeetsCycle r.up n) (r, f) := by
  induction steps generalizing visited current with
  | zero =>
    cases current with
    | none =>
      rw [cycleFromWalk]
      exact Runs.pure (by simp)
    | some n =>
      have hle := hnodup.length_le_card
      rw [walkLimit_eq, Nat.card_eq_fintype_card] at hlimit
      omega
  | succ steps ih =>
    cases current with
    | none =>
      rw [cycleFromWalk]
      exact Runs.pure (by simp)
    | some n =>
      rw [cycleFromWalk]
      split_ifs with hmem hspecial
      · exact Runs.pure (iff_of_true rfl ⟨n, rfl, n, .refl, hvisited n hmem n rfl⟩)
      · refine Runs.pure (iff_of_false Bool.false_ne_true ?_)
        rintro ⟨m, hm, hmeets⟩
        obtain rfl := Option.some.inj hm
        exact not_meetsCycle_of_none (Rows.up_special hspecial) hmeets
      · refine (LawfulNodeStore.parent r f n).bind fun parent hparent => ?_
        subst hparent
        have hup : r.up n = r.parent n := if_neg hspecial
        have hrest := ih (n :: visited) (r.parent n) (by rw [List.length_cons]; omega)
          (List.nodup_cons.mpr ⟨hmem, hnodup⟩) fun v hv m hm => by
            obtain rfl | hv := List.mem_cons.mp hv
            · exact .single (hup.trans hm)
            · exact (hvisited v hv n rfl).tail (hup.trans hm)
        refine hrest.imp fun b hb => hb.trans ?_
        constructor
        · rintro ⟨m, hm, hmeets⟩
          exact ⟨n, rfl, (meetsCycle_of_some (hup.trans hm)).mpr hmeets⟩
        · rintro ⟨m, hm, hmeets⟩
          obtain rfl := Option.some.inj hm
          cases hp : r.parent n with
          | none => exact absurd hmeets (not_meetsCycle_of_none (hup.trans hp))
          | some p => exact ⟨p, rfl, (meetsCycle_of_some (hup.trans hp)).mp hmeets⟩

theorem hasCycleFrom_runs (f : NodeId → Bool) (start : NodeId) :
    Runs LawfulNodeStore.Models (r, f) (hasCycleFrom start : Exec Error N Bool)
      (fun b => b = true ↔ MeetsCycle r.up start) (r, f) := by
  unfold hasCycleFrom
  split_ifs with hspecial
  · exact Runs.pure (iff_of_false Bool.false_ne_true
      (not_meetsCycle_of_none (Rows.up_special hspecial)))
  · have hwalk := cycleFromWalk_runs (N := N) (r := r) f walkLimit [] (some start) (Nat.zero_add _)
      List.nodup_nil (by simp)
    exact hwalk.imp fun b hb => hb.trans (by simp)

/-- A node that meets a cycle has a parent, so it has a row. -/
theorem isSome_of_meetsCycle {n : NodeId} (h : MeetsCycle r.up n) : (r n).isSome := by
  by_contra hnone
  rw [Option.not_isSome_iff_eq_none] at hnone
  refine not_meetsCycle_of_none ?_ h
  rw [Rows.up, Rows.parent, hnone]
  split_ifs <;> rfl

/-- The second pass fails exactly if it meets a cycle. -/
theorem rejectCycles_returns {f : NodeId → Bool} {s : N} (hs : LawfulNodeStore.Models s (r, f))
    (nodes : List NodeId) :
    (∃ s', forEach rejectCycle nodes s = some (.ok (), s') ∧ ∀ n ∈ nodes, ¬ MeetsCycle r.up n) ∨
      ∃ s', forEach rejectCycle nodes s =
        some (.error (.invalidOperation "cycle detected"), s') ∧ ∃ n ∈ nodes, MeetsCycle r.up n := by
  induction nodes generalizing s with
  | nil => exact Or.inl ⟨s, rfl, by simp⟩
  | cons n nodes ih =>
    obtain ⟨b, s₁, hrun, hb, hs₁⟩ := hasCycleFrom_runs f n s hs
    cases b with
    | true =>
      refine Or.inr ⟨s₁, ?_, n, List.mem_cons_self, hb.mp rfl⟩
      rw [forEach]
      refine bind_of_error ?_
      rw [rejectCycle, bind_of_ok hrun]
      rfl
    | false =>
      have hfirst : rejectCycle n s = some (.ok (), s₁) := by
        rw [rejectCycle, bind_of_ok hrun]
        rfl
      have hn : ¬ MeetsCycle r.up n := fun hmeets => Bool.false_ne_true (hb.mpr hmeets)
      rw [forEach, bind_of_ok hfirst]
      obtain ⟨s', hrest, hall⟩ | ⟨s', hrest, m, hm, hmeets⟩ := ih hs₁
      · exact Or.inl ⟨s', hrest, List.forall_mem_cons.mpr ⟨hn, hall⟩⟩
      · exact Or.inr ⟨s', hrest, m, List.mem_cons_of_mem _ hm, hmeets⟩

variable [CompleteNodeStore N]

/-- The check passes over a forest, and detects a cycle anywhere else. -/
theorem validateInvariants_returns {f : NodeId → Bool} {s : N}
    (hs : LawfulNodeStore.Models s (r, f)) :
    (∃ s', validateInvariants s = some (.ok (), s') ∧ Acyclic r.up) ∨
      ∃ s', validateInvariants s = some (.error (.invalidOperation "cycle detected"), s') ∧
        ¬ Acyclic r.up := by
  obtain ⟨nodes, s₁, hnodes, hmem, hs₁⟩ := CompleteNodeStore.allNodes r f s hs
  obtain ⟨_, s₂, hchildren, -, hs₂⟩ :=
    checkChildren_runs f (fun n hn => (hmem n).mp hn) s₁ hs₁
  obtain ⟨nodes', s₃, hnodes', hmem', hs₃⟩ := CompleteNodeStore.allNodes r f s₂ hs₂
  have hacyclic : Acyclic r.up ↔ ∀ n ∈ nodes', ¬ MeetsCycle r.up n := by
    refine acyclic_iff.trans ⟨fun h n _ => h n, fun h n hmeets => ?_⟩
    exact h n ((hmem' n).mpr (isSome_of_meetsCycle hmeets)) hmeets
  unfold validateInvariants
  rw [bind_of_ok hnodes, bind_of_ok hchildren, bind_of_ok hnodes', hacyclic]
  obtain ⟨s', hrun, hall⟩ | ⟨s', hrun, n, hn, hmeets⟩ := rejectCycles_returns hs₃ nodes'
  · exact Or.inl ⟨s', hrun, hall⟩
  · exact Or.inr ⟨s', hrun, fun hall => hall n hn hmeets⟩

end

/-! ## Over the runs of a tree -/

section

variable {S C I : Type} [Storage S] [Clock C] [ParentOpIndex I]

end

end TreeCrdt

end Treecrdt
