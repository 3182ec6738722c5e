import TreecrdtLean.Core.Tree
import TreecrdtLean.Spec.Refine

/-!
# What the refresh and the reads leave alone

The refresh of the cached tombstones only writes flags, and the reads of a local operation write
nothing. Both may run into a cycle of children lists and then never return, so these are facts of
partial correctness (`Keeps`): whenever the call returns, the rows are the same, and the refresh has
not failed.
-/

namespace Treecrdt

open Exec

variable {N : Type} [NodeStore N] [LawfulNodeStore N]

variable {r : Rows} {E : Error → Prop}

/-- The store stands for these rows, with any cached flags. -/
def HasRows (r : Rows) (s : N) : Prop :=
  ∃ a : Rows × (NodeId → Bool), a.1 = r ∧ LawfulNodeStore.Models s a

theorem hasRows_keeps {α : Type} {c : Exec Error N α} {Q : α → Prop}
    (h : ∀ f, ∃ f', Runs LawfulNodeStore.Models (r, f) c Q (r, f')) :
    Keeps (HasRows r) E c Q := by
  refine Runs.keeps fun ⟨r', f⟩ ha => ?_
  obtain ⟨f', hf⟩ := h f
  exact ⟨(r, f'), rfl, (show r' = r from ha) ▸ hf⟩

/-! ## Reads -/

private theorem nodeExists_keeps (n : NodeId) :
    Keeps (HasRows r) E (NodeStore.nodeExists n : Exec Error N Bool)
      fun b => b = true → (r n).isSome :=
  hasRows_keeps fun f => ⟨f, (LawfulNodeStore.nodeExists r f n).imp fun _ h => h.1⟩

private theorem children_keeps {n : NodeId} (h : (r n).isSome) :
    Keeps (HasRows r) E (NodeStore.children n : Exec Error N _) fun _ => True :=
  hasRows_keeps fun f => ⟨f, (LawfulNodeStore.children r f n h).imp fun _ _ => trivial⟩

private theorem orderKey_keeps (n : NodeId) :
    Keeps (HasRows r) E (NodeStore.orderKey n : Exec Error N _) fun _ => True :=
  hasRows_keeps fun f => ⟨f, (LawfulNodeStore.orderKey r f n).imp fun _ _ => trivial⟩

private theorem subtreeVersionVectorAt_keeps (depth : ℕ) (n : NodeId) :
    Keeps (HasRows r) E (subtreeVersionVectorAt depth n : Exec Error N VersionVector)
      fun _ => True := by
  induction depth generalizing n with
  | zero => exact Keeps.diverge
  | succ depth ih =>
    unfold subtreeVersionVectorAt
    refine (nodeExists_keeps n).bind fun b hb => ?_
    cases b with
    | false => exact Keeps.pure trivial
    | true =>
      have hn := hb rfl
      refine (hasRows_keeps fun f => ⟨f, LawfulNodeStore.lastChange r f n hn⟩).bind fun vv _ => ?_
      refine (children_keeps hn).bind fun children _ => ?_
      exact Keeps.foldlM (fun c vv _ => (ih c).bind fun _ _ => Keeps.pure trivial) trivial

theorem subtreeVersionVector_keeps (n : NodeId) :
    Keeps (HasRows r) E (NodeStore.subtreeVersionVector n : Exec Error N VersionVector)
      fun _ => True := subtreeVersionVectorAt_keeps walkLimit n

theorem isTombstoned_keeps (n : NodeId) :
    Keeps (HasRows r) E (TreeCrdt.isTombstoned n : Exec Error N Bool) fun _ => True := by
  unfold TreeCrdt.isTombstoned
  refine (nodeExists_keeps n).bind fun b hb => ?_
  cases b with
  | false => exact Keeps.pure trivial
  | true =>
    refine (hasRows_keeps fun f => ⟨f, LawfulNodeStore.deletedAt r f n (hb rfl)⟩).bind
      fun deleted _ => ?_
    rcases deleted with _ | vv
    · exact Keeps.pure trivial
    · exact (subtreeVersionVector_keeps n).bind fun _ _ => Keeps.pure trivial

theorem treeChildren_keeps (p : NodeId) :
    Keeps (HasRows r) E (TreeCrdt.children p : Exec Error N (List NodeId)) fun _ => True := by
  unfold TreeCrdt.children
  refine (nodeExists_keeps p).bind fun b hb => ?_
  cases b with
  | false => exact Keeps.pure trivial
  | true =>
    refine (children_keeps (hb rfl)).bind fun children _ => ?_
    exact Keeps.foldlM (fun c l _ => (isTombstoned_keeps c).bind fun _ _ => Keeps.pure trivial)
      trivial

/-- Choosing a place fails where `after` is no child or there is no key; it writes nothing. -/
theorem allocateChildKeyAfter_keeps (parent node : NodeId) (after : Option NodeId) (seed : Bytes) :
    Keeps (HasRows r) (fun _ => True)
      (TreeCrdt.allocateChildKeyAfter parent node after seed : Exec Error N Bytes)
      fun _ => True := by
  unfold TreeCrdt.allocateChildKeyAfter
  split
  · exact Keeps.pure trivial
  refine (treeChildren_keeps parent).bind fun children _ => ?_
  refine Keeps.bind (Q := fun _ => True) ?_ fun keys _ => ?_
  · unfold TreeCrdt.neighbourKeys
    rcases after with _ | after
    · simp only
      split
      · exact (orderKey_keeps _).bind fun _ _ => Keeps.pure trivial
      · exact Keeps.pure trivial
    · simp only
      split
      · refine (orderKey_keeps after).bind fun _ _ => ?_
        split
        · exact (orderKey_keeps _).bind fun _ _ => Keeps.pure trivial
        · exact Keeps.pure trivial
      · exact Keeps.throw trivial
  · intro s hs res s' hres
    cases hres
    exact ⟨hs, by split <;> trivial⟩

/-! ## The refresh -/

theorem refreshFlag_keeps {n : NodeId} (hn : (r n).isSome) :
    Keeps (HasRows r) E (TreeCrdt.refreshFlag n : Exec Error N Bool) fun _ => True := by
  unfold TreeCrdt.refreshFlag
  refine (hasRows_keeps fun f =>
    ⟨f, (LawfulNodeStore.tombstone r f n hn).imp fun _ _ => trivial⟩).bind fun previous _ => ?_
  refine (isTombstoned_keeps n).bind fun tombstoned _ => ?_
  split_ifs
  · exact Keeps.pure trivial
  · refine (hasRows_keeps fun f => ⟨_, LawfulNodeStore.setTombstone r f n tombstoned hn⟩).bind
      fun _ _ => ?_
    exact Keeps.pure trivial

theorem refreshLoop_keeps (steps : ℕ) (stack visited changed : List NodeId) :
    Keeps (HasRows r) E (TreeCrdt.refreshLoop steps stack visited changed : Exec Error N _)
      fun _ => True := by
  induction steps generalizing stack visited changed with
  | zero =>
    cases stack with
    | nil => exact Keeps.pure trivial
    | cons n stack => exact Keeps.diverge
  | succ steps ih =>
    cases stack with
    | nil => exact Keeps.pure trivial
    | cons n stack =>
      unfold TreeCrdt.refreshLoop
      split_ifs
      · exact ih _ _ _
      · exact ih _ _ _
      refine (hasRows_keeps fun f => ⟨f, LawfulNodeStore.parentAndHasDeletedAt r f n⟩).bind
        fun o ho => ?_
      rcases o with _ | ⟨parent, hasDeletedAt⟩
      · exact ih _ _ _
      refine Keeps.bind (Q := fun _ => True) ?_ fun _ _ => ih _ _ _
      split_ifs
      · exact refreshFlag_keeps (ho rfl).1
      · exact Keeps.pure trivial

/-- A refresh that returns has not failed, and has only written flags. -/
theorem refreshTombstonesUpward_keeps (starts : List NodeId) :
    Keeps (HasRows r) E (TreeCrdt.refreshTombstonesUpward starts : Exec Error N Unit)
      fun _ => True :=
  Keeps.bind (refreshLoop_keeps _ _ _ _) fun _ _ => Keeps.pure trivial

end Treecrdt
