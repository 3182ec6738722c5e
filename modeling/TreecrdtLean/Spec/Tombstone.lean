import TreecrdtLean.Core.Tree
import TreecrdtLean.Core.Dots
import TreecrdtLean.Spec.Refine

/-!
# Tombstones

A node is tombstoned if its `deleted_at` covers the changes of its whole subtree. The subtree is
read off the children lists, so what hangs under `TRASH` is not in it (`Rows.listed`).

* `subtreeVersionVector_runs`: the recursion returns the changes of the subtree, if the listed
  parents are a forest.
* `isTombstoned_runs`: `is_tombstoned` decides `Rows.Tombstoned`.
-/

namespace Treecrdt

open Exec Forest

namespace Rows

/-- The parent whose children list holds the node. -/
def listed (r : Rows) (n : NodeId) : Option NodeId :=
  (r.parent n).filter fun p => p ≠ NodeId.TRASH

theorem listed_eq_some {r : Rows} {n p : NodeId} :
    r.listed n = some p ↔ p ≠ NodeId.TRASH ∧ r.parent n = some p := by
  rw [listed, Option.filter_eq_some_iff, and_comm]
  simp

theorem IsChildren.mem_listed {r : Rows} {p : NodeId} {l : List NodeId} (h : r.IsChildren p l)
    {c : NodeId} : c ∈ l ↔ r.listed c = some p := (h.mem c).trans listed_eq_some.symm

/-- The changes of a node. -/
def lastDots (r : Rows) (n : NodeId) : Set (ReplicaId × ℕ) := (r.row n).lastChange.dots

/-- The changes of a node and of all below it. -/
def subtreeDots (r : Rows) (n : NodeId) : Set (ReplicaId × ℕ) :=
  {d | ∃ m, Above r.listed m n ∧ d ∈ r.lastDots m}

/-- The deletes of a node were aware of every change of its subtree. -/
def Tombstoned (r : Rows) (n : NodeId) : Prop :=
  ∃ vv, (r.row n).deletedAt = some vv ∧ r.subtreeDots n ⊆ vv.dots

/-- The version vectors of all rows are in the form that merges leave. -/
structure Normal (r : Rows) : Prop where
  last : ∀ n, (r.row n).lastChange.Normal
  deleted : ∀ n vv, (r.row n).deletedAt = some vv → vv.Normal

/-- The subtree of a node is the node and the subtrees of its children. -/
theorem mem_subtreeDots {r : Rows} {n : NodeId} {d : ReplicaId × ℕ} :
    d ∈ r.subtreeDots n ↔
      d ∈ r.lastDots n ∨ ∃ c, r.listed c = some n ∧ d ∈ r.subtreeDots c := by
  constructor
  · rintro ⟨m, hm, hd⟩
    rcases Relation.ReflTransGen.cases_tail hm with rfl | ⟨c, hmc, hc⟩
    · exact Or.inl hd
    · exact Or.inr ⟨c, hc, m, hmc, hd⟩
  · rintro (hd | ⟨c, hc, m, hm, hd⟩)
    · exact ⟨n, Relation.ReflTransGen.refl, hd⟩
    · exact ⟨m, Relation.ReflTransGen.tail hm hc, hd⟩

theorem lastDots_blank {r : Rows} {n : NodeId} (h : r.row n = .blank n) : r.lastDots n = ∅ := by
  rw [lastDots, h]
  exact VersionVector.dots_new

end Rows

variable {N : Type} [NodeStore N] [LawfulNodeStore N]

/-- The recursion needs no more depth than there are nodes below. -/
theorem subtreeVersionVectorAt_runs {r : Rows} (hr : Acyclic r.listed) (hn : r.Normal)
    (f : NodeId → Bool) :
    ∀ depth n, height r.listed n < depth →
      Runs LawfulNodeStore.Models (r, f)
        (subtreeVersionVectorAt depth n : Exec Error N VersionVector)
        (fun vv => vv.Normal ∧ vv.dots = r.subtreeDots n) (r, f) := by
  intro depth
  induction depth with
  | zero => intro n h; omega
  | succ depth ih =>
    intro n hdepth
    unfold subtreeVersionVectorAt
    refine (LawfulNodeStore.nodeExists r f n).bind fun b hb => ?_
    cases b with
    | false =>
      obtain ⟨hblank, hnone⟩ := hb.2 rfl
      refine Runs.pure ⟨VersionVector.Normal.new, ?_⟩
      ext d
      rw [Rows.mem_subtreeDots, Rows.lastDots_blank hblank, VersionVector.dots_new]
      simp [Rows.listed_eq_some, hnone]
    | true =>
      have hsome := hb.1 rfl
      simp only [Bool.not_true, Bool.false_eq_true, if_false]
      refine (LawfulNodeStore.lastChange r f n hsome).bind fun vv hvv => ?_
      refine (LawfulNodeStore.children r f n hsome).bind fun children hc => ?_
      have hloop := Runs.foldlM (R := LawfulNodeStore.Models) (a := (r, f))
        (f := fun vv child => do
          return vv.merge (← (subtreeVersionVectorAt depth child : Exec Error N VersionVector)))
        (I := fun rest vv => vv.Normal ∧ (∀ c ∈ rest, r.listed c = some n) ∧
          ∀ d, d ∈ r.subtreeDots n ↔ d ∈ vv.dots ∨ ∃ c ∈ rest, d ∈ r.subtreeDots c)
        ?_ (l := children) (b := vv) ?_
      · exact hloop.imp fun vv h => ⟨h.1, Set.ext fun d => by rw [h.2.2]; simp⟩
      · rintro child rest vv ⟨hnv, hlist, hdots⟩
        have hchild := hlist child (by simp)
        have hlt := hr.height_lt hchild
        refine (ih child (by omega)).bind fun cv hcv => Runs.pure ?_
        refine ⟨hnv.merge cv, fun c hc => hlist c (List.mem_cons_of_mem _ hc), fun d => ?_⟩
        rw [hdots, VersionVector.dots_merge hnv, hcv.2]
        simp [or_assoc]
      · subst hvv
        refine ⟨hn.last n, fun c hcm => hc.mem_listed.mp hcm, fun d => ?_⟩
        rw [Rows.mem_subtreeDots]
        simp only [hc.mem_listed]
        rfl

theorem subtreeVersionVector_runs {r : Rows} (hr : Acyclic r.listed) (hn : r.Normal)
    (f : NodeId → Bool) (n : NodeId) :
    Runs LawfulNodeStore.Models (r, f)
      (NodeStore.subtreeVersionVector n : Exec Error N VersionVector)
      (fun vv => vv.Normal ∧ vv.dots = r.subtreeDots n) (r, f) := by
  refine subtreeVersionVectorAt_runs hr hn f walkLimit n ?_
  have := hr.height_lt_card n
  rw [walkLimit_eq]
  omega

/-- `is_tombstoned` returns, and decides `Tombstoned`. -/
theorem isTombstoned_runs {r : Rows} (hr : Acyclic r.listed) (hn : r.Normal) (f : NodeId → Bool)
    (n : NodeId) :
    Runs LawfulNodeStore.Models (r, f) (TreeCrdt.isTombstoned n : Exec Error N Bool)
      (fun b => b = true ↔ r.Tombstoned n) (r, f) := by
  unfold TreeCrdt.isTombstoned
  refine (LawfulNodeStore.nodeExists r f n).bind fun b hb => ?_
  cases b with
  | false =>
    refine Runs.pure ?_
    simp only [Bool.false_eq_true, Rows.Tombstoned, (hb.2 rfl).1, Row.blank, reduceCtorEq,
      false_and, exists_false]
  | true =>
    simp only [Bool.not_true, Bool.false_eq_true, if_false]
    refine (LawfulNodeStore.deletedAt r f n (hb.1 rfl)).bind fun deleted hdel => ?_
    rcases deleted with _ | vv
    · exact Runs.pure (by simp [Rows.Tombstoned, ← hdel])
    · refine (subtreeVersionVector_runs hr hn f n).bind fun sub hsub => Runs.pure ?_
      rw [VersionVector.isAwareOf_iff (hn.deleted n vv hdel.symm) hsub.1, hsub.2,
        Rows.Tombstoned, ← hdel]
      simp

end Treecrdt
