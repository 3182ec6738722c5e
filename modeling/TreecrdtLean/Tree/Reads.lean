import TreecrdtLean.Spec.Alike
import TreecrdtLean.Tree.Affected

/-!
# The reads of a tree (`tree.rs`)

`isKnown`, `payload` and `nodes` next to `children`, `parent` and `isTombstoned`.
-/

namespace Treecrdt

open Exec Forest

namespace TreeCrdt

section

variable {N P : Type} [NodeStore N] [PayloadStore P]

def isKnown (node : NodeId) : Exec Error N Bool := NodeStore.nodeExists node

def payload (node : NodeId) : Exec Error P (Option Bytes) := PayloadStore.payload node

/-- The loop of `nodes`. -/
def nodePairs (nodes : List NodeId) : Exec Error N (List (NodeId × Option NodeId)) :=
  nodes.foldlM (fun pairs id => do
    if id.special then
      return pairs
    if ← isTombstoned id then
      return pairs
    return pairs ++ [(id, ← NodeStore.parent id)]) []

/-- `nodes`, which is the store in the structure. -/
def listNodes : Exec Error N (List (NodeId × Option NodeId)) := do
  return (← nodePairs (← NodeStore.allNodes)).mergeSort fun a b => a.1 ≤ b.1

end

variable {N : Type} [NodeStore N] [LawfulNodeStore N] {r : Rows}

open Classical in
/-- Of the nodes, those that are neither special nor tombstoned. -/
theorem nodePairs_runs (hr : Acyclic r.listed) (hn : r.Normal) (f : NodeId → Bool)
    (nodes : List NodeId) :
    Runs LawfulNodeStore.Models (r, f) (nodePairs nodes : Exec Error N _)
      (fun pairs => pairs.map Prod.fst = nodes.filter fun n => ¬ n.special ∧ ¬ r.Tombstoned n)
      (r, f) := by
  have hloop := Runs.foldlM (R := LawfulNodeStore.Models) (a := (r, f))
    (f := fun (pairs : List (NodeId × Option NodeId)) id => do
      if id.special then
        return pairs
      if ← (isTombstoned id : Exec Error N _) then
        return pairs
      return pairs ++ [(id, ← NodeStore.parent id)])
    (I := fun rest pairs => nodes.filter (fun n => ¬ n.special ∧ ¬ r.Tombstoned n) =
      pairs.map Prod.fst ++ rest.filter fun n => ¬ n.special ∧ ¬ r.Tombstoned n)
    ?_ (l := nodes) (b := []) rfl
  · exact hloop.imp fun pairs hpairs => by simpa using hpairs.symm
  · intro id rest pairs hpairs
    by_cases hspecial : id.special
    · rw [if_pos hspecial]
      refine Runs.pure ?_
      rw [hpairs, List.filter_cons_of_neg (by simp [hspecial])]
    · rw [if_neg hspecial]
      refine (isTombstoned_runs hr hn f id).bind fun b hb => ?_
      cases b with
      | true =>
        refine Runs.pure ?_
        rw [hpairs, List.filter_cons_of_neg (by simp [hb.mp rfl])]
      | false =>
        have hlive : ¬ r.Tombstoned id := fun h => by cases hb.mpr h
        refine (LawfulNodeStore.parent r f id).bind fun p _ => Runs.pure ?_
        rw [hpairs, List.filter_cons_of_pos (by simp [hspecial, hlive])]
        simp

open Classical in
/-- `nodes` has one pair for each node that is neither special nor tombstoned. -/
theorem listNodes_runs (hr : Acyclic r.listed) (hn : r.Normal) (f : NodeId → Bool)
    (hall : Runs LawfulNodeStore.Models (r, f) (NodeStore.allNodes : Exec Error N _)
      (fun nodes => nodes.Nodup ∧ ∀ n, n ∈ nodes ↔ (r n).isSome) (r, f)) :
    Runs LawfulNodeStore.Models (r, f) (listNodes : Exec Error N _)
      (fun pairs => (pairs.map Prod.fst).Nodup ∧
        ∀ n, n ∈ pairs.map Prod.fst ↔ (r n).isSome ∧ ¬ n.special ∧ ¬ r.Tombstoned n) (r, f) := by
  refine hall.bind fun nodes hnodes => (nodePairs_runs hr hn f nodes).bind fun pairs hpairs =>
    Runs.pure ?_
  have hperm := (List.mergeSort_perm pairs fun a b => decide (a.1 ≤ b.1)).map Prod.fst
  refine ⟨hperm.nodup_iff.mpr (hpairs ▸ hnodes.1.filter _), fun n => ?_⟩
  rw [hperm.mem_iff, hpairs, List.mem_filter, hnodes.2]
  simp

end TreeCrdt

/-! ## Documents that match -/

namespace Doc

variable {d d' : Doc}

theorem Matches.shaped (h : d.Matches d') (hd : d'.Shaped) : d.Shaped where
  normal := h.rows.normal
  acyclic := by
    rw [Rows.up_congr h.rows.parent]
    exact hd.acyclic
  top n hn := (congrFun h.rows.parent n).trans (hd.top n hn)
  undeleted n hn := by
    have hdeleted := (h.rows.row (n := n)).deleted
    rw [hd.undeleted n hn] at hdeleted
    generalize (d.rows.row n).deletedAt = x at hdeleted
    cases hdeleted
    rfl

end Doc

theorem MemoryNodeStore.allNodes_nodup (r : Rows) (f : NodeId → Bool) :
    Runs MemoryNodeStore.Models (r, f) (NodeStore.allNodes : Exec Error MemoryNodeStore _)
      (fun nodes => nodes.Nodup ∧ ∀ n, n ∈ nodes ↔ (r n).isSome) (r, f) := by
  refine Runs.gets fun s => ?_
  rintro ⟨rfl, -, -⟩
  refine ⟨s.nodes.keys_nodup, fun n => ?_⟩
  rw [MemoryNodeStore.view, Option.isSome_map, AList.lookup_isSome, AList.mem_keys]

end Treecrdt
