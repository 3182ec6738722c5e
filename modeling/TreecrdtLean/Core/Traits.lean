import TreecrdtLean.Lib.Exec
import TreecrdtLean.Core.Ops

/-!
# The traits (`traits.rs`)

The seams between the core and a backend: the clock, the operation log, the node store and the
payload store. A method that the trait takes by `&self` may still write (a backend that caches what
it reads), so the methods of the two stores are all `Exec`.

A walk or a recursion over node ids that goes deeper than there are ids has met one of them twice
and never ends; `walkLimit` is its fuel.
-/

namespace Treecrdt

/-- More steps than there are node ids. -/
def walkLimit : ℕ := 2 ^ 128 + 1

class Clock (C : Type) where
  tick : C → Lamport × C
  observe : Lamport → C → C
  now : C → Lamport

/-- Persistent or in-memory operation log. -/
class Storage (S : Type) where
  /-- `true` if the op was inserted, `false` if it was already present. -/
  apply : Operation → Exec Error S Bool
  loadSince : S → Lamport → Except Error (List Operation)
  latestLamport : S → Lamport
  /-- The maximum counter observed for a replica, or 0 if absent. -/
  latestCounter : S → ReplicaId → Except Error UInt64 := fun s replica => do
    let ops ← loadSince s 0
    return ((ops.filter fun op => op.metadata.id.replica = replica).map
      fun op => op.metadata.id.counter).foldl max 0
  /-- The rows that a visitor meets, in canonical order, up to the first error. -/
  scanSince : S → Lamport → List (Except Error Operation) := fun s lamport =>
    match loadSince s lamport with
    | .ok ops => (sortOps ops).map .ok
    | .error e => [.error e]

/-- Storage for materialized node state. -/
class NodeStore (N : Type) where
  reset : Exec Error N Unit
  ensureNode : NodeId → Exec Error N Unit
  nodeExists : NodeId → Exec Error N Bool
  parent : NodeId → Exec Error N (Option NodeId)
  orderKey : NodeId → Exec Error N (Option Bytes)
  children : NodeId → Exec Error N (List NodeId)
  detach : NodeId → Exec Error N Unit
  attach : NodeId → NodeId → Bytes → Exec Error N Unit
  tombstone : NodeId → Exec Error N Bool
  setTombstone : NodeId → Bool → Exec Error N Unit
  lastChange : NodeId → Exec Error N VersionVector
  mergeLastChange : NodeId → VersionVector → Exec Error N Unit
  deletedAt : NodeId → Exec Error N (Option VersionVector)
  mergeDeletedAt : NodeId → VersionVector → Exec Error N Unit
  hasDeletedAt : NodeId → Exec Error N Bool := fun node => do
    return (← deletedAt node).isSome
  parentAndHasDeletedAt : NodeId → Exec Error N (Option (Option NodeId × Bool)) := fun node => do
    if !(← nodeExists node) then
      return none
    return some (← parent node, ← hasDeletedAt node)
  allNodes : Exec Error N (List NodeId)

/-- The recursion of `NodeStore::subtree_version_vector`. -/
def subtreeVersionVectorAt {N : Type} [NodeStore N] : ℕ → NodeId → Exec Error N VersionVector
  | 0, _ => Exec.diverge
  | depth + 1, node => do
    if !(← NodeStore.nodeExists node) then
      return .new
    let subtreeVv ← NodeStore.lastChange node
    let children ← NodeStore.children node
    children.foldlM (fun vv child => return vv.merge (← subtreeVersionVectorAt depth child))
      subtreeVv

def NodeStore.subtreeVersionVector {N : Type} [NodeStore N] (node : NodeId) :
    Exec Error N VersionVector :=
  subtreeVersionVectorAt walkLimit node

/-- Storage for last-writer-wins node payloads. -/
class PayloadStore (P : Type) where
  reset : Exec Error P Unit
  payload : NodeId → Exec Error P (Option Bytes)
  lastWriter : NodeId → Exec Error P (Option (Lamport × OperationId))
  setPayload : NodeId → Option Bytes → Lamport × OperationId → Exec Error P Unit

/-- Persistent index of operations relevant to a `children(parent)` filter. -/
class ParentOpIndex (I : Type) where
  reset : Exec Error I Unit
  record : NodeId → OperationId → UInt64 → Exec Error I Unit

/-- Basic Lamport clock; `counter += 1` wraps, as in a release build. -/
structure LamportClock where
  counter : Lamport := 0
  deriving DecidableEq

instance : Clock LamportClock where
  tick c := (c.counter + 1, ⟨c.counter + 1⟩)
  observe external c := ⟨max c.counter external⟩
  now c := c.counter

end Treecrdt
