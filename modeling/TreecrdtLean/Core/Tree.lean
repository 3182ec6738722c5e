import TreecrdtLean.Core.Memory
import TreecrdtLean.Core.OrderKey
import TreecrdtLean.Core.Apply

/-!
# The tree (`tree.rs`, `TreeCrdt`)

`TreeCrdt` wires the log, the clock and the two stores together. A remote operation that is newer
than `head` is applied on top; any other one replays the whole log. A local operation mints a
counter and a Lamport time, and commits through `commitLocal`.

`+` on the counters wraps, as in a release build.
-/

namespace Treecrdt

open Exec

/-- Generic Tree CRDT facade that wires clock and storage together. -/
structure TreeCrdt (S C N P : Type) where
  replicaId : ReplicaId
  storage : S
  clock : C
  counter : UInt64
  nodes : N
  versionVector : VersionVector
  payloads : P
  head : Option Operation
  opCount : UInt64

/-- The exact delta of an in-order apply. -/
structure ApplyDelta where
  snapshot : NodeSnapshot
  affectedNodes : List NodeId
  deriving DecidableEq

def sortedNodeIds (nodes : List NodeId) : List NodeId :=
  (nodes.insertionSort (· ≤ ·)).dedup

def affectedParents (snapshotParent : Option NodeId) (kind : OperationKind) : List NodeId :=
  sortedNodeIds <| snapshotParent.toList ++
    match kind with
    | .insert parent _ _ _ => [parent]
    | .move _ newParent _ => [newParent]
    | _ => []

def directAffectedNodes (snapshotParent : Option NodeId) (kind : OperationKind) : List NodeId :=
  let around := match kind with
    | .insert parent _ _ _ => snapshotParent.toList ++ [parent]
    | .move _ newParent _ => snapshotParent.toList ++ [newParent]
    | .delete _ => snapshotParent.toList
    | .tombstone _ => snapshotParent.toList
    | .payload _ _ => []
  sortedNodeIds ((kind.node :: around).filter (· ≠ NodeId.TRASH))

namespace TreeCrdt

section

variable {S C N P : Type} {α : Type}

def onStorage (c : Exec Error S α) : Exec Error (TreeCrdt S C N P) α :=
  zoom TreeCrdt.storage (fun s t => { t with storage := s }) c

def onNodes (c : Exec Error N α) : Exec Error (TreeCrdt S C N P) α :=
  zoom TreeCrdt.nodes (fun n t => { t with nodes := n }) c

def onPayloads (c : Exec Error P α) : Exec Error (TreeCrdt S C N P) α :=
  zoom TreeCrdt.payloads (fun p t => { t with payloads := p }) c

def onStores (c : Exec Error (N × P) α) : Exec Error (TreeCrdt S C N P) α :=
  zoom (fun t => (t.nodes, t.payloads)) (fun s t => { t with nodes := s.1, payloads := s.2 }) c

end

variable {S C N P : Type} [Storage S] [Clock C] [NodeStore N] [PayloadStore P]

def withStores (replicaId : ReplicaId) (storage : S) (clock : C) (nodes : N) (payloads : P) :
    Except Error (TreeCrdt S C N P) := do
  let counter ← Storage.latestCounter storage replicaId
  return { replicaId, storage, clock := Clock.observe (Storage.latestLamport storage) clock
           counter, nodes, versionVector := .new, payloads, head := none, opCount := 0 }

/-- `TreeCrdt::new`: a tree over the in-memory stores. -/
def new (replicaId : ReplicaId) (storage : S) (clock : C) :
    Except Error (TreeCrdt S C MemoryNodeStore MemoryPayloadStore) :=
  withStores replicaId storage clock MemoryNodeStore.default {}

def isInOrder (t : TreeCrdt S C N P) (op : Operation) : Bool :=
  match t.head with
  | none => true
  | some head => cmpOps op head = .gt

/-! ## Reads -/

def isTombstoned (node : NodeId) : Exec Error N Bool := do
  if !(← NodeStore.nodeExists node) then
    return false
  let some deletedVv ← NodeStore.deletedAt node | return false
  let subtreeVv ← NodeStore.subtreeVersionVector node
  return deletedVv.isAwareOf subtreeVv

def children (parent : NodeId) : Exec Error N (List NodeId) := do
  if !(← NodeStore.nodeExists parent) then
    return []
  let children ← NodeStore.children parent
  children.foldlM (fun filtered child => do
    return if ← isTombstoned child then filtered else filtered ++ [child]) []

/-! ## Replay -/

/-- The visitor of the replay over the rows of the log; `head` and `seq` are its locals. -/
def replayRows : List (Except Error Operation) → Option Operation → UInt64 →
    Exec Error (TreeCrdt S C N P) (Option Operation × UInt64)
  | [], head, seq => return (head, seq)
  | .error e :: _, _, _ => throw e
  | .ok op :: rows, _, seq => do
    modify fun t => { t with
      clock := Clock.observe op.metadata.lamport t.clock
      versionVector := t.versionVector.observe op.metadata.id.replica op.metadata.id.counter }
    let _ ← onStores (applyForward op)
    replayRows rows (some op) (seq + 1)

def replayFromStorage : Exec Error (TreeCrdt S C N P) Unit := do
  modify fun t => { t with versionVector := .new }
  onNodes NodeStore.reset
  onPayloads PayloadStore.reset
  modify fun t => { t with head := none, opCount := 0 }
  let rows ← gets fun t => Storage.scanSince t.storage 0
  let (head, seq) ← replayRows rows none 0
  modify fun t => { t with head, opCount := seq }
  modify fun t => { t with counter := max t.counter (t.versionVector.get t.replicaId) }

/-! ## Remote operations -/

/-- What every remote entry point does first. -/
def observed (op : Operation) (t : TreeCrdt S C N P) : TreeCrdt S C N P :=
  { t with
    clock := Clock.observe op.metadata.lamport t.clock
    versionVector := t.versionVector.observe op.metadata.id.replica op.metadata.id.counter }

def applyRemote (op : Operation) : Exec Error (TreeCrdt S C N P) Unit := do
  modify (observed op)
  if !(← onStorage (Storage.apply op)) then
    return
  if ← gets fun t => t.isInOrder op then
    let _ ← onStores (applyForward op)
    modify fun t => { t with opCount := t.opCount + 1, head := some op }
    return
  replayFromStorage

/-- The counter raised to an operation of our own. -/
def raised (op : Operation) (t : TreeCrdt S C N P) : TreeCrdt S C N P :=
  if op.metadata.id.replica = t.replicaId then
    { t with counter := max t.counter op.metadata.id.counter }
  else t

/-- Unlike `applyRemote`, this raises the counter when the operation is one of our own. -/
def applyRemoteWithDelta (op : Operation) :
    Exec Error (TreeCrdt S C N P) (Option ApplyDelta) := do
  modify (observed op)
  modify (raised op)
  if !(← onStorage (Storage.apply op)) then
    return none
  if ← gets fun t => t.isInOrder op then
    let snap ← onStores (applyForward op)
    modify fun t => { t with opCount := t.opCount + 1, head := some op }
    return some { snapshot := snap, affectedNodes := directAffectedNodes snap.parent op.kind }
  replayFromStorage
  return none

/-! ## Cached tombstones -/

/-- Bring the cached flag of a deleted node up to date: has it changed? -/
def refreshFlag (node : NodeId) : Exec Error N Bool := do
  let previous ← NodeStore.tombstone node
  let tombstoned ← isTombstoned node
  if previous = tombstoned then
    return false
  NodeStore.setTombstone node tombstoned
  return true

/-- The loop of `refresh_tombstones_upward_with_delta`; `stack` has its top first. -/
def refreshLoop : ℕ → List NodeId → List NodeId → List NodeId → Exec Error N (List NodeId)
  | _, [], _, changed => return sortedNodeIds changed
  | 0, _ :: _, _, _ => diverge
  | steps + 1, node :: stack, visited, changed =>
    if node.special then refreshLoop steps stack visited changed
    else if node ∈ visited then refreshLoop steps stack visited changed
    else do
      match ← NodeStore.parentAndHasDeletedAt node with
      | none => refreshLoop steps stack (node :: visited) changed
      | some (parent, hasDeletedAt) => do
        let nodeChanged ← (if hasDeletedAt then refreshFlag node else pure false)
        refreshLoop steps (parent.toList ++ stack) (node :: visited)
          (if nodeChanged then changed ++ [node] else changed)

/-- Refresh the cached flags on the upward closure of `starts`: every turn of the loop takes a node
off the stack, and pushes one only when it visits a node for the first time. -/
def refreshTombstonesUpwardWithDelta (starts : List NodeId) : Exec Error N (List NodeId) :=
  refreshLoop (starts.length + walkLimit) starts.reverse [] []

def refreshTombstonesUpward (starts : List NodeId) : Exec Error N Unit := do
  let _ ← refreshTombstonesUpwardWithDelta starts

/-! ## Local operations -/

def commitLocal (op : Operation) : Exec Error (TreeCrdt S C N P) Operation := do
  modify fun t => { t with
    versionVector := t.versionVector.observe t.replicaId op.metadata.id.counter }
  if !(← onStorage (Storage.apply op)) then
    return op
  let snap ← onStores (applyForward op)
  onNodes (refreshTombstonesUpward (affectedParents snap.parent op.kind ++ [op.kind.node]))
  modify fun t => { t with opCount := t.opCount + 1, head := some op }
  return op

def seed (replica : ReplicaId) (counter : UInt64) : Bytes :=
  replica.bytes ++ beBytes 8 counter.toNat

/-- The neighbours of a new child: `after` and the child behind it, or the first child. -/
def neighbourKeys (children : List NodeId) (after : Option NodeId) :
    Exec Error N (Option Bytes × Option Bytes) :=
  match after with
  | some after => do
    let some idx := children.findIdx? (· = after)
      | throw (.invalidOperation "after node is not a child of parent")
    let left ← NodeStore.orderKey after
    match children[idx + 1]? with
    | some next => return (left, ← NodeStore.orderKey next)
    | none => return (left, none)
  | none =>
    match children.head? with
    | some first => do return (none, ← NodeStore.orderKey first)
    | none => return (none, none)

def allocateChildKeyAfter (parent node : NodeId) (after : Option NodeId) (seed : Bytes) :
    Exec Error N Bytes := do
  if parent = NodeId.TRASH then
    return []
  let children := (← children parent).filter (· ≠ node)
  let (left, right) ← neighbourKeys children after
  getsE fun _ => OrderKey.allocateBetween left right seed

def nextCounter : Exec Error (TreeCrdt S C N P) UInt64 := do
  modify fun t => { t with counter := t.counter + 1 }
  gets fun t => t.counter

def tick : Exec Error (TreeCrdt S C N P) Lamport := do
  let lamport ← gets fun t => (Clock.tick t.clock).1
  modify fun t => { t with clock := (Clock.tick t.clock).2 }
  return lamport

/-- The frame of every local operation: mint an id, build the operation from it, commit. -/
def localOp (build : ReplicaId → UInt64 → Lamport → Exec Error N Operation) :
    Exec Error (TreeCrdt S C N P) Operation := do
  let replica ← gets fun t => t.replicaId
  let counter ← nextCounter
  let lamport ← tick
  let op ← onNodes (build replica counter lamport)
  commitLocal op

def localInsertAfter (parent node : NodeId) (after : Option NodeId) :
    Exec Error (TreeCrdt S C N P) Operation :=
  localOp fun replica counter lamport => do
    let orderKey ← allocateChildKeyAfter parent node after (seed replica counter)
    return .insert replica counter lamport parent node orderKey

def localInsertAfterWithPayload (parent node : NodeId) (after : Option NodeId)
    (payload : Bytes) : Exec Error (TreeCrdt S C N P) Operation :=
  localOp fun replica counter lamport => do
    let orderKey ← allocateChildKeyAfter parent node after (seed replica counter)
    return .insertWithPayload replica counter lamport parent node orderKey payload

def localMoveAfter (node newParent : NodeId) (after : Option NodeId) :
    Exec Error (TreeCrdt S C N P) Operation :=
  localOp fun replica counter lamport => do
    let orderKey ← allocateChildKeyAfter newParent node after (seed replica counter)
    return .moveNode replica counter lamport node newParent orderKey

def localDelete (node : NodeId) : Exec Error (TreeCrdt S C N P) Operation :=
  localOp fun replica counter lamport => do
    let knownState ← NodeStore.subtreeVersionVector node
    return .delete replica counter lamport node (some knownState)

def localSetPayload (node : NodeId) (payload : Bytes) :
    Exec Error (TreeCrdt S C N P) Operation :=
  localOp fun replica counter lamport =>
    return .setPayload replica counter lamport node payload

def localClearPayload (node : NodeId) : Exec Error (TreeCrdt S C N P) Operation :=
  localOp fun replica counter lamport =>
    return .clearPayload replica counter lamport node

end TreeCrdt

end Treecrdt
