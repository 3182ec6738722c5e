import TreecrdtLean.Core.Traits

/-!
# The in-memory stores (`traits.rs`)

`MemoryStorage` is the log with the set of its ids, `NoopStorage` no log at all,
`MemoryPayloadStore` a map of payloads, `RecordingIndex` (`tests/materialization_helpers.rs`) a list
of records, and `MemoryNodeStore` a map of node states that keeps the children of every node but
`TRASH` in order.
-/

namespace Treecrdt

open Exec

/-- Vector-backed storage; `ids` is the set of the ids stored. -/
structure MemoryStorage where
  ops : List Operation := []
  ids : List OperationId := []
  deriving DecidableEq

instance : Storage MemoryStorage where
  apply op := fun s =>
    if op.metadata.id ∈ s.ids then some (.ok false, s)
    else some (.ok true, { ops := s.ops ++ [op], ids := op.metadata.id :: s.ids })
  loadSince s lamport := .ok (s.ops.filter fun op => op.metadata.lamport > lamport)
  latestLamport s := (s.ops.map fun op => op.metadata.lamport).foldl max 0
  latestCounter s replica := .ok <|
    ((s.ops.filter fun op => op.metadata.id.replica = replica).map
      fun op => op.metadata.id.counter).foldl max 0

/-- Storage that accepts everything and has nothing, for adapters that append on their own. -/
structure NoopStorage where
  deriving DecidableEq

instance : Storage NoopStorage where
  apply _ := return true
  loadSince _ _ := .ok []
  latestLamport _ := 0

/-- An index that keeps every record. -/
structure RecordingIndex where
  records : List (NodeId × OperationId × UInt64) := []
  deriving DecidableEq

instance : ParentOpIndex RecordingIndex where
  reset := modify fun _ => {}
  record parent id seq := modify fun i => { records := i.records ++ [(parent, id, seq)] }

structure MemoryPayloadEntry where
  payload : Option Bytes := none
  lastWriter : Option (Lamport × OperationId) := none
  deriving DecidableEq

structure MemoryPayloadStore where
  entries : AList fun _ : NodeId => MemoryPayloadEntry := ∅
  deriving DecidableEq

instance : PayloadStore MemoryPayloadStore where
  reset := modify fun _ => { entries := ∅ }
  payload node := gets fun s => (s.entries.lookup node).bind (·.payload)
  lastWriter node := gets fun s => (s.entries.lookup node).bind (·.lastWriter)
  setPayload node payload writer := modify fun s =>
    { entries := s.entries.insert node { payload, lastWriter := some writer } }

structure MemoryNodeState where
  parent : Option NodeId
  orderKey : Option Bytes
  children : List NodeId
  tombstone : Bool
  lastChange : VersionVector
  deletedAt : Option VersionVector
  deriving DecidableEq

namespace MemoryNodeState

def newRoot : MemoryNodeState :=
  { parent := none, orderKey := some [], children := [], tombstone := false
    lastChange := .new, deletedAt := none }

def new : MemoryNodeState :=
  { parent := none, orderKey := none, children := [], tombstone := false
    lastChange := .new, deletedAt := none }

end MemoryNodeState

/-- In-memory `NodeStore` used by default. -/
structure MemoryNodeStore where
  nodes : AList fun _ : NodeId => MemoryNodeState
  deriving DecidableEq

namespace MemoryNodeStore

def default : MemoryNodeStore := ⟨AList.singleton NodeId.ROOT .newRoot⟩

def missing (node : NodeId) : Error :=
  .inconsistentState ("node " ++ toString node.toNat ++ " missing from store")

def getState (node : NodeId) : Exec Error MemoryNodeStore MemoryNodeState :=
  getsE fun s =>
    match s.nodes.lookup node with
    | some st => .ok st
    | none => .error (missing node)

/-- `get_state_mut`, updated by `f`. -/
def updateState (node : NodeId) (f : MemoryNodeState → MemoryNodeState) :
    Exec Error MemoryNodeStore Unit := fun s =>
  match s.nodes.lookup node with
  | some st => some (.ok (), ⟨s.nodes.insert node (f st)⟩)
  | none => some (.error (missing node), s)

/-- `entry(node).or_insert_with(…)`. -/
def ensureNode (node : NodeId) : Exec Error MemoryNodeStore Unit := modify fun s =>
  match s.nodes.lookup node with
  | some _ => s
  | none => ⟨s.nodes.insert node
      (if node = NodeId.ROOT then MemoryNodeState.newRoot else MemoryNodeState.new)⟩

def parent (s : MemoryNodeStore) (node : NodeId) : Option NodeId :=
  (s.nodes.lookup node).bind (·.parent)

def orderKey (s : MemoryNodeStore) (node : NodeId) : Option Bytes :=
  (s.nodes.lookup node).bind (·.orderKey)

def detach (node : NodeId) : Exec Error MemoryNodeStore Unit := do
  let some parent ← gets fun s => s.parent node | return
  if parent ≠ NodeId.TRASH then
    modify fun s =>
      match s.nodes.lookup parent with
      | some st => ⟨s.nodes.insert parent { st with children := st.children.filter (· ≠ node) }⟩
      | none => s
  updateState node fun st => { st with parent := none }
  updateState node fun st => { st with orderKey := none }

/-- `child_key.cmp(order_key).then(child.cmp(node)) == Greater`. -/
def keyGreater (childKey : Bytes) (child : NodeId) (orderKey : Bytes) (node : NodeId) : Prop :=
  toLex (orderKey.nats, node) < toLex (childKey.nats, child)

instance (childKey : Bytes) (child : NodeId) (orderKey : Bytes) (node : NodeId) :
    Decidable (keyGreater childKey child orderKey node) :=
  inferInstanceAs (Decidable (toLex (orderKey.nats, node) < toLex (childKey.nats, child)))

/-- The position of a new child: before the first one that is greater. -/
def insertPosition (s : MemoryNodeStore) (existing : List NodeId) (orderKey : Bytes)
    (node : NodeId) : ℕ :=
  existing.findIdx fun child => keyGreater ((s.orderKey child).getD []) child orderKey node

def attach (node parent : NodeId) (orderKey : Bytes) : Exec Error MemoryNodeStore Unit := do
  ensureNode parent
  ensureNode node
  updateState node fun st => { st with parent := some parent }
  updateState node fun st => { st with orderKey := some orderKey }
  if parent = NodeId.TRASH then
    return
  let existing := (← getState parent).children
  let idx ← gets fun s => s.insertPosition existing orderKey node
  updateState parent fun st => { st with children := st.children.insertIdx idx node }

def mergeDeletedAt (node : NodeId) (delta : VersionVector) : Exec Error MemoryNodeStore Unit :=
  updateState node fun st => { st with
    deletedAt := match st.deletedAt with
      | some existing => some (existing.merge delta)
      | none => some delta }

instance : NodeStore MemoryNodeStore where
  reset := modify fun _ => default
  ensureNode := ensureNode
  nodeExists node := gets fun s => (s.nodes.lookup node).isSome
  parent node := gets fun s => s.parent node
  orderKey node := gets fun s => s.orderKey node
  children node := do return (← getState node).children
  detach := detach
  attach := attach
  tombstone node := do return (← getState node).tombstone
  setTombstone node tombstone := updateState node fun st => { st with tombstone }
  lastChange node := do return (← getState node).lastChange
  mergeLastChange node delta :=
    updateState node fun st => { st with lastChange := st.lastChange.merge delta }
  deletedAt node := do return (← getState node).deletedAt
  mergeDeletedAt := mergeDeletedAt
  allNodes := gets fun s => s.nodes.keys

end MemoryNodeStore

end Treecrdt
