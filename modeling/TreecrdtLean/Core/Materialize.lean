import TreecrdtLean.Core.Tree

/-!
# Materialization with an index (`tree.rs`, `materialization.rs`)

An adapter keeps the derived state of a tree in its own tables, with an index of the operations that
matter for `children(parent)`. Operations in order are applied on top of what is there
(`applyIncrementalOpsWithDelta`), a replay makes everything anew
(`replayFromStorageWithMaterialization`), and a local operation is committed first and indexed after
(`finalizeLocalWithPlan`).
-/

namespace Treecrdt

open Exec

/-- `saturating_add(1)`. -/
def saturatingSucc (n : UInt64) : UInt64 := if n + 1 = 0 then n else n + 1

/-- `saturating_sub(1)`. -/
def saturatingPred (n : UInt64) : UInt64 := if n = 0 then 0 else n - 1

/-- The parent that an operation gives its node. -/
def OperationKind.parentAfter : OperationKind → Option NodeId
  | .insert parent _ _ _ => some parent
  | .move _ newParent _ => some newParent
  | _ => none

/-- Where a local operation puts its node (`LocalPlacement`). -/
inductive LocalPlacement where
  | first
  | last
  | after (node : NodeId)
  deriving DecidableEq

/-- What is left to index behind a local operation. -/
structure LocalFinalizePlan where
  parentHints : List NodeId
  extraIndexRecords : List (NodeId × OperationId)
  deriving DecidableEq

/-- What an adapter keeps about its derived state (`MaterializationCursor`). -/
structure TreeMeta where
  dirty : Bool
  headLamport : Lamport
  headReplica : Bytes
  headCounter : UInt64
  headSeq : UInt64
  deriving DecidableEq

structure MaterializationHead where
  lamport : Lamport
  replica : Bytes
  counter : UInt64
  seq : UInt64
  deriving DecidableEq

namespace TreeCrdt

section

variable {S C N P I : Type} {α : Type}

/-- A method of the tree, run next to the index. -/
def onTree (c : Exec Error (TreeCrdt S C N P) α) : Exec Error (TreeCrdt S C N P × I) α :=
  zoom Prod.fst (fun t s => (t, s.2)) c

/-- A method of the index, run next to the tree. -/
def onIndex (c : Exec Error I α) : Exec Error (TreeCrdt S C N P × I) α :=
  zoom Prod.snd (fun i s => (s.1, i)) c

end

variable {S C N P I : Type} [Storage S] [Clock C] [NodeStore N] [PayloadStore P] [ParentOpIndex I]

/-! ## Reads of the tree -/

def payloadLastWriter (node : NodeId) :
    Exec Error (TreeCrdt S C N P) (Option (Lamport × OperationId)) :=
  onPayloads (PayloadStore.lastWriter node)

def parent (node : NodeId) : Exec Error N (Option NodeId) := do
  if !(← NodeStore.nodeExists node) then
    return none
  if ← isTombstoned node then
    return some NodeId.TRASH
  return (← NodeStore.parent node).filter (· ≠ NodeId.TRASH)

/-! ## Records of the index -/

/-- The parents that are not `TRASH`. -/
def recordParents (parents : List NodeId) (id : OperationId) (seq : UInt64) : Exec Error I Unit :=
  forEach (fun parent => ParentOpIndex.record parent id seq)
    (parents.filter (· ≠ NodeId.TRASH))

/-- The last writer of a payload, under the parent of its node. -/
def recordPayloadWriter (parent node : NodeId) (seq : UInt64) :
    Exec Error (TreeCrdt S C N P × I) Unit := do
  match ← onTree (payloadLastWriter node) with
  | some (_, id) => onIndex (ParentOpIndex.record parent id seq)
  | none => return

/-! ## Remote operations -/

def applyRemoteWithMaterialization (op : Operation) (seq : UInt64) :
    Exec Error (TreeCrdt S C N P × I) (Option ApplyDelta) := do
  let some delta ← onTree (applyRemoteWithDelta op) | return none
  let parents := affectedParents delta.snapshot.parent op.kind
  onIndex (recordParents parents op.metadata.id seq)
  -- A payload stays discoverable under the current parent of its node.
  match op.kind.parentAfter with
  | some parentAfter =>
    if parentAfter ≠ NodeId.TRASH ∧ delta.snapshot.parent ≠ some parentAfter then
      recordPayloadWriter parentAfter op.kind.node seq
  | none => pure ()
  let changed ← onTree (onNodes (refreshTombstonesUpwardWithDelta (parents ++ [op.kind.node])))
  return some { delta with
    affectedNodes := sortedNodeIds (delta.affectedNodes ++ changed.filter (· ≠ NodeId.TRASH)) }

/-- `seq` moves on when the operation is accepted. -/
def applyRemoteWithMaterializationSeq (op : Operation) (seq : UInt64) :
    Exec Error (TreeCrdt S C N P × I) (Option ApplyDelta × UInt64) := do
  let seq := saturatingSucc seq
  let applied ← applyRemoteWithMaterialization op seq
  return (applied, if applied.isNone then saturatingPred seq else seq)

/-- The loop of `apply_incremental_ops_with_delta`; `affected` are the nodes so far. -/
def applyEach : List Operation → UInt64 → List NodeId →
    Exec Error (TreeCrdt S C N P × I) (UInt64 × List NodeId)
  | [], seq, affected => return (seq, affected)
  | op :: ops, seq, affected => do
    let (delta, seq) ← applyRemoteWithMaterializationSeq op seq
    applyEach ops seq (affected ++ (delta.map (·.affectedNodes)).getD [])

/-- Is the operation older than the materialized head? -/
def behindHead (cursor : TreeMeta) (op : Operation) : Bool :=
  cmpOpKey op.metadata.lamport op.metadata.id.replica.bytes op.metadata.id.counter
    cursor.headLamport cursor.headReplica cursor.headCounter = .lt

def applyIncrementalOpsWithDelta (cursor : TreeMeta) (ops : List Operation) :
    Exec Error (TreeCrdt S C N P × I) (Option MaterializationHead × List NodeId) := do
  if ops.isEmpty then return (none, [])
  else if cursor.dirty then throw (.storage "materialize called while dirty")
  else if (sortOps ops).head?.any (behindHead cursor) then
    throw (.storage "out-of-order op before materialized head")
  else
    let (seq, affected) ← applyEach (sortOps ops) cursor.headSeq []
    let some last ← onTree (gets fun t => t.head)
      | throw (.storage "expected head op after materialization")
    return (some ⟨last.metadata.lamport, last.metadata.id.replica.bytes, last.metadata.id.counter,
      seq⟩, sortedNodeIds affected)

/-! ## Replay -/

/-- The recursion of `refresh_all_tombstones`: the version vector of a subtree, with the subtrees
that are known by now. -/
def subtreeVvAt : ℕ → List NodeId → List (NodeId × VersionVector) → NodeId →
    Exec Error N (VersionVector × List (NodeId × VersionVector))
  | 0, _, _, _ => diverge
  | depth + 1, visiting, cache, node =>
    match cache.find? fun e => e.1 = node with
    | some (_, vv) => return (vv, cache)
    | none => do
      if node ∈ visiting then
        throw (.inconsistentState "cycle detected while computing subtree version vector")
      let vv ← NodeStore.lastChange node
      let children ← NodeStore.children node
      let (vv, cache) ← children.foldlM (fun acc child => do
        let (childVv, cache) ← subtreeVvAt depth (node :: visiting) acc.2 child
        return (acc.1.merge childVv, cache)) (vv, cache)
      return (vv, (node, vv) :: cache)

/-- The flags of the deleted nodes. -/
def tombstoneUpdates : List NodeId → List (NodeId × VersionVector) →
    Exec Error N (List (NodeId × Bool))
  | [], _ => return []
  | node :: nodes, cache => do
    if node.special then
      return ← tombstoneUpdates nodes cache
    let some deletedVv ← NodeStore.deletedAt node | tombstoneUpdates nodes cache
    let (subtree, cache) ← subtreeVvAt walkLimit [] cache node
    return (node, deletedVv.isAwareOf subtree) :: (← tombstoneUpdates nodes cache)

def refreshAllTombstones : Exec Error N Unit := do
  let nodes ← NodeStore.allNodes
  let updates ← tombstoneUpdates nodes []
  forEach (fun e => NodeStore.setTombstone e.1 e.2) updates

/-- The visitor of the replay: `replayRows` with the records of the index. -/
def indexRows : List (Except Error Operation) → Option Operation → UInt64 →
    Exec Error (TreeCrdt S C N P × I) (Option Operation × UInt64)
  | [], head, seq => return (head, seq)
  | .error e :: _, _, _ => throw e
  | .ok op :: rows, _, seq => do
    onTree (modify (observed op))
    let snap ← onTree (onStores (applyForward op))
    onIndex (recordParents (affectedParents snap.parent op.kind) op.metadata.id (seq + 1))
    indexRows rows (some op) (seq + 1)

/-- The payload of a node, under its current parent. -/
def indexPayload (seq : UInt64) (node : NodeId) : Exec Error (TreeCrdt S C N P × I) Unit := do
  if node.special then
    return
  let some parent ← onTree (onNodes (NodeStore.parent node)) | return
  if parent = NodeId.TRASH then
    return
  recordPayloadWriter parent node seq

def replayFromStorageWithMaterialization : Exec Error (TreeCrdt S C N P × I) Unit := do
  onIndex ParentOpIndex.reset
  onTree (modify fun t => { t with versionVector := .new })
  onTree (onNodes NodeStore.reset)
  onTree (onPayloads PayloadStore.reset)
  onTree (modify fun t => { t with head := none, opCount := 0 })
  let rows ← onTree (gets fun t => Storage.scanSince t.storage 0)
  let (head, seq) ← indexRows rows none 0
  onTree (modify fun t => { t with head, opCount := seq })
  onTree (modify fun t => { t with counter := max t.counter (t.versionVector.get t.replicaId) })
  onTree (onNodes refreshAllTombstones)
  let nodes ← onTree (onNodes NodeStore.allNodes)
  forEach (indexPayload (max seq 1)) nodes

/-! ## Local operations -/

def finalizeLocalMaterialization (op : Operation) (seq : UInt64) (parentHints : List NodeId)
    (extraIndexRecords : List (NodeId × OperationId)) :
    Exec Error (TreeCrdt S C N P × I) Unit := do
  onTree (onNodes (refreshTombstonesUpward (parentHints ++ [op.kind.node])))
  onIndex (recordParents parentHints.eraseDups op.metadata.id seq)
  onIndex (forEach (fun e => ParentOpIndex.record e.1 e.2 seq)
    (extraIndexRecords.filter fun e => e.1 ≠ NodeId.TRASH))

def finalizeLocalWithPlan (op : Operation) (headSeq : UInt64) (plan : LocalFinalizePlan) :
    Exec Error (TreeCrdt S C N P × I) UInt64 := do
  let seq := saturatingSucc headSeq
  finalizeLocalMaterialization op seq plan.parentHints plan.extraIndexRecords
  return seq

def resolveAfterForPlacement (parent : NodeId) (placement : LocalPlacement)
    (exclude : Option NodeId) : Exec Error N (Option NodeId) :=
  match placement with
  | .first => return none
  | .after node =>
    if exclude = some node then throw (.invalidOperation "after cannot be excluded node")
    else return some node
  | .last => do
    let children ← children parent
    return (children.filter fun child => exclude ≠ some child).getLast?

def localInsertWithPlan (parent node : NodeId) (placement : LocalPlacement)
    (payload : Option Bytes) : Exec Error (TreeCrdt S C N P) (Operation × LocalFinalizePlan) := do
  let after ← onNodes (resolveAfterForPlacement parent placement none)
  let op ← match payload with
    | some payload => localInsertAfterWithPayload parent node after payload
    | none => localInsertAfter parent node after
  return (op, ⟨[parent], []⟩)

def localMoveWithPlan (node newParent : NodeId) (placement : LocalPlacement) :
    Exec Error (TreeCrdt S C N P) (Operation × LocalFinalizePlan) := do
  let oldParent ← onNodes (parent node)
  let after ← onNodes (resolveAfterForPlacement newParent placement (some node))
  let op ← localMoveAfter node newParent after
  let parentHints := newParent :: oldParent.toList
  if oldParent ≠ some newParent ∧ newParent ≠ NodeId.TRASH then
    match ← payloadLastWriter node with
    | some (_, payloadId) => return (op, ⟨parentHints, [(newParent, payloadId)]⟩)
    | none => return (op, ⟨parentHints, []⟩)
  return (op, ⟨parentHints, []⟩)

def localDeleteWithPlan (node : NodeId) :
    Exec Error (TreeCrdt S C N P) (Operation × LocalFinalizePlan) := do
  let oldParent ← onNodes (parent node)
  let op ← localDelete node
  return (op, ⟨oldParent.toList, []⟩)

def localPayloadWithPlan (node : NodeId) (payload : Option Bytes) :
    Exec Error (TreeCrdt S C N P) (Operation × LocalFinalizePlan) := do
  let parent ← onNodes (parent node)
  let op ← match payload with
    | some payload => localSetPayload node payload
    | none => localClearPayload node
  return (op, ⟨parent.toList, []⟩)

end TreeCrdt

end Treecrdt
