import TreecrdtLean.Core.Traits

/-!
# Applying one operation (`tree.rs`, `apply_forward` and its helpers)

The helpers run on the node store and the payload store alone; `TreeCrdt` calls `applyForward` with
its own two. `introducesCycle` walks the parents of the target; the walk stops at `ROOT` and
`TRASH`, and never ends on a cycle that misses both and the operated node.
-/

namespace Treecrdt

open Exec

/-- The parent and key of the operated node before the operation. -/
structure NodeSnapshot where
  parent : Option NodeId
  orderKey : Option Bytes
  deriving DecidableEq

section

variable {N P : Type} [NodeStore N] [PayloadStore P]

/-- A method of the node store, run on the two stores. -/
def onNodeStore {α : Type} (c : Exec Error N α) : Exec Error (N × P) α :=
  zoom Prod.fst (fun n s => (n, s.2)) c

/-- A method of the payload store, run on the two stores. -/
def onPayloadStore {α : Type} (c : Exec Error P α) : Exec Error (N × P) α :=
  zoom Prod.snd (fun p s => (s.1, p)) c

def operationVersionVector (op : Operation) : VersionVector :=
  VersionVector.new.observe op.metadata.id.replica op.metadata.id.counter

def updateLastChange (op : Operation) (node : NodeId) : Exec Error N Unit := do
  NodeStore.mergeLastChange node (operationVersionVector op)
  match op.metadata.knownState with
  | some knownState => NodeStore.mergeLastChange node knownState
  | none => return

/-- The loop of `introduces_cycle`: does the walk up from `current` meet `node`? -/
def cycleWalk (node : NodeId) : ℕ → Option NodeId → Exec Error N Bool
  | _, none => return false
  | 0, some _ => diverge
  | steps + 1, some n => do
    if n = node then
      return true
    if n.special then
      return false
    cycleWalk node steps (← NodeStore.parent n)

def introducesCycle (node potentialParent : NodeId) : Exec Error N Bool := do
  if potentialParent.special then
    return false
  cycleWalk node walkLimit (some potentialParent)

def snapshot (op : Operation) : Exec Error N NodeSnapshot := do
  let nodeId := op.kind.node
  NodeStore.ensureNode nodeId
  let parent ← NodeStore.parent nodeId
  let orderKey ← NodeStore.orderKey nodeId
  return { parent, orderKey }

def applyInsert (op : Operation) (parent node : NodeId) (orderKey : Bytes) :
    Exec Error N Unit := do
  if parent = node then
    return
  if ← introducesCycle node parent then
    return
  NodeStore.ensureNode parent
  NodeStore.ensureNode node
  NodeStore.detach node
  NodeStore.attach node parent orderKey
  updateLastChange op node
  updateLastChange op parent

/-- The touches of `apply_move`: the node, and its old and new parent but for `TRASH`. -/
def touchMoved (op : Operation) (node newParent : NodeId) (oldParent : Option NodeId) :
    Exec Error N Unit := do
  updateLastChange op node
  match oldParent with
  | some oldP => if oldP ≠ NodeId.TRASH then updateLastChange op oldP
  | none => pure ()
  if newParent ≠ NodeId.TRASH then
    updateLastChange op newParent

def applyMove (op : Operation) (node newParent : NodeId) (orderKey : Bytes) :
    Exec Error N Unit := do
  if node = NodeId.ROOT then
    return
  NodeStore.ensureNode node
  NodeStore.ensureNode newParent
  if newParent ≠ NodeId.TRASH then
    if (← introducesCycle node newParent) || node = newParent then
      return
  let oldParent ← NodeStore.parent node
  NodeStore.detach node
  NodeStore.attach node newParent orderKey
  touchMoved op node newParent oldParent

/-- What a delete merges into `deleted_at`. -/
def deleteVersionVector (op : Operation) : VersionVector :=
  match op.metadata.knownState with
  | some knownState => (operationVersionVector op).merge knownState
  | none => operationVersionVector op

def applyDelete (op : Operation) (node : NodeId) : Exec Error N Unit := do
  if node = NodeId.ROOT ∨ node = NodeId.TRASH then
    return
  NodeStore.ensureNode node
  NodeStore.mergeDeletedAt node (deleteVersionVector op)

/-- Is the operation newer than the last writer of the payload? -/
def newerThan (op : Operation) : Option (Lamport × OperationId) → Bool
  | none => true
  | some (lamport, id) =>
    cmpOpKey op.metadata.lamport op.metadata.id.replica.bytes op.metadata.id.counter
      lamport id.replica.bytes id.counter = .gt

def applyPayload (op : Operation) (node : NodeId) (payload : Option Bytes) :
    Exec Error (N × P) Unit := do
  onNodeStore (NodeStore.ensureNode node)
  let writer ← onPayloadStore (PayloadStore.lastWriter node)
  if !newerThan op writer then
    return
  onPayloadStore (PayloadStore.setPayload node payload (op.metadata.lamport, op.metadata.id))
  onNodeStore (updateLastChange op node)

/-- Apply an operation to the materialized state; every kind has its own rules for `ROOT` and
`TRASH`. -/
def applyForward (op : Operation) : Exec Error (N × P) NodeSnapshot := do
  let snap ← onNodeStore (snapshot op)
  match op.kind with
  | .insert parent node orderKey payload =>
    onNodeStore (applyInsert op parent node orderKey)
    if payload.isSome then
      applyPayload op node payload
  | .move node newParent orderKey => onNodeStore (applyMove op node newParent orderKey)
  | .delete node => onNodeStore (applyDelete op node)
  | .tombstone node => onNodeStore (applyDelete op node)
  | .payload node payload => applyPayload op node payload
  return snap

/-! ## Folds -/

/-- `apply_forward` over a list of operations. -/
def forwardAll : List Operation → Exec Error (N × P) Unit
  | [] => return
  | op :: ops => do
    let _ ← applyForward op
    forwardAll ops

@[simp] theorem forwardAll_nil (s : N × P) : forwardAll [] s = some (.ok (), s) := rfl

theorem forwardAll_cons {op : Operation} {ops : List Operation} {s s' : N × P}
    {snap : NodeSnapshot} (h : applyForward op s = some (.ok snap, s')) :
    forwardAll (op :: ops) s = forwardAll ops s' := bind_of_ok h

theorem forwardAll_cons_ok {op : Operation} {ops : List Operation} {s s' : N × P}
    (h : forwardAll (op :: ops) s = some (.ok (), s')) :
    ∃ snap s₁, applyForward op s = some (.ok snap, s₁) ∧
      forwardAll ops s₁ = some (.ok (), s') := bind_ok h

/-- The fold may be cut anywhere. -/
theorem forwardAll_append {ops ops' : List Operation} {s s' : N × P}
    (h : forwardAll ops s = some (.ok (), s')) :
    forwardAll (ops ++ ops') s = forwardAll ops' s' := by
  induction ops generalizing s with
  | nil => cases h; rfl
  | cons op ops ih =>
    obtain ⟨snap, s₁, hop, hrest⟩ := forwardAll_cons_ok h
    rw [List.cons_append, forwardAll_cons hop]
    exact ih hrest

end

end Treecrdt
