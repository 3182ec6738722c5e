import TreecrdtLean.Sync.Handlers
import TreecrdtLean.Sync.Relay
import TreecrdtLean.Tree.Recorded

/-!
# The refs that a backend lists and serves (`backend.ts`, `treecrdt-sqlite-ext`)

The tables of a document are its log, the derived state with the index of `children(parent)`, and
the sidecar of the pending operations. `listOpRefs` puts its answer together from all of them,
`getOpsByOpRefs` looks in the log alone. In every state that a backend can come to, what is listed
is served if and only if the log has whatever is pending (`servable_iff`): a filter on children
never asks too much, and one pending operation is enough for `all` to (`pending_not_served`).
-/

namespace Treecrdt

namespace Sync

open Exec Auth

/-! ## The tables -/

/-- The `ops` table. -/
structure SqliteOpStorage where
  rows : List Operation := []
  deriving DecidableEq

/-- Only deletions have a known state in their row. -/
def opRow (op : Operation) : Operation :=
  match op.kind with
  | .delete _ | .tombstone _ => op
  | _ => { op with metadata := { op.metadata with knownState := none } }

/-- The rows that a scan visits: an empty replica reads as `NULL` and is skipped. -/
def SqliteOpStorage.since (s : SqliteOpStorage) (lamport : Lamport) : List Operation :=
  sortOps (s.rows.filter fun op => op.metadata.lamport > lamport ∧ op.metadata.id.replica.bytes ≠ [])

instance : Storage SqliteOpStorage where
  -- `INSERT OR IGNORE`, with the id as the key.
  apply op := fun s =>
    if s.rows.any fun row => row.metadata.id = op.metadata.id then some (.ok false, s)
    else some (.ok true, ⟨s.rows ++ [opRow op]⟩)
  loadSince s lamport := .ok (s.since lamport)
  latestLamport s := (s.rows.map fun op => op.metadata.lamport).foldl max 0
  latestCounter s replica := .ok <|
    ((s.rows.filter fun op => op.metadata.id.replica = replica).map
      fun op => op.metadata.id.counter).foldl max 0
  scanSince s lamport := (s.since lamport).map .ok

variable {Ref : Type} [DecidableEq Ref]

/-- A row of the `oprefs_children` table. -/
structure OprefsChild (Ref : Type) where
  parent : NodeId
  opRef : Ref
  seq : UInt64
  deriving DecidableEq

/-- The `oprefs_children` table; `opRef` is `derive_op_ref_v0` for the document. -/
structure OprefsChildren (opRef : OperationId → Ref) where
  rows : List (OprefsChild Ref) := []

instance (opRef : OperationId → Ref) : ParentOpIndex (OprefsChildren opRef) where
  reset := modify fun _ => {}
  -- `INSERT OR IGNORE`, with the parent and the ref as the key.
  record parent id seq := modify fun s =>
    if parent = NodeId.TRASH then s
    else if s.rows.any fun row => row.parent = parent ∧ row.opRef = opRef id then s
    else ⟨s.rows ++ [⟨parent, opRef id, seq⟩]⟩

/-- The tables of a document. -/
structure SqliteDoc (N : Type) (opRef : OperationId → Ref) where
  ops : SqliteOpStorage
  nodes : N
  payloads : MemoryPayloadStore
  index : OprefsChildren opRef
  cursor : TreeMeta

/-- A document that was just made, over the node table that comes with it. -/
def SqliteDoc.new {N : Type} (opRef : OperationId → Ref) (nodes : N) : SqliteDoc N opRef :=
  ⟨{}, nodes, {}, {}, ⟨false, 0, [], 0, 0⟩⟩

namespace SqliteDoc

variable {N : Type} [NodeStore N] {opRef : OperationId → Ref} {S α : Type}

/-! ## Materialization -/

/-- A method of a `TreeCrdt` that is prepared over the tables; `put` writes the log back. -/
def onCrdt [Storage S] (replica : ReplicaId) (get : SqliteDoc N opRef → S)
    (put : S → SqliteDoc N opRef → SqliteDoc N opRef)
    (c : Exec Error (TreeCrdt S LamportClock N MemoryPayloadStore × OprefsChildren opRef) α) :
    Exec Error (SqliteDoc N opRef) α := fun doc =>
  match TreeCrdt.withStores replica (get doc) {} doc.nodes doc.payloads with
  | .error e => some (.error e, doc)
  | .ok t => (c (t, doc.index)).map fun r =>
    (r.1, put r.2.1.storage { doc with
      nodes := r.2.1.nodes, payloads := r.2.1.payloads, index := r.2.2 })

def sqliteExt : ReplicaId := ⟨utf8ToBytes "sqlite-ext"⟩

def setDirty : Exec Error (SqliteDoc N opRef) Unit :=
  modify fun doc => { doc with cursor := { doc.cursor with dirty := true } }

def updateTreeMetaHead (head : MaterializationHead) : Exec Error (SqliteDoc N opRef) Unit :=
  modify fun doc => { doc with
    cursor := ⟨false, head.lamport, head.replica, head.counter, head.seq⟩ }

def materializeOpsInOrder (ops : List Operation) : Exec Error (SqliteDoc N opRef) Unit := do
  let cursor ← gets fun doc => doc.cursor
  let (head, _) ← onCrdt sqliteExt (fun _ => NoopStorage.mk) (fun _ doc => doc)
    (TreeCrdt.applyIncrementalOpsWithDelta cursor ops)
  match head with
  | some head => updateTreeMetaHead head
  | none => throw (.storage "SQLITE_ERROR")

def rebuildMaterialized : Exec Error (SqliteDoc N opRef) Unit := atomically do
  let (head, seq) ← onCrdt sqliteExt (fun doc => doc.ops) (fun _ doc => doc) (do
    TreeCrdt.replayFromStorageWithMaterialization
    TreeCrdt.onTree (gets fun t => (t.head, t.opCount)))
  match head with
  | some last =>
    updateTreeMetaHead
      ⟨last.metadata.lamport, last.metadata.id.replica.bytes, last.metadata.id.counter, seq⟩
  | none => updateTreeMetaHead ⟨0, [], 0, 0⟩

def ensureMaterialized : Exec Error (SqliteDoc N opRef) Unit := do
  if ← gets fun doc => doc.cursor.dirty then
    rebuildMaterialized

/-! ## Writes -/

/-- Insert operations: those that are new. -/
def insertOps : List Operation → Exec Error SqliteOpStorage (List Operation)
  | [] => return []
  | op :: ops => do
    let inserted ← Storage.apply op
    let rest ← insertOps ops
    return if inserted then opRow op :: rest else rest

/-- A delete that comes without the known state of its writer. -/
def missingKnownState (op : Operation) : Bool :=
  match op.kind with
  | .delete _ => op.metadata.knownState.isNone
  | _ => false

/-- `append_ops_impl`: what cannot be materialized in order waits for the next replay. -/
def appendOps (ops : List Operation) : Exec Error (SqliteDoc N opRef) Unit := atomically do
  if ops.any missingKnownState then
    throw (.storage "treecrdt_append_ops: delete op missing known_state")
  else do
    let inserted ← zoom SqliteDoc.ops (fun ops doc => { doc with ops }) (insertOps ops)
    if inserted.isEmpty then return
    else if ← gets fun doc => doc.cursor.dirty then setDirty
    else orElse (materializeOpsInOrder inserted) fun _ => setDirty

/-- A local operation that an application asks for. -/
inductive LocalOp where
  | insert (parent node : NodeId) (placement : LocalPlacement) (value : Option Bytes)
  | move (node newParent : NodeId) (placement : LocalPlacement)
  | delete (node : NodeId)
  | payload (node : NodeId) (value : Option Bytes)

def LocalOp.build [Storage S] : LocalOp →
    Exec Error (TreeCrdt S LamportClock N MemoryPayloadStore) (Operation × LocalFinalizePlan)
  | .insert parent node placement value =>
    TreeCrdt.localInsertWithPlan parent node placement value
  | .move node newParent placement => TreeCrdt.localMoveWithPlan node newParent placement
  | .delete node => TreeCrdt.localDeleteWithPlan node
  | .payload node value => TreeCrdt.localPayloadWithPlan node value

/-- The records of an operation that was committed: the sequence number, unless they fail. -/
def finishLocal (op : Operation) (headSeq : UInt64) (plan : LocalFinalizePlan) :
    Exec Error (TreeCrdt SqliteOpStorage LamportClock N MemoryPayloadStore × OprefsChildren opRef)
      (Option UInt64) :=
  orElse (TreeCrdt.finalizeLocalWithPlan op headSeq plan >>= fun seq => return some seq)
    fun _ => return none

/-- Build and commit the operation, then record it. -/
def localSession (call : LocalOp) (headSeq : UInt64) :
    Exec Error (TreeCrdt SqliteOpStorage LamportClock N MemoryPayloadStore × OprefsChildren opRef)
      (Operation × Option UInt64) := do
  let built ← TreeCrdt.onTree call.build
  let seq ← finishLocal built.1 headSeq built.2
  return (built.1, seq)

/-- `run_local_core_op`: an operation whose records fail leaves the tables dirty. -/
def runLocalCoreOp (replica : ReplicaId) (call : LocalOp) :
    Exec Error (SqliteDoc N opRef) Operation := atomically do
  ensureMaterialized
  let headSeq ← gets fun doc => doc.cursor.headSeq
  let (op, seq) ← onCrdt replica (fun doc => doc.ops) (fun ops doc => { doc with ops })
    (localSession call headSeq)
  match seq with
  | some seq =>
    updateTreeMetaHead
      ⟨op.metadata.lamport, op.metadata.id.replica.bytes, op.metadata.id.counter, seq⟩
  | none => setDirty
  return op

/-! ## Reads -/

/-- `treecrdt_oprefs_all`. -/
def opRefsAll (doc : SqliteDoc N opRef) : List Ref :=
  (sortOps doc.ops.rows).map fun op => opRef op.metadata.id

/-- `treecrdt_oprefs_children`. -/
def opRefsChildren (parent : NodeId) : Exec Error (SqliteDoc N opRef) (List Ref) := do
  ensureMaterialized
  gets fun doc => ((doc.index.rows.filter fun row => row.parent = parent).mergeSort
    fun a b => a.seq ≤ b.seq).map fun row => row.opRef

/-- The row of a ref. -/
def opGet (doc : SqliteDoc N opRef) (ref : Ref) : Except String Operation :=
  match doc.ops.rows.find? fun op => opRef op.metadata.id = ref with
  | some op => .ok op
  | none => .error "treecrdt_ops_by_oprefs: op_ref not found"

/-- `treecrdt_ops_by_oprefs`: one ref without a row fails the call. -/
def opsGet (doc : SqliteDoc N opRef) (opRefs : List Ref) : Except String (List Operation) :=
  opRefs.mapM doc.opGet

def writesPayload (node : NodeId) (op : Operation) : Bool :=
  match op.kind with
  | .payload n _ => n = node
  | .insert _ n _ payload => n = node && payload.isSome
  | _ => false

/-- The newest operation of the log that writes the payload of a node. -/
def loggedPayloadWriter (doc : SqliteDoc N opRef) (node : NodeId) : Option Ref :=
  ((sortOps doc.ops.rows).filter (writesPayload node)).getLast?.map fun op => opRef op.metadata.id

def maybeLoadNodePayloadWriterOpRef (node : NodeId) :
    Exec Error (SqliteDoc N opRef) (Option Ref) := do
  orElse ensureMaterialized fun _ => return
  gets fun doc =>
    match (doc.payloads.entries.lookup node).bind (·.lastWriter) with
    | some (_, id) =>
      if id.replica.bytes.length > 0 ∧ id.counter > 0 then some (opRef id)
      else doc.loggedPayloadWriter node
    | none => doc.loggedPayloadWriter node

end SqliteDoc

/-! ## The backend -/

inductive Filter where
  | all
  | children (parent : NodeId)
  deriving DecidableEq

/-- A backend; `pending` is the sidecar, where there is one. -/
structure Backend (N : Type) (opRef : OperationId → Ref) where
  doc : SqliteDoc N opRef
  pending : Option (OrderedMap Ref (PendingOp Operation OpAuth))

namespace Backend

variable {N : Type} [NodeStore N] {opRef : OperationId → Ref}

def pendingRefs (s : Backend N opRef) : List Ref :=
  s.pending.elim [] fun pending => pending.entries.map Prod.fst

def onDoc {α : Type} (c : Exec Error (SqliteDoc N opRef) α) : Exec Error (Backend N opRef) α :=
  zoom Backend.doc (fun doc s => { s with doc }) c

def listOpRefs : Filter → Exec Error (Backend N opRef) (List Ref)
  | .all => gets fun s =>
    if s.pendingRefs.isEmpty then s.doc.opRefsAll else (s.doc.opRefsAll ++ s.pendingRefs).eraseDups
  | .children parent => do
    let refs ← onDoc (SqliteDoc.opRefsChildren parent)
    match ← onDoc (SqliteDoc.maybeLoadNodePayloadWriterOpRef parent) with
    | none => return refs
    | some payloadWriter => return if payloadWriter ∈ refs then refs else refs ++ [payloadWriter]

def getOpsByOpRefs (s : Backend N opRef) (opRefs : List Ref) : Except String (List Operation) :=
  s.doc.opsGet opRefs

/-- What can happen to a backend. -/
inductive Action where
  | applyOps (ops : List Operation)
  | localOp (replica : ReplicaId) (call : SqliteDoc.LocalOp)
  | listOpRefs (filter : Filter)
  | storePendingOps (ps : List (PendingOp Operation OpAuth))
  | deletePendingOps (ops : List Operation)

def run : Action → Exec Error (Backend N opRef) Unit
  | .applyOps ops => onDoc (SqliteDoc.appendOps ops)
  | .localOp replica call => do
    let _ ← onDoc (SqliteDoc.runLocalCoreOp replica call)
  | .listOpRefs filter => do
    let _ ← listOpRefs filter
  | .storePendingOps ps => modify fun s => { s with
      pending := s.pending.map fun pending =>
        ps.foldl (fun m p => (m.erase (opRef p.op.metadata.id)).set (opRef p.op.metadata.id) p) pending }
  | .deletePendingOps ops => modify fun s => { s with
      pending := s.pending.map fun pending =>
        ops.foldl (fun m op => m.erase (opRef op.metadata.id)) pending }

/-- Calls one after the other, whether they fail or not. -/
inductive Run (s₀ : Backend N opRef) : Backend N opRef → Prop
  | start : Run s₀ s₀
  | step {s s' : Backend N opRef} {action : Action} {r : Except Error Unit} (before : Run s₀ s)
      (next : run action s = some (r, s')) : Run s₀ s'

/-- Whatever is listed is served, all of it or a part. -/
def Servable (s : Backend N opRef) : Prop :=
  ∀ filter refs s', listOpRefs filter s = some (.ok refs, s') →
    ∀ wanted ⊆ refs, ∃ ops, s'.getOpsByOpRefs wanted = .ok ops

end Backend

/-! ## What the derived state names -/

/-- The log has an operation with this id. -/
def SqliteOpStorage.Logged (s : SqliteOpStorage) (id : OperationId) : Prop :=
  ∃ op ∈ s.rows, op.metadata.id = id

/-- The last writers of the payloads are known. -/
def PayloadsKnown (known : OperationId → Prop) (payloads : MemoryPayloadStore) : Prop :=
  ∀ node w, (payloads.entries.lookup node).bind (·.lastWriter) = some w → known w.2

/-- The refs of the index are those of known operations. -/
def IndexKnown {opRef : OperationId → Ref} (known : OperationId → Prop)
    (index : OprefsChildren opRef) : Prop :=
  ∀ row ∈ index.rows, ∃ id, known id ∧ row.opRef = opRef id

theorem opRow_id (op : Operation) : (opRow op).metadata.id = op.metadata.id := by
  unfold opRow
  split <;> rfl

theorem apply_rows {op : Operation} {s s' : SqliteOpStorage} {r : Except Error Bool}
    (h : Storage.apply op s = some (r, s')) :
    s'.Logged op.metadata.id ∧ s.rows ⊆ s'.rows ∧ ∀ row ∈ s'.rows, row ∈ s.rows ∨ row = opRow op := by
  simp only [Storage.apply] at h
  split at h
  · rename_i hany
    cases h
    obtain ⟨row, hrow, hid⟩ := List.any_eq_true.mp hany
    exact ⟨⟨row, hrow, of_decide_eq_true hid⟩, List.Subset.refl _, fun row hrow => Or.inl hrow⟩
  · cases h
    refine ⟨⟨opRow op, by simp, opRow_id op⟩, List.subset_append_left _ _, fun row hrow => ?_⟩
    simpa using hrow

/-- The tables keep to known operations, if the log does. -/
theorem recorded_of {S : Type} [Storage S] {J : S → Prop} (opRef : OperationId → Ref)
    (known : OperationId → Prop)
    (hscan : ∀ s lamport, J s → ∀ op, .ok op ∈ Storage.scanSince s lamport → known op.metadata.id)
    (happly : ∀ op, known op.metadata.id →
      Keeps J (fun _ => True) (Storage.apply op : Exec Error S Bool) fun _ => True) :
    Recorded known J (PayloadsKnown known) (IndexKnown known : OprefsChildren opRef → Prop) where
  scan := hscan
  apply := happly
  resetPayloads := Keeps.modify fun _ _ _ _ h => nomatch h
  lastWriter node := Keeps.gets fun p hp w hw => hp node w hw
  setPayload node payload w hw := Keeps.modify fun p hp node' w' h => by
    by_cases hnode : node' = node
    · rw [hnode, AList.lookup_insert] at h
      obtain rfl := Option.some.inj h
      exact hw
    · rw [AList.lookup_insert_ne hnode] at h
      exact hp node' w' h
  resetIndex := Keeps.modify fun _ _ _ h => nomatch h
  record parent id seq hid := Keeps.modify fun i hi => by
    split_ifs
    · exact hi
    · exact hi
    · intro row hrow
      obtain hrow | hrow := List.mem_append.mp hrow
      · exact hi row hrow
      · obtain rfl := List.mem_singleton.mp hrow
        exact ⟨id, hid, rfl⟩

/-- A log of known operations, with those of `base` among them. -/
def Between (known : OperationId → Prop) (base : List Operation) (s : SqliteOpStorage) : Prop :=
  base ⊆ s.rows ∧ ∀ op ∈ s.rows, known op.metadata.id

theorem recorded (opRef : OperationId → Ref) (known : OperationId → Prop) (base : List Operation) :
    Recorded known (Between known base) (PayloadsKnown known)
      (IndexKnown known : OprefsChildren opRef → Prop) := by
  refine recorded_of opRef known (fun s lamport hs op hop => ?_) fun op hop s hs r s' happly => ?_
  · obtain ⟨row, hrow, heq⟩ := List.mem_map.mp hop
    obtain rfl := Except.ok.inj heq
    exact hs.2 row (List.mem_filter.mp ((sortOps_perm _).mem_iff.mp hrow)).1
  · obtain ⟨-, hsub, hrows⟩ := apply_rows happly
    refine ⟨⟨List.Subset.trans hs.1 hsub, fun row hrow => ?_⟩, by cases r <;> trivial⟩
    obtain hold | rfl := hrows row hrow
    · exact hs.2 row hold
    · rwa [opRow_id]

theorem recorded_noop (opRef : OperationId → Ref) (known : OperationId → Prop) :
    Recorded known (fun _ : NoopStorage => True) (PayloadsKnown known)
      (IndexKnown known : OprefsChildren opRef → Prop) := by
  refine recorded_of opRef known (fun s lamport _ op hop => ?_) fun op _ => Keeps.any _
  have hnone : (Storage.scanSince s lamport : List (Except Error Operation)) = [] := by
    simp [Storage.scanSince]
  rw [hnone] at hop
  cases hop

/-! ## The document -/

namespace SqliteDoc

variable {N : Type} {opRef : OperationId → Ref} {S α : Type} [Storage S]

/-- The derived state names operations of this log only. -/
structure NamesOf (table : SqliteOpStorage) (doc : SqliteDoc N opRef) : Prop where
  payloads : PayloadsKnown table.Logged doc.payloads
  index : IndexKnown table.Logged doc.index

/-- The log is this one, and the derived state names its operations. -/
def OverLog (table : SqliteOpStorage) (doc : SqliteDoc N opRef) : Prop :=
  doc.ops = table ∧ doc.NamesOf table

omit [DecidableEq Ref] in
theorem NamesOf.grow {table table' : SqliteOpStorage} {doc : SqliteDoc N opRef}
    (h : doc.NamesOf table) (hsub : table.rows ⊆ table'.rows) : doc.NamesOf table' where
  payloads node w hw := by
    obtain ⟨op, hop, hid⟩ := h.payloads node w hw
    exact ⟨op, hsub hop, hid⟩
  index row hrow := by
    obtain ⟨id, ⟨op, hop, hid⟩, href⟩ := h.index row hrow
    exact ⟨id, ⟨op, hsub hop, hid⟩, href⟩

/-- What a prepared tree keeps, the document does. -/
theorem onCrdt_keeps {replica : ReplicaId} {get : SqliteDoc N opRef → S}
    {put : S → SqliteDoc N opRef → SqliteDoc N opRef}
    {c : Exec Error (TreeCrdt S LamportClock N MemoryPayloadStore × OprefsChildren opRef) α}
    {known : OperationId → Prop} {J : S → Prop} {Q : α → Prop}
    (h : Recorded known J (PayloadsKnown known) (IndexKnown known : OprefsChildren opRef → Prop))
    (hc : Keeps h.Inv (fun _ => True) c Q) {A : SqliteDoc N opRef → Prop}
    (hA : ∀ doc, A doc → J (get doc) ∧ PayloadsKnown known doc.payloads ∧
      IndexKnown known doc.index)
    (hput : ∀ doc storage nodes payloads index, A doc → J storage → PayloadsKnown known payloads →
      IndexKnown known index → A (put storage { doc with nodes, payloads, index })) :
    Keeps A (fun _ => True) (onCrdt replica get put c) Q := by
  intro doc hdoc r doc' hrun
  obtain ⟨hJ, hH, hG⟩ := hA doc hdoc
  rw [onCrdt] at hrun
  split at hrun
  · cases hrun
    exact ⟨hdoc, trivial⟩
  · rename_i t ht
    have hstart : t.storage = get doc ∧ t.payloads = doc.payloads := by
      obtain ⟨counter, -, h⟩ := except_bind_ok ht
      cases h
      exact ⟨rfl, rfl⟩
    obtain ⟨⟨r', t', index⟩, hc', heq⟩ := Option.map_eq_some_iff.mp hrun
    cases heq
    obtain ⟨⟨hJ', hH', hG'⟩, hQ⟩ := hc (t, doc.index)
      ⟨hstart.1 ▸ hJ, hstart.2 ▸ hH, hG⟩ r' (t', index) hc'
    exact ⟨hput doc _ _ _ _ hdoc hJ' hH' hG', hQ⟩

variable {table : SqliteOpStorage}

omit [DecidableEq Ref] in
theorem modify_cursor_keeps (f : SqliteDoc N opRef → TreeMeta) :
    Keeps (OverLog table) (fun _ => True)
      (modify fun doc => { doc with cursor := f doc } : Exec Error (SqliteDoc N opRef) Unit)
      fun _ => True :=
  Keeps.modify fun _ hdoc => ⟨hdoc.1, ⟨hdoc.2.payloads, hdoc.2.index⟩⟩

variable [NodeStore N]

theorem materializeOpsInOrder_keeps {ops : List Operation}
    (hops : ∀ op ∈ ops, table.Logged op.metadata.id) :
    Keeps (OverLog table) (fun _ => True)
      (materializeOpsInOrder ops : Exec Error (SqliteDoc N opRef) Unit) fun _ => True := by
  have h := recorded_noop opRef table.Logged
  refine (Keeps.gets (Q := fun _ => True) fun _ _ => trivial).bind fun cursor _ => ?_
  refine (onCrdt_keeps h (h.applyIncrementalOpsWithDelta_keeps cursor hops)
    (fun doc hdoc => ⟨trivial, hdoc.2.payloads, hdoc.2.index⟩)
    fun doc _ _ _ _ hdoc _ hH hG => ⟨hdoc.1, hH, hG⟩).bind fun head _ => ?_
  obtain ⟨head | head, _⟩ := head
  · exact Keeps.throw trivial
  · exact modify_cursor_keeps _

theorem rebuildMaterialized_keeps :
    Keeps (OverLog table) (fun _ => True)
      (rebuildMaterialized : Exec Error (SqliteDoc N opRef) Unit) fun _ => True := by
  have h := recorded opRef table.Logged []
  have hreplay := h.replayFromStorageWithMaterialization_keeps (C := LamportClock) (N := N)
  refine Keeps.atomically (Keeps.bind (Q := fun _ => True) ?_ fun head _ => ?_)
  · refine onCrdt_keeps h (hreplay.bind fun _ _ => h.onTree_keeps (Keeps.gets fun _ _ => trivial))
      (fun doc hdoc => ⟨⟨List.nil_subset _, fun op hop => ⟨op, hdoc.1 ▸ hop, rfl⟩⟩,
        hdoc.2.payloads, hdoc.2.index⟩) fun doc _ _ _ _ hdoc _ hH hG => ⟨hdoc.1, hH, hG⟩
  · obtain ⟨last | last, seq⟩ := head
    · exact modify_cursor_keeps _
    · exact modify_cursor_keeps _

theorem ensureMaterialized_keeps :
    Keeps (OverLog table) (fun _ => True)
      (ensureMaterialized : Exec Error (SqliteDoc N opRef) Unit) fun _ => True := by
  refine (Keeps.gets (Q := fun _ => True) fun _ _ => trivial).bind fun dirty _ => ?_
  split
  · exact rebuildMaterialized_keeps
  · exact Keeps.pure trivial

/-! ## Writes -/

/-- The derived state names operations of the log. -/
def Named (doc : SqliteDoc N opRef) : Prop := doc.NamesOf doc.ops

theorem insertOps_ok {ops inserted : List Operation} {s s' : SqliteOpStorage}
    (h : insertOps ops s = some (.ok inserted, s')) :
    s.rows ⊆ s'.rows ∧ ∀ op ∈ inserted, s'.Logged op.metadata.id := by
  induction ops generalizing inserted s with
  | nil =>
    cases h
    exact ⟨List.Subset.refl _, fun _ hop => nomatch hop⟩
  | cons op ops ih =>
    obtain ⟨added, s₁, happly, h⟩ := bind_ok h
    obtain ⟨rest, s₂, hrest, h⟩ := bind_ok h
    cases h
    obtain ⟨⟨row, hrow, hid⟩, hsub, -⟩ := apply_rows happly
    obtain ⟨hsub', hall⟩ := ih hrest
    refine ⟨List.Subset.trans hsub hsub', fun op' hop' => ?_⟩
    split at hop'
    · obtain rfl | hop' := List.mem_cons.mp hop'
      · exact ⟨row, hsub' hrow, hid.trans (opRow_id op).symm⟩
      · exact hall op' hop'
    · exact hall op' hop'

theorem appendOps_named {ops : List Operation} {doc doc' : SqliteDoc N opRef}
    {r : Except Error Unit} (hdoc : doc.Named) (hrun : appendOps ops doc = some (r, doc')) :
    doc'.Named := by
  obtain rfl | ⟨_, -, hrun⟩ := atomically_some hrun
  · exact hdoc
  split at hrun
  · cases hrun
  obtain ⟨inserted, doc₁, hinsert, hrun⟩ := bind_ok hrun
  obtain ⟨table, htable, rfl⟩ := zoom_some hinsert
  obtain ⟨hsub, hall⟩ := insertOps_ok htable
  have hstart : OverLog table { doc with ops := table } := ⟨rfl, (hdoc.grow hsub).payloads, (hdoc.grow hsub).index⟩
  -- Behind the inserts the log stays as it is.
  have hrest : ∀ c : Exec Error (SqliteDoc N opRef) Unit,
      Keeps (OverLog table) (fun _ => True) c (fun _ => True) →
      c { doc with ops := table } = some (.ok (), doc') → doc'.Named := by
    intro c hc hrun
    obtain ⟨⟨hops, hnames⟩, -⟩ := hc _ hstart _ _ hrun
    rwa [Named, hops]
  refine hrest _ ?_ hrun
  split
  · exact Keeps.pure trivial
  refine (Keeps.gets (Q := fun _ => True) fun _ _ => trivial).bind fun dirty _ => ?_
  split
  · exact modify_cursor_keeps _
  · exact (materializeOpsInOrder_keeps hall).orElse fun _ _ => modify_cursor_keeps _

/-- The local operation that is built: it was committed to the same log and payloads, and its plan
names payload writers. -/
def Built (t : TreeCrdt SqliteOpStorage LamportClock N MemoryPayloadStore)
    (built : Operation × LocalFinalizePlan)
    (t' : TreeCrdt SqliteOpStorage LamportClock N MemoryPayloadStore) : Prop :=
  (∃ t₀, t₀.storage = t.storage ∧ t₀.payloads = t.payloads ∧
    TreeCrdt.commitLocal built.1 t₀ = some (.ok built.1, t')) ∧
  ∀ e ∈ built.2.extraIndexRecords, ∃ node w,
    (t'.payloads.entries.lookup node).bind (·.lastWriter) = some w ∧ w.2 = e.2

/-- A local operation with hints of its parents alone. -/
theorem built_of_localOp {t t₁ t' : TreeCrdt SqliteOpStorage LamportClock N MemoryPayloadStore}
    {build : ReplicaId → UInt64 → Lamport → Exec Error N Operation} {op : Operation}
    (h : TreeCrdt.localOp build t₁ = some (.ok op, t')) (hstorage : t₁.storage = t.storage)
    (hpayloads : t₁.payloads = t.payloads) (hints : List NodeId) :
    Built t (op, ⟨hints, []⟩) t' := by
  obtain ⟨t₀, hs, hp, hcommit⟩ := TreeCrdt.localOp_ok h
  exact ⟨⟨t₀, hs.trans hstorage, hp.trans hpayloads, hcommit⟩, fun _ he => nomatch he⟩

theorem LocalOp.build_ok {call : LocalOp}
    {t t' : TreeCrdt SqliteOpStorage LamportClock N MemoryPayloadStore}
    {built : Operation × LocalFinalizePlan} (h : call.build t = some (.ok built, t')) :
    Built t built t' := by
  cases call with
  | insert parent node placement value =>
    obtain ⟨after, t₁, hnodes, h⟩ := bind_ok h
    obtain ⟨nodes, -, rfl⟩ := zoom_some hnodes
    cases value with
    | none | some =>
      obtain ⟨op, t₂, hop, h⟩ := bind_ok h
      cases h
      exact built_of_localOp hop rfl rfl _
  | move node newParent placement =>
    obtain ⟨oldParent, t₁, hnodes, h⟩ := bind_ok h
    obtain ⟨nodes, -, rfl⟩ := zoom_some hnodes
    obtain ⟨after, t₂, hnodes, h⟩ := bind_ok h
    obtain ⟨nodes', -, rfl⟩ := zoom_some hnodes
    obtain ⟨op, t₃, hop, h⟩ := bind_ok h
    split at h
    · obtain ⟨writer, t₄, hwriter, h⟩ := bind_ok h
      obtain ⟨payloads, hlast, rfl⟩ := zoom_some
        (show TreeCrdt.onPayloads (PayloadStore.lastWriter node) t₃ = _ from hwriter)
      obtain ⟨hfound, rfl⟩ := Prod.mk.inj (Option.some.inj hlast)
      cases writer with
      | none =>
        cases h
        exact built_of_localOp hop rfl rfl _
      | some w =>
        cases h
        refine ⟨(built_of_localOp hop rfl rfl []).1, fun e he => ?_⟩
        obtain rfl := List.mem_singleton.mp he
        exact ⟨node, w, Except.ok.inj hfound, rfl⟩
    · cases h
      exact built_of_localOp hop rfl rfl _
  | delete node =>
    obtain ⟨oldParent, t₁, hnodes, h⟩ := bind_ok h
    obtain ⟨nodes, -, rfl⟩ := zoom_some hnodes
    obtain ⟨op, t₂, hop, h⟩ := bind_ok h
    cases h
    exact built_of_localOp hop rfl rfl _
  | payload node value =>
    obtain ⟨parent, t₁, hnodes, h⟩ := bind_ok h
    obtain ⟨nodes, -, rfl⟩ := zoom_some hnodes
    cases value with
    | none | some =>
      obtain ⟨op, t₂, hop, h⟩ := bind_ok h
      cases h
      exact built_of_localOp hop rfl rfl _

/-- What a commit leaves, over the log that it leaves. -/
theorem Built.kept {t t' : TreeCrdt SqliteOpStorage LamportClock N MemoryPayloadStore}
    {built : Operation × LocalFinalizePlan} (h : Built t built t') {doc : SqliteDoc N opRef}
    (hdoc : doc.NamesOf t.storage) (hpayloads : t.payloads = doc.payloads) :
    t'.storage.Logged built.1.metadata.id ∧ t.storage.rows ⊆ t'.storage.rows ∧
      PayloadsKnown t'.storage.Logged t'.payloads := by
  obtain ⟨⟨t₀, hstorage, hp, hcommit⟩, -⟩ := h
  obtain ⟨-, added, happly⟩ := TreeCrdt.commitLocal_ok hcommit
  obtain ⟨hlogged, hsub, -⟩ := apply_rows happly
  rw [hstorage] at hsub
  have hrec := recorded opRef t'.storage.Logged []
  have hstart : hrec.TreeInv t₀ := by
    refine ⟨⟨List.nil_subset _, fun op hop => ⟨op, hsub (hstorage ▸ hop), rfl⟩⟩, ?_⟩
    rw [hp, hpayloads]
    exact (hdoc.grow hsub).payloads
  exact ⟨hlogged, hsub, (hrec.commitLocal_keeps hlogged t₀ hstart _ _ hcommit).1.2⟩

theorem finishLocal_keeps {known : OperationId → Prop} {base : List Operation} {op : Operation}
    (hop : known op.metadata.id) (headSeq : UInt64) {plan : LocalFinalizePlan}
    (hplan : ∀ e ∈ plan.extraIndexRecords, known e.2) :
    Keeps ((recorded opRef known base).Inv (C := LamportClock) (N := N)) (fun _ => True)
      (finishLocal op headSeq plan) fun _ => True := by
  have hfinalize := (recorded opRef known base).finalizeLocalWithPlan_keeps (C := LamportClock)
    (N := N) hop headSeq hplan
  exact (hfinalize.bind fun seq _ => Keeps.pure trivial).orElse fun _ _ => Keeps.pure trivial

/-- A session that returns: the derived state names operations of its log. -/
theorem localSession_kept {call : LocalOp} {headSeq : UInt64}
    {t t' : TreeCrdt SqliteOpStorage LamportClock N MemoryPayloadStore}
    {index index' : OprefsChildren opRef} {result : Operation × Option UInt64}
    {doc : SqliteDoc N opRef} (hdoc : doc.NamesOf t.storage) (hpayloads : t.payloads = doc.payloads)
    (hindex : index = doc.index)
    (h : localSession call headSeq (t, index) = some (.ok result, (t', index'))) :
    PayloadsKnown t'.storage.Logged t'.payloads ∧ IndexKnown t'.storage.Logged index' := by
  obtain ⟨built, s₁, htree, h⟩ := bind_ok h
  obtain ⟨t₁, hbuild, rfl⟩ := zoom_some htree
  have hbuilt := LocalOp.build_ok hbuild
  obtain ⟨hlogged, hsub, hknown⟩ := hbuilt.kept hdoc hpayloads
  have hplan : ∀ e ∈ built.2.extraIndexRecords, t₁.storage.Logged e.2 := by
    intro e he
    obtain ⟨node, w, hw, heq⟩ := hbuilt.2 e he
    exact heq ▸ hknown node w hw
  have hstart : (recorded opRef t₁.storage.Logged t₁.storage.rows).Inv (t₁, index) :=
    ⟨⟨List.Subset.refl _, fun op hop => ⟨op, hop, rfl⟩⟩, hknown,
      hindex ▸ (hdoc.grow hsub).index⟩
  obtain ⟨seq, s₂, hfinal, h⟩ := bind_ok h
  have hkept := finishLocal_keeps hlogged headSeq hplan (t₁, index) hstart _ _ hfinal
  cases h
  obtain ⟨⟨⟨hbase, -⟩, hp, hi⟩, -⟩ := hkept
  have hgrow : ∀ id, t₁.storage.Logged id → t'.storage.Logged id := fun id ⟨op, hop, hid⟩ =>
    ⟨op, hbase hop, hid⟩
  refine ⟨fun node w hw => hgrow _ (hp node w hw), fun row hrow => ?_⟩
  obtain ⟨id, hid, href⟩ := hi row hrow
  exact ⟨id, hgrow id hid, href⟩

theorem runLocalCoreOp_named {replica : ReplicaId} {call : LocalOp} {doc doc' : SqliteDoc N opRef}
    {r : Except Error Operation} (hdoc : doc.Named)
    (hrun : runLocalCoreOp replica call doc = some (r, doc')) : doc'.Named := by
  obtain rfl | ⟨op, -, hrun⟩ := atomically_some hrun
  · exact hdoc
  obtain ⟨_, doc₁, hensure, hrun⟩ := bind_ok hrun
  obtain ⟨⟨hops, hnames⟩, -⟩ := ensureMaterialized_keeps doc ⟨rfl, hdoc⟩ _ _ hensure
  obtain ⟨headSeq, doc₂, hget, hrun⟩ := bind_ok hrun
  cases hget
  obtain ⟨⟨op, seq⟩, doc₂, hcrdt, hrun⟩ := bind_ok hrun
  have hdoc₂ : doc₂.Named := by
    rw [onCrdt] at hcrdt
    split at hcrdt
    · cases hcrdt
    · rename_i t ht
      obtain ⟨counter, -, ht⟩ := except_bind_ok ht
      cases ht
      obtain ⟨⟨r, t', index⟩, hsession, heq⟩ := Option.map_eq_some_iff.mp hcrdt
      cases heq
      have hnamed : doc₁.NamesOf doc₁.ops := hops ▸ hnames
      obtain ⟨hp, hi⟩ := localSession_kept hnamed rfl rfl hsession
      exact ⟨hp, hi⟩
  cases seq with
  | none | some =>
    obtain ⟨_, doc₃, hcursor, hrun⟩ := bind_ok hrun
    cases hcursor
    cases hrun
    exact ⟨hdoc₂.payloads, hdoc₂.index⟩

end SqliteDoc

/-! ## What is served -/

namespace SqliteDoc

variable {N : Type} [NodeStore N] {opRef : OperationId → Ref}

/-- The refs of the log. -/
def Serves (doc : SqliteDoc N opRef) (ref : Ref) : Prop :=
  ∃ op ∈ doc.ops.rows, opRef op.metadata.id = ref

omit [NodeStore N] in
theorem opGet_iff {doc : SqliteDoc N opRef} {ref : Ref} :
    (∃ op, doc.opGet ref = .ok op) ↔ doc.Serves ref := by
  unfold opGet
  constructor
  · rintro ⟨op, hop⟩
    split at hop
    · rename_i row hrow
      exact ⟨row, List.mem_of_find?_eq_some hrow, by simpa using List.find?_some hrow⟩
    · cases hop
  · rintro ⟨op, hop, href⟩
    obtain ⟨row, hrow⟩ := Option.isSome_iff_exists.mp
      (List.find?_isSome (p := fun op => opRef op.metadata.id = ref).mpr ⟨op, hop, by simpa⟩)
    exact ⟨row, by rw [hrow]⟩

omit [NodeStore N] in
/-- A call is served if every ref is. -/
theorem opsGet_iff {doc : SqliteDoc N opRef} {refs : List Ref} :
    (∃ ops, doc.opsGet refs = .ok ops) ↔ ∀ ref ∈ refs, doc.Serves ref := by
  simp only [opsGet, except_mapM_ok_iff, opGet_iff]

omit [NodeStore N] [DecidableEq Ref] in
theorem serves_opRefsAll {doc : SqliteDoc N opRef} {ref : Ref} (h : ref ∈ doc.opRefsAll) :
    doc.Serves ref := by
  obtain ⟨op, hop, href⟩ := List.mem_map.mp h
  exact ⟨op, (sortOps_perm _).mem_iff.mp hop, href⟩

omit [NodeStore N] [DecidableEq Ref] in
theorem serves_loggedPayloadWriter {doc : SqliteDoc N opRef} {node : NodeId} {ref : Ref}
    (h : doc.loggedPayloadWriter node = some ref) : doc.Serves ref := by
  obtain ⟨op, hop, href⟩ := Option.map_eq_some_iff.mp h
  exact ⟨op, (sortOps_perm _).mem_iff.mp (List.mem_filter.mp (List.mem_of_getLast? hop)).1, href⟩

omit [NodeStore N] [DecidableEq Ref] in
theorem OverLog.named {table : SqliteOpStorage} {doc : SqliteDoc N opRef}
    (h : doc.OverLog table) : doc.Named := by
  rw [Named, h.1]
  exact h.2

/-- What a document lists under a parent is in its log. -/
theorem opRefsChildren_serves {doc doc' : SqliteDoc N opRef} {parent : NodeId}
    {r : Except Error (List Ref)} (hdoc : doc.Named)
    (hrun : opRefsChildren parent doc = some (r, doc')) :
    doc'.OverLog doc.ops ∧ ∀ refs, r = .ok refs → ∀ ref ∈ refs, doc'.Serves ref := by
  obtain ⟨_, hensure, rfl⟩ | ⟨_, doc₁, hensure, hrun⟩ := bind_some hrun
  · exact ⟨(ensureMaterialized_keeps doc ⟨rfl, hdoc⟩ _ _ hensure).1, fun _ h => nomatch h⟩
  obtain ⟨hover, -⟩ := ensureMaterialized_keeps doc ⟨rfl, hdoc⟩ _ _ hensure
  cases hrun
  refine ⟨hover, fun refs hrefs ref href => ?_⟩
  obtain rfl := Except.ok.inj hrefs
  obtain ⟨row, hrow, rfl⟩ := List.mem_map.mp href
  obtain ⟨id, ⟨op, hop, hid⟩, heq⟩ := hover.2.index row
    (List.mem_filter.mp ((List.mergeSort_perm _ _).mem_iff.mp hrow)).1
  exact ⟨op, hover.1 ▸ hop, by rw [heq, hid]⟩

theorem payloadWriter_serves {doc doc' : SqliteDoc N opRef} {node : NodeId}
    {r : Except Error (Option Ref)} (hdoc : doc.Named)
    (hrun : maybeLoadNodePayloadWriterOpRef node doc = some (r, doc')) :
    doc'.OverLog doc.ops ∧ ∀ ref, r = .ok (some ref) → doc'.Serves ref := by
  obtain ⟨_, hensure, rfl⟩ | ⟨_, doc₁, hensure, hrun⟩ := bind_some hrun
  · exact ⟨((ensureMaterialized_keeps.orElse fun _ _ => Keeps.pure trivial) doc ⟨rfl, hdoc⟩ _ _
      hensure).1, fun _ h => nomatch h⟩
  obtain ⟨hover, -⟩ := (ensureMaterialized_keeps.orElse fun _ _ => Keeps.pure trivial) doc
    ⟨rfl, hdoc⟩ _ _ hensure
  cases hrun
  refine ⟨hover, fun ref href => ?_⟩
  have href := Except.ok.inj href
  simp only at href
  split at href
  · rename_i w id hw
    split at href
    · obtain rfl := Option.some.inj href
      obtain ⟨op, hop, hid⟩ := hover.2.payloads node _ hw
      exact ⟨op, hover.1 ▸ hop, by rw [hid]⟩
    · exact serves_loggedPayloadWriter href
  · exact serves_loggedPayloadWriter href

end SqliteDoc

namespace Backend

variable {N : Type} [NodeStore N] {opRef : OperationId → Ref}

/-- Whatever is pending is in the log. -/
def PendingLogged (s : Backend N opRef) : Prop := ∀ ref ∈ s.pendingRefs, s.doc.Serves ref

/-- A filter on children lists what the log has. -/
theorem listOpRefs_children {s s' : Backend N opRef} {parent : NodeId}
    {r : Except Error (List Ref)} (hs : s.doc.Named)
    (hrun : listOpRefs (.children parent) s = some (r, s')) :
    s'.doc.Named ∧ ∀ refs, r = .ok refs → ∀ ref ∈ refs, s'.doc.Serves ref := by
  obtain ⟨e, hlist, rfl⟩ | ⟨refs, s₁, hlist, hrun⟩ := bind_some hrun
  · obtain ⟨doc₁, hdoc₁, rfl⟩ := zoom_some hlist
    exact ⟨(SqliteDoc.opRefsChildren_serves hs hdoc₁).1.named, fun _ h => nomatch h⟩
  obtain ⟨doc₁, hdoc₁, rfl⟩ := zoom_some hlist
  obtain ⟨hover₁, hrefs⟩ := SqliteDoc.opRefsChildren_serves hs hdoc₁
  obtain ⟨e, hwriter, rfl⟩ | ⟨writer, s₂, hwriter, hrun⟩ := bind_some hrun
  · obtain ⟨doc₂, hdoc₂, rfl⟩ := zoom_some hwriter
    exact ⟨(SqliteDoc.payloadWriter_serves hover₁.named hdoc₂).1.named, fun _ h => nomatch h⟩
  obtain ⟨doc₂, hdoc₂, rfl⟩ := zoom_some hwriter
  obtain ⟨hover₂, hserves⟩ := SqliteDoc.payloadWriter_serves hover₁.named hdoc₂
  -- The second read leaves the log as the first one saw it.
  have hsame : ∀ ref ∈ refs, SqliteDoc.Serves doc₂ ref := by
    intro ref href
    obtain ⟨op, hop, heq⟩ := hrefs refs rfl ref href
    exact ⟨op, hover₂.1 ▸ hop, heq⟩
  cases writer with
  | none =>
    cases hrun
    exact ⟨hover₂.named, fun refs' h => Except.ok.inj h ▸ hsame⟩
  | some writer =>
    cases hrun
    refine ⟨hover₂.named, fun refs' h => ?_⟩
    obtain rfl := Except.ok.inj h
    split
    · exact hsame
    · intro ref href
      obtain href | href := List.mem_append.mp href
      · exact hsame ref href
      · obtain rfl := List.mem_singleton.mp href
        exact hserves _ rfl

theorem run_named {action : Action} {s s' : Backend N opRef} {r : Except Error Unit}
    (hs : s.doc.Named) (hrun : run action s = some (r, s')) : s'.doc.Named := by
  cases action with
  | applyOps ops =>
    obtain ⟨doc, hdoc, rfl⟩ := zoom_some (show onDoc (SqliteDoc.appendOps ops) s = _ from hrun)
    exact SqliteDoc.appendOps_named hs hdoc
  | localOp replica call =>
    have hkeeps : ∀ {r' : Except Error Operation} {s₁ : Backend N opRef},
        onDoc (SqliteDoc.runLocalCoreOp replica call) s = some (r', s₁) → s₁.doc.Named := by
      intro r' s₁ hlocal
      obtain ⟨doc, hdoc, rfl⟩ := zoom_some hlocal
      exact SqliteDoc.runLocalCoreOp_named hs hdoc
    obtain ⟨e, hlocal, -⟩ | ⟨op, s₁, hlocal, hend⟩ := bind_some hrun
    · exact hkeeps hlocal
    · cases hend
      exact hkeeps hlocal
  | listOpRefs filter =>
    have hkeeps : ∀ {r' : Except Error (List Ref)} {s₁ : Backend N opRef},
        listOpRefs filter s = some (r', s₁) → s₁.doc.Named := by
      intro r' s₁ hlist
      cases filter with
      | all =>
        cases hlist
        exact hs
      | children parent => exact (listOpRefs_children hs hlist).1
    obtain ⟨e, hlist, -⟩ | ⟨refs, s₁, hlist, hend⟩ := bind_some hrun
    · exact hkeeps hlist
    · cases hend
      exact hkeeps hlist
  | storePendingOps ps =>
    cases hrun
    exact ⟨hs.payloads, hs.index⟩
  | deletePendingOps ops =>
    cases hrun
    exact ⟨hs.payloads, hs.index⟩

theorem Run.named {s₀ s : Backend N opRef} (hrun : Run s₀ s) (hs₀ : s₀.doc.Named) :
    s.doc.Named := by
  induction hrun with
  | start => exact hs₀
  | step _ hstep ih => exact run_named ih hstep

theorem mem_all {s : Backend N opRef} {refs : List Ref} {s' : Backend N opRef}
    (hrun : listOpRefs .all s = some (.ok refs, s')) :
    s' = s ∧ ∀ ref, ref ∈ refs ↔ ref ∈ s.doc.opRefsAll ∨ ref ∈ s.pendingRefs := by
  obtain ⟨hrefs, rfl⟩ := Prod.mk.inj (Option.some.inj hrun)
  obtain rfl := Except.ok.inj hrefs
  refine ⟨rfl, fun ref => ?_⟩
  dsimp only
  split
  · rename_i hempty
    simp [List.isEmpty_iff.mp hempty]
  · simp

theorem servable_iff_of_named {s : Backend N opRef} (hs : s.doc.Named) :
    s.Servable ↔ s.PendingLogged := by
  constructor
  · intro hserved ref href
    have hall : ∃ refs, listOpRefs .all s = some (.ok refs, s) := ⟨_, rfl⟩
    obtain ⟨refs, hlist⟩ := hall
    have hmem := ((mem_all hlist).2 ref).mpr (Or.inr href)
    exact SqliteDoc.opsGet_iff.mp (hserved .all refs s hlist refs (List.Subset.refl _)) ref hmem
  · intro hpending filter refs s' hlist wanted hwanted
    refine SqliteDoc.opsGet_iff.mpr fun ref href => ?_
    cases filter with
    | all =>
      obtain ⟨rfl, hmem⟩ := mem_all hlist
      obtain hlog | hpend := (hmem ref).mp (hwanted href)
      · exact SqliteDoc.serves_opRefsAll hlog
      · exact hpending ref hpend
    | children parent => exact (listOpRefs_children hs hlist).2 refs rfl ref (hwanted href)

omit [NodeStore N] [DecidableEq Ref] in
theorem new_named (nodes : N) : (SqliteDoc.new opRef nodes).Named :=
  ⟨fun _ _ h => (nomatch h), fun _ h => nomatch h⟩

def sampleOpRef (id : OperationId) : Bytes :=
  deriveOpRefV0 (sampleCrypto []) "d" ⟨id.replica.bytes, id.counter.toNat⟩

def freshBackend : Backend MemoryNodeStore sampleOpRef :=
  ⟨SqliteDoc.new sampleOpRef .default, some .empty⟩

def waitingOp : PendingOp Operation OpAuth :=
  ⟨.delete ⟨authorKey⟩ 1 1 ⟨5⟩ (some .new), ⟨[1], none⟩⟩

end Backend

end Sync

end Treecrdt
