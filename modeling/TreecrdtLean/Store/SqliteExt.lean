import TreecrdtLean.Store.Rows

/-!
# The operation log of the SQLite extension (`treecrdt-sqlite-ext`)

An operation goes through three hand-written mappings: into the arguments or the JSON of an append
(`Entry.append`), into a row of the log (`row`), and out of the row again, for a rebuild (`loadSince`)
or for another peer (`readRow`).
-/

namespace Treecrdt

namespace SqliteExt

/-! ## SQLite -/

/-- `sqlite_column_blob`, `sqlite_value_blob`: the null pointer for `NULL` and for zero bytes. -/
def blob : Option Bytes → Option Bytes
  | some [] => none
  | value => value

def SQLITE_ERROR : Error := .storage "SQLITE_ERROR"

def columnBlob16 : Option Bytes → Except Error (Option NodeId)
  | none => return none
  | some bytes => if bytes.length = 16 then return some (nodeOfBytes bytes) else throw SQLITE_ERROR

/-! ## Appending -/

/-- An operation as JSON: `JsonAppendOp` where it is appended, `JsonOp` where it is served. -/
structure JsonOp where
  replica : Bytes
  counter : UInt64
  lamport : Lamport
  kind : String
  parent : Option Bytes
  node : Bytes
  newParent : Option Bytes
  orderKey : Option Bytes
  knownState : Option Bytes
  payload : Option Bytes
  deriving DecidableEq

/-- The arguments of `treecrdt_append_op`. -/
structure AppendArgs where
  replica : Bytes
  counter : Int64
  lamport : Int64
  kind : String
  parent : Option Bytes
  node : Option Bytes
  newParent : Option Bytes
  orderKey : Option Bytes
  knownStateOrPayload : Option Bytes

def buildAppendOp (json : Json) (op : Operation) : Except Error AppendArgs :=
  let knownState := op.metadata.knownState.map json.toVec
  let args (kind : String) (parent : Option NodeId) (node : NodeId) (newParent : Option NodeId)
      (orderKey last : Option Bytes) : AppendArgs :=
    { replica := op.metadata.id.replica.bytes
      counter := op.metadata.id.counter.toInt64
      lamport := op.metadata.lamport.toInt64
      kind, parent := parent.map nodeToBytes, node := some (nodeToBytes node)
      newParent := newParent.map nodeToBytes, orderKey, knownStateOrPayload := last }
  match op.kind with
  | .insert parent node orderKey payload =>
    return args "insert" (some parent) node none (some orderKey) payload
  | .move node newParent orderKey =>
    return args "move" none node (some newParent) (some orderKey) none
  | .delete node =>
    if (knownState.getD []).isEmpty then
      throw (.invalidOperation "treecrdt: delete operations require meta.knownState")
    else return args "delete" none node none none knownState
  | .tombstone node => return args "tombstone" none node none none knownState
  | .payload node payload => return args "payload" none node none none payload

/-- `treecrdt_append_op`, up to `append_ops_impl`. -/
def treecrdtAppendOp (args : AppendArgs) : Except Error JsonOp := do
  let some replica := blob (some args.replica)
    | throw (.storage "treecrdt_append_op: NULL replica")
  if args.counter < 0 then
    throw (.storage "treecrdt_append_op: counter must be >= 0")
  let some node := blob args.node | throw (.storage "treecrdt_append_op: NULL node")
  let orderKey := blob args.orderKey
  let last := blob args.knownStateOrPayload
  let (knownState, payload) := match args.kind with
    | "delete" => (last, none)
    | "payload" => (none, last)
    | "insert" => (none, last)
    | _ => (last, none)
  if args.kind = "delete" ∧ (knownState.getD []).isEmpty then
    throw (.storage "treecrdt_append_op: delete op missing known_state")
  if args.kind = "delete" ∧ node.length ≠ 16 then
    throw (.storage "treecrdt_append_op: delete node must be 16-byte BLOB")
  if (args.kind = "insert" ∨ args.kind = "move") ∧ orderKey.isNone then
    throw (.storage "treecrdt_append_op: insert/move op missing order_key")
  return { replica, counter := args.counter.toUInt64, lamport := maxZero args.lamport
           kind := args.kind, parent := blob args.parent, node
           newParent := blob args.newParent, orderKey, knownState, payload }

def buildAppendOpsPayload (json : Json) (op : Operation) : JsonOp :=
  let knownState := (op.metadata.knownState.map json.toVec).filter fun bytes => !bytes.isEmpty
  let base (kind : String) (parent : Option NodeId) (node : NodeId) (newParent : Option NodeId)
      (orderKey payload : Option Bytes) : JsonOp :=
    { replica := op.metadata.id.replica.bytes
      counter := op.metadata.id.counter
      lamport := op.metadata.lamport
      kind, parent := parent.map nodeToBytes, node := nodeToBytes node
      newParent := newParent.map nodeToBytes, orderKey, knownState, payload }
  match op.kind with
  | .insert parent node orderKey payload =>
    base "insert" (some parent) node none (some orderKey) payload
  | .move node newParent orderKey => base "move" none node (some newParent) (some orderKey) none
  | .delete node => base "delete" none node none none none
  | .tombstone node => base "tombstone" none node none none none
  | .payload node payload => base "payload" none node none none payload

/-- `treecrdt_append_ops`, up to `append_ops_impl`. -/
def treecrdtAppendOps (op : JsonOp) : Except Error JsonOp := do
  if op.kind = "delete" ∧ (op.knownState.getD []).isEmpty then
    throw (.storage "treecrdt_append_ops: delete op missing known_state")
  if (op.kind = "insert" ∨ op.kind = "move") ∧ op.orderKey.isNone then
    throw (.storage "treecrdt_append_ops: insert/move op missing order_key")
  return op

def parseNodeId (bytes : Bytes) : Except Error NodeId :=
  if bytes.length = 16 then return nodeOfBytes bytes else throw SQLITE_ERROR

def parseOptionalNodeId : Option Bytes → Except Error (Option NodeId)
  | some bytes => return some (← parseNodeId bytes)
  | none => return none

/-- `value.ok_or(SQLITE_ERROR)`. -/
def orError {α : Type} : Option α → Except Error α
  | some value => return value
  | none => throw SQLITE_ERROR

def deserializeVersionVector (json : Json) (bytes : Bytes) : Except Error VersionVector :=
  (json.fromSlice bytes).mapError fun _ => SQLITE_ERROR

/-- The kind of the operation, and the known state that goes with it. -/
def jsonKind (op : JsonOp) (parent : Option NodeId) (node : NodeId) (newParent : Option NodeId)
    (parsedKnownState : Option VersionVector) :
    Except Error (OperationKind × Option VersionVector) :=
  match op.kind with
  | "insert" => do
    return (.insert (← orError parent) node (← orError op.orderKey) op.payload, none)
  | "move" => do return (.move node (← orError newParent) (← orError op.orderKey), none)
  | "delete" => do return (.delete node, some (← orError parsedKnownState))
  | "tombstone" => return (.tombstone node, parsedKnownState)
  | "payload" => return (.payload node op.payload, none)
  | _ => throw SQLITE_ERROR

def jsonAppendOpToOperation (json : Json) (op : JsonOp) : Except Error Operation := do
  let node ← parseNodeId op.node
  let parent ← parseOptionalNodeId op.parent
  let newParent ← parseOptionalNodeId op.newParent
  let parsedKnownState ← readKnownState (deserializeVersionVector json) op.knownState
  let kind ← jsonKind op parent node newParent parsedKnownState
  return ⟨⟨⟨⟨op.replica⟩, op.counter⟩, op.lamport, kind.2⟩, kind.1⟩

/-- The functions that append operations. -/
inductive Entry where
  | appendOp
  | appendOps

/-- The operation that is stored and materialized when one is appended. -/
def Entry.append (json : Json) : Entry → Operation → Except Error Operation
  | .appendOp, op => do
    jsonAppendOpToOperation json (← treecrdtAppendOp (← buildAppendOp json op))
  | .appendOps, op => do
    jsonAppendOpToOperation json (← treecrdtAppendOps (buildAppendOpsPayload json op))

/-! ## The row -/

/-- What `SqliteOpStorage::apply` binds. -/
def row (json : Json) (op : Operation) : OpRow :=
  let knownState := op.metadata.knownState.map json.toVec
  let bind (kind : String) (parent : Option NodeId) (node : NodeId) (newParent : Option NodeId)
      (orderKey knownState payload : Option Bytes) : OpRow :=
    { replica := op.metadata.id.replica.bytes
      counter := op.metadata.id.counter.toInt64
      lamport := op.metadata.lamport.toInt64
      kind, parent := parent.map nodeToBytes, node := nodeToBytes node
      newParent := newParent.map nodeToBytes, orderKey, knownState, payload }
  match op.kind with
  | .insert parent node orderKey payload =>
    bind "insert" (some parent) node none (some orderKey) none payload
  | .move node newParent orderKey => bind "move" none node (some newParent) (some orderKey) none none
  | .delete node => bind "delete" none node none none knownState none
  | .tombstone node => bind "tombstone" none node none none knownState none
  | .payload node payload => bind "payload" none node none none none payload

/-! ## Reading the row -/

/-- The kind of a row, as `load_since` and `scan_since` put it together. -/
def rowKind (row : OpRow) (parent : Option NodeId) (node : NodeId) (newParent : Option NodeId) :
    Except Error OperationKind :=
  let orderKey := (blob row.orderKey).getD []
  let payload := blob row.payload
  match row.kind with
  | "insert" => do return .insert (← orError parent) node orderKey payload
  | "move" => do return .move node (← orError newParent) orderKey
  | "delete" => return .delete node
  | "tombstone" => return .tombstone node
  | "payload" => return .payload node payload
  | _ => throw (.storage "unknown op kind")

/-- A row of `load_since` or `scan_since`; one with a null replica is skipped. -/
def readOp (json : Json) (row : OpRow) : Except Error (Option Operation) := do
  let some replica := blob (some row.replica) | return none
  let parent ← columnBlob16 row.parent
  let node ← orError (← columnBlob16 (some row.node))
  let newParent ← columnBlob16 row.newParent
  let knownState ← readKnownState json.vvFromBytes row.knownState
  let kind ← rowKind row parent node newParent
  return some ⟨⟨⟨⟨replica⟩, maxZero row.counter⟩, maxZero row.lamport, knownState⟩, kind⟩

/-- `load_since` and `scan_since`. -/
def loadSince (json : Json) (rows : List OpRow) (lamport : Lamport) :
    Except Error (List Operation) :=
  scanRows (readOp json) rows lamport.toInt64

/-- `read_row`. -/
def readRow (row : OpRow) : Except Error JsonOp := do
  let some replica := blob (some row.replica) | throw SQLITE_ERROR
  let parent ← columnBlob16 row.parent
  let node ← orError (← columnBlob16 (some row.node))
  let newParent ← columnBlob16 row.newParent
  return { replica, counter := row.counter.toUInt64, lamport := row.lamport.toUInt64
           kind := row.kind, parent := parent.map nodeToBytes, node := nodeToBytes node
           newParent := newParent.map nodeToBytes, orderKey := blob row.orderKey
           knownState := blob row.knownState, payload := blob row.payload }

end SqliteExt

end Treecrdt
