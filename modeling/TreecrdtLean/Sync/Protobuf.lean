import TreecrdtLean.Auth.Claims
import TreecrdtLean.Auth.CoseCwt
import TreecrdtLean.Auth.OpSig

/-!
# Messages and their protobuf form (`types.ts`, `protobuf.ts`)

`Proto` has the messages of the schemas, where a message-typed field may be absent and a oneof may
have no case; those whose fields are the same on both sides are not repeated. What the protobuf
runtime makes of them on the wire is no part of it: `toBinary` and `fromBinary` are parameters.
-/

namespace Treecrdt

namespace Sync

namespace V0

open Auth Interface

/-! ## Messages -/

inductive ErrorCode where
  | unspecified
  | unsupportedVersion
  | filterNotSupported
  | tooManyFilters
  | reconciliationDecodeFailed
  | rateLimited
  | docNotFound
  | unauthorized
  /-- A number that the schema does not know is kept. -/
  | unknown (number : Int32)
  deriving DecidableEq

inductive RibltFailureReason where
  | unspecified
  | maxCodewordsExceeded
  | decodeFailed
  | outOfOrder
  | unknown (number : Int32)
  deriving DecidableEq

inductive Filter where
  | all
  | children (parent : Bytes)
  deriving DecidableEq

structure FilterSpec where
  id : String
  filter : Filter
  deriving DecidableEq

structure Capability where
  name : String
  value : String
  deriving DecidableEq

structure Hello where
  capabilities : List Capability
  filters : List FilterSpec
  maxLamport : UInt64
  deriving DecidableEq

structure RejectedFilter where
  id : String
  reason : ErrorCode
  message : Option String
  deriving DecidableEq

structure HelloAck where
  capabilities : List Capability
  acceptedFilters : List String
  rejectedFilters : List RejectedFilter
  maxLamport : UInt64
  deriving DecidableEq

structure RibltCodeword where
  count : Int32
  keySum : Bytes
  valueSum : Bytes
  deriving DecidableEq

structure RibltCodewords where
  filterId : String
  round : UInt32
  startIndex : UInt64
  codewords : List RibltCodeword
  deriving DecidableEq

structure RibltMore where
  codewordsReceived : UInt64
  credits : UInt32
  deriving DecidableEq

structure RibltDecoded where
  senderMissing : List Bytes
  receiverMissing : List Bytes
  codewordsReceived : UInt64
  deriving DecidableEq

structure RibltFailed where
  reason : RibltFailureReason
  message : Option String
  deriving DecidableEq

inductive RibltStatusPayload where
  | more (value : RibltMore)
  | decoded (value : RibltDecoded)
  | failed (value : RibltFailed)
  deriving DecidableEq

structure RibltStatus where
  filterId : String
  round : UInt32
  payload : RibltStatusPayload
  deriving DecidableEq

structure OpsBatch where
  filterId : String
  ops : List Interface.Operation
  auth : Option (List OpAuth)
  done : Bool
  deriving DecidableEq

structure Subscribe where
  subscriptionId : String
  filter : Filter
  deriving DecidableEq

structure SubscribeAck where
  subscriptionId : String
  currentLamport : UInt64
  deriving DecidableEq

structure Unsubscribe where
  subscriptionId : String
  deriving DecidableEq

structure SyncError where
  code : ErrorCode
  message : String
  filterId : Option String
  subscriptionId : Option String
  deriving DecidableEq

inductive SyncMessagePayload where
  | hello (value : Hello)
  | helloAck (value : HelloAck)
  | ribltCodewords (value : RibltCodewords)
  | ribltStatus (value : RibltStatus)
  | opsBatch (value : OpsBatch)
  | subscribe (value : Subscribe)
  | subscribeAck (value : SubscribeAck)
  | unsubscribe (value : Unsubscribe)
  | error (value : SyncError)
  deriving DecidableEq

/-- A message; its `v` has the literal type `0`. -/
structure SyncMessage where
  docId : String
  payload : SyncMessagePayload
  deriving DecidableEq

/-! ## Schemas (`docs/sync/v0`) -/

namespace Proto

/-- `NodeId`, `ReplicaId` and `OpRef`. -/
structure BytesField where
  bytes : Bytes

structure OperationId where
  replica : Option BytesField
  counter : UInt64

structure OperationMetadata where
  id : Option OperationId
  lamport : UInt64
  knownState : Bytes

inductive PayloadValue where
  | clear
  | payload (bytes : Bytes)

inductive OperationKind where
  | insert (parent node : Option BytesField) (orderKey : Bytes) (payload : Option Bytes)
  | move (node newParent : Option BytesField) (orderKey : Bytes)
  | delete (node : Option BytesField)
  | tombstone (node : Option BytesField)
  | payload (node : Option BytesField) (value : Option PayloadValue)

structure Operation where
  metadata : Option OperationMetadata
  kind : Option OperationKind

inductive FilterKind where
  | all
  | children (parent : Option BytesField)

structure Filter where
  kind : Option FilterKind

structure FilterSpec where
  id : String
  filter : Option Filter

structure Hello where
  capabilities : List Capability
  filters : List FilterSpec
  maxLamport : UInt64

structure RejectedFilter where
  id : String
  reason : ErrorCode
  message : String

structure HelloAck where
  capabilities : List Capability
  acceptedFilters : List String
  rejectedFilters : List RejectedFilter
  maxLamport : UInt64

structure RibltDecoded where
  senderMissing : List BytesField
  receiverMissing : List BytesField
  codewordsReceived : UInt64

structure RibltFailed where
  reason : RibltFailureReason
  message : String

inductive RibltStatusPayload where
  | more (value : RibltMore)
  | decoded (value : RibltDecoded)
  | failed (value : RibltFailed)

structure RibltStatus where
  filterId : String
  round : UInt32
  payload : Option RibltStatusPayload

structure OpAuth where
  sig : Bytes
  proofRef : Bytes

structure OpsBatch where
  filterId : String
  ops : List Operation
  auth : List OpAuth
  done : Bool

structure Subscribe where
  subscriptionId : String
  filter : Option Filter

structure SyncError where
  code : ErrorCode
  message : String
  filterId : String
  subscriptionId : String

inductive SyncMessagePayload where
  | hello (value : Hello)
  | helloAck (value : HelloAck)
  | ribltCodewords (value : RibltCodewords)
  | ribltStatus (value : RibltStatus)
  | opsBatch (value : OpsBatch)
  | subscribe (value : Subscribe)
  | subscribeAck (value : SubscribeAck)
  | unsubscribe (value : Unsubscribe)
  | error (value : SyncError)

structure SyncMessage where
  v : UInt32
  docId : String
  payload : Option SyncMessagePayload

end Proto

/-! ## Encoding -/

def u64ToNumber (v : UInt64) (field : String) : Except String ℤ :=
  if (v.toNat : ℤ) > MAX_SAFE_INTEGER then
    .error (field ++ " too large for number: " ++ toString v.toNat)
  else .ok v.toNat

def u64FromNumber (v : ℤ) (field : String) : Except String UInt64 :=
  if v > MAX_SAFE_INTEGER ∨ v < 0 then
    .error (field ++ " must be a safe non-negative integer, got: " ++ toString v)
  else .ok (UInt64.ofNat v.toNat)

def toProtoOpRef (opRef : Bytes) : Proto.BytesField := ⟨opRef⟩

def toProtoFilter : Filter → Proto.Filter
  | .all => ⟨some .all⟩
  | .children parent => ⟨some (.children (some ⟨parent⟩))⟩

def toProtoHello (hello : Hello) : Proto.Hello :=
  ⟨hello.capabilities, hello.filters.map fun spec => ⟨spec.id, some (toProtoFilter spec.filter)⟩,
    hello.maxLamport⟩

def toProtoHelloAck (ack : HelloAck) : Proto.HelloAck :=
  ⟨ack.capabilities, ack.acceptedFilters,
    ack.rejectedFilters.map fun rej => ⟨rej.id, rej.reason, rej.message.getD ""⟩, ack.maxLamport⟩

/-- `create(NodeIdSchema, { bytes: nodeIdToBytes16(node) })`. -/
def toProtoNodeId (node : Interface.NodeId) : Except String (Option Proto.BytesField) := do
  return some ⟨← nodeIdToBytes16 node⟩

def toProtoOperationKind : Interface.OperationKind → Except String Proto.OperationKind
  | .insert parent node orderKey payload => do
    return .insert (← toProtoNodeId parent) (← toProtoNodeId node) orderKey payload
  | .move node newParent orderKey => do
    return .move (← toProtoNodeId node) (← toProtoNodeId newParent) orderKey
  | .delete node => return .delete (← toProtoNodeId node)
  | .tombstone node => return .tombstone (← toProtoNodeId node)
  | .payload node payload => do
    return .payload (← toProtoNodeId node) (some (payload.elim .clear .payload))

/-- Is the operation a delete? -/
def isDelete : Interface.OperationKind → Bool
  | .delete _ => true
  | _ => false

def toProtoOperation (op : Interface.Operation) : Except String Proto.Operation := do
  throwIf (isDelete op.kind ∧ (op.metadata.knownState.getD []).isEmpty)
    "Delete operations require meta.knownState"
  let replica ← replicaIdToBytes op.metadata.id.replica
  let counter ← u64FromNumber op.metadata.id.counter "OperationId.counter"
  let lamport ← u64FromNumber op.metadata.lamport "OperationMetadata.lamport"
  let kind ← toProtoOperationKind op.kind
  return ⟨some ⟨some ⟨some ⟨replica⟩, counter⟩, lamport, op.metadata.knownState.getD []⟩,
    some kind⟩

def toProtoOpAuth (auth : OpAuth) : Proto.OpAuth := ⟨auth.sig, auth.proofRef.getD []⟩

def toProtoOpsBatch (batch : OpsBatch) : Except String Proto.OpsBatch := do
  let ops ← batch.ops.mapM toProtoOperation
  return ⟨batch.filterId, ops, (batch.auth.getD []).map toProtoOpAuth, batch.done⟩

def toProtoSubscribe (sub : Subscribe) : Proto.Subscribe :=
  ⟨sub.subscriptionId, some (toProtoFilter sub.filter)⟩

def toProtoRibltStatus (status : RibltStatus) : Proto.RibltStatus :=
  ⟨status.filterId, status.round, some <|
    match status.payload with
    | .more value => .more value
    | .decoded value =>
      .decoded ⟨value.senderMissing.map toProtoOpRef, value.receiverMissing.map toProtoOpRef,
        value.codewordsReceived⟩
    | .failed value => .failed ⟨value.reason, value.message.getD ""⟩⟩

def toProtoSyncError (err : SyncError) : Proto.SyncError :=
  ⟨err.code, err.message, err.filterId.getD "", err.subscriptionId.getD ""⟩

/-- The message that `encodeTreecrdtSyncV0` creates. -/
def toProtoMessage (msg : SyncMessage) : Except String Proto.SyncMessage := do
  let payload ← match msg.payload with
    | .hello value => pure (.hello (toProtoHello value))
    | .helloAck value => pure (.helloAck (toProtoHelloAck value))
    | .ribltCodewords value => pure (.ribltCodewords value)
    | .ribltStatus value => pure (.ribltStatus (toProtoRibltStatus value))
    | .opsBatch value => do pure (.opsBatch (← toProtoOpsBatch value))
    | .subscribe value => pure (.subscribe (toProtoSubscribe value))
    | .subscribeAck value => pure (.subscribeAck value)
    | .unsubscribe value => pure (.unsubscribe value)
    | .error value => pure (.error (toProtoSyncError value))
  return ⟨0, msg.docId, some payload⟩

def encodeTreecrdtSyncV0 (toBinary : Proto.SyncMessage → Bytes) (msg : SyncMessage) :
    Except String Bytes := do
  return toBinary (← toProtoMessage msg)

/-! ## Decoding -/

def nodeIdFromBytes16 (bytes : Bytes) : Except String Interface.NodeId :=
  if bytes.length ≠ 16 then .error ("NodeId must be 16 bytes, got " ++ toString bytes.length)
  else .ok (bytesToHex bytes)

/-- Both directions are `assertReplicaIdBytes`. -/
def replicaIdFromBytes (bytes : Bytes) : Except String Bytes := replicaIdToBytes bytes

/-- A text or an id that is empty is absent. -/
def textOf (text : String) : Option String := if text.length > 0 then some text else none

def fromProtoOpRef (opRef : Proto.BytesField) : Bytes := opRef.bytes

def fromProtoFilter (filter : Proto.Filter) : Except String Filter :=
  match filter.kind with
  | some .all => return .all
  | some (.children (some parent)) => return .children parent.bytes
  | some (.children none) => .error "Filter.children.parent missing"
  | none => .error "Filter: missing kind"

def fromProtoFilterSpec (spec : Proto.FilterSpec) : Except String FilterSpec :=
  match spec.filter with
  | none => .error "Hello.FilterSpec missing filter"
  | some filter => do return ⟨spec.id, ← fromProtoFilter filter⟩

def fromProtoHello (hello : Proto.Hello) : Except String Hello := do
  return ⟨hello.capabilities, ← hello.filters.mapM fromProtoFilterSpec, hello.maxLamport⟩

def fromProtoHelloAck (ack : Proto.HelloAck) : HelloAck :=
  ⟨ack.capabilities, ack.acceptedFilters,
    ack.rejectedFilters.map fun rej => ⟨rej.id, rej.reason, textOf rej.message⟩, ack.maxLamport⟩

def fromProtoOperationKind (knownState : Bytes) :
    Option Proto.OperationKind → Except String Interface.OperationKind
  | some (.insert (some parent) (some node) orderKey payload) => do
    return .insert (← nodeIdFromBytes16 parent.bytes) (← nodeIdFromBytes16 node.bytes) orderKey
      payload
  | some (.insert ..) => .error "InsertOp missing node ids"
  | some (.move (some node) (some newParent) orderKey) => do
    return .move (← nodeIdFromBytes16 node.bytes) (← nodeIdFromBytes16 newParent.bytes) orderKey
  | some (.move ..) => .error "MoveOp missing node ids"
  | some (.delete (some node)) => do
    throwIf knownState.isEmpty "DeleteOp missing knownState"
    return .delete (← nodeIdFromBytes16 node.bytes)
  | some (.delete none) => .error "DeleteOp missing node id"
  | some (.tombstone (some node)) => return .tombstone (← nodeIdFromBytes16 node.bytes)
  | some (.tombstone none) => .error "TombstoneOp missing node id"
  | some (.payload (some node) (some .clear)) =>
    return .payload (← nodeIdFromBytes16 node.bytes) none
  | some (.payload (some node) (some (.payload bytes))) =>
    return .payload (← nodeIdFromBytes16 node.bytes) (some bytes)
  | some (.payload (some _) none) => .error "PayloadOp missing value"
  | some (.payload none _) => .error "PayloadOp missing node id"
  | none => .error "Operation: missing kind"

def fromProtoOperation (op : Proto.Operation) : Except String Interface.Operation := do
  -- With a replica there is a counter and a Lamport time.
  match op.metadata with
  | some ⟨some ⟨some replica, counter⟩, lamport, knownState⟩ =>
    let replica ← replicaIdFromBytes replica.bytes
    let counter ← u64ToNumber counter "OperationId.counter"
    let lamport ← u64ToNumber lamport "OperationMetadata.lamport"
    let kind ← fromProtoOperationKind knownState op.kind
    return ⟨⟨⟨replica, counter⟩, lamport, if knownState.isEmpty then none else some knownState⟩,
      kind⟩
  | _ => .error "Operation.meta.id.replica missing"

def fromProtoOpAuth (auth : Proto.OpAuth) : OpAuth :=
  ⟨auth.sig, if auth.proofRef.isEmpty then none else some auth.proofRef⟩

def fromProtoOpsBatch (batch : Proto.OpsBatch) : Except String OpsBatch := do
  let ops ← batch.ops.mapM fromProtoOperation
  return ⟨batch.filterId, ops,
    if batch.auth.isEmpty then none else some (batch.auth.map fromProtoOpAuth), batch.done⟩

def fromProtoSubscribe (sub : Proto.Subscribe) : Except String Subscribe :=
  match sub.filter with
  | none => .error "Subscribe.filter missing"
  | some filter => do return ⟨sub.subscriptionId, ← fromProtoFilter filter⟩

def fromProtoRibltStatus (status : Proto.RibltStatus) : RibltStatus :=
  ⟨status.filterId, status.round,
    match status.payload with
    | some (.more value) => .more value
    | some (.decoded value) =>
      .decoded ⟨value.senderMissing.map fromProtoOpRef, value.receiverMissing.map fromProtoOpRef,
        value.codewordsReceived⟩
    | some (.failed value) => .failed ⟨value.reason, textOf value.message⟩
    | none => .failed ⟨.decodeFailed, none⟩⟩

def fromProtoSyncError (err : Proto.SyncError) : SyncError :=
  ⟨err.code, err.message, textOf err.filterId, textOf err.subscriptionId⟩

/-- What `decodeTreecrdtSyncV0` makes of a message. -/
def fromProtoMessage (msg : Proto.SyncMessage) : Except String SyncMessage := do
  throwIf (msg.v ≠ 0) ("decodeTreecrdtSyncV0: unsupported version: " ++ toString msg.v.toNat)
  let payload ← match msg.payload with
    | some (.hello value) => do pure (.hello (← fromProtoHello value))
    | some (.helloAck value) => pure (.helloAck (fromProtoHelloAck value))
    | some (.ribltCodewords value) => pure (.ribltCodewords value)
    | some (.ribltStatus value) => pure (.ribltStatus (fromProtoRibltStatus value))
    | some (.opsBatch value) => do pure (.opsBatch (← fromProtoOpsBatch value))
    | some (.subscribe value) => do pure (.subscribe (← fromProtoSubscribe value))
    | some (.subscribeAck value) => pure (.subscribeAck value)
    | some (.unsubscribe value) => pure (.unsubscribe value)
    | some (.error value) => pure (.error (fromProtoSyncError value))
    | none => .error "decodeTreecrdtSyncV0: unsupported payload: undefined"
  return ⟨msg.docId, payload⟩

def decodeTreecrdtSyncV0 (fromBinary : Bytes → Except String Proto.SyncMessage) (bytes : Bytes) :
    Except String SyncMessage := do
  fromProtoMessage (← fromBinary bytes)

end V0

end Sync

end Treecrdt
