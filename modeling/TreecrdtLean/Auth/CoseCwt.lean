import TreecrdtLean.Lib.OrderedMap
import TreecrdtLean.Auth.RevocationRecord

/-!
# The auth of a peer (`cose-cwt-auth.ts`)

A peer records the grants of the tokens it is shown and the revocations of tokens. A token is
verified with its whole chain when it is recorded; an operation is verified against the recorded
grants of its author.

A method of the peer is an `Exec` over `AuthState`: what it wrote before an exception stays. The
clock and the tree may be others at every call (`World`). The value of a capability is base64url
on the wire, which reads any string; here it is the bytes.
-/

namespace Treecrdt

namespace Auth

open Exec Interface

structure Capability where
  name : String
  value : Bytes
  deriving DecidableEq

def AUTH_CAPABILITY_NAME : String := "auth.capability"

def AUTH_REPLAY_CAPABILITY_NAME : String := "auth.capability.replay"

def TREECRDT_REVOCATION_CAPABILITY : String := "auth.revocation"

def isReplayAuthCapability (cap : Capability) : Bool := cap.name = AUTH_REPLAY_CAPABILITY_NAME

def isAnyAuthCapability (cap : Capability) : Bool :=
  cap.name = AUTH_CAPABILITY_NAME || isReplayAuthCapability cap

/-- `message.includes(fragment)`. -/
def includes (message fragment : String) : Bool := fragment.toList <:+: message.toList

def bytesToHex (b : Bytes) : String :=
  String.ofList (b.flatMap fun byte => [Nat.digitChar (byte.toNat / 16), Nat.digitChar (byte.toNat % 16)])

structure OpAuth where
  sig : Bytes
  proofRef : Option Bytes
  deriving DecidableEq

/-! ## Options and state -/

/-- What a revocation hook is asked. -/
inductive RevocationCheck where
  | parse (ctx : RevocationCheckContext)
  | runtime (tokenId : Bytes) (docId : String) (op : Interface.Operation)

structure AuthOptions where
  issuerPublicKeys : List Bytes
  localCapabilityTokens : List Bytes
  localRevocationRecords : List Bytes
  revokedCapabilityTokenIds : Option (List Bytes)
  isCapabilityTokenRevoked : Option (RevocationCheck → Bool)
  allowUnsigned : Bool
  requireProofRef : Bool

/-- The clock and the tree at a call. -/
structure World where
  nowSec : Rat
  scopeEvaluator : Option ScopeEvaluator

structure AuthState where
  grantsByKeyId : OrderedMap Bytes (OrderedMap Bytes CapabilityGrant)
  replayAuthCapabilities : List Bytes
  revocationByToken : OrderedMap Bytes RevocationEntry
  localTokensRecordedForDoc : Option String
  localRevocationsRecordedForDoc : Option String
  capabilityStoreLoadedForDoc : Option String
  /-- What the capability store holds, if there is one. -/
  capabilityStore : Option (List Capability)

/-- A peer that was just made, over a store. -/
def AuthState.start (capabilityStore : Option (List Capability)) : AuthState where
  grantsByKeyId := .empty
  replayAuthCapabilities := []
  revocationByToken := .empty
  localTokensRecordedForDoc := none
  localRevocationsRecordedForDoc := none
  capabilityStoreLoadedForDoc := none
  capabilityStore := capabilityStore

/-- A call that may throw and writes nothing. -/
def attempt {α : Type} (x : Except String α) : Exec String AuthState α := getsE fun _ => x

variable (crypto : Crypto) (opts : AuthOptions) (docId : String) (w : World)

/-! ## Revocation -/

def applyRevocationRecord (entry : RevocationEntry)
    (revocations : OrderedMap Bytes RevocationEntry) : OrderedMap Bytes RevocationEntry :=
  match revocations.get? entry.1.tokenId with
  | none => revocations.set entry.1.tokenId entry
  | some existing =>
    if entry.supersedes existing then revocations.set entry.1.tokenId entry else revocations

/-- Does a cutover reject the operation? -/
def cutOver (record : RevocationRecord) (op : Interface.Operation) : Except String Bool :=
  match record.effectiveFromCounter with
  | none => .ok false
  | some counter => do
    if let some target := record.effectiveFromReplica then
      if (← replicaIdToBytes op.metadata.id.replica) ≠ target then
        return false
    return counter ≤ op.metadata.id.counter

def isRevokedByStandardPolicy (s : AuthState) (tokenId : Bytes)
    (op : Option Interface.Operation) : Except String Bool :=
  if tokenId ∈ opts.revokedCapabilityTokenIds.getD [] then .ok true
  else
    match s.revocationByToken.get? tokenId with
    | none => .ok false
    | some (record, _) =>
      if record.mode = .hard then .ok true
      else
        match op with
        | none => .ok false
        | some op => cutOver record op

/-- The hook of the application, if there is one. -/
def hookRevokes (check : RevocationCheck) : Bool :=
  match opts.isCapabilityTokenRevoked with
  | none => false
  | some hook => hook check

def parseStageRevocationChecker (s : AuthState) (ctx : RevocationCheckContext) :
    Except String Bool := do
  if ← isRevokedByStandardPolicy opts s ctx.tokenId none then
    return true
  return hookRevokes opts (.parse ctx)

def isGrantRevoked (s : AuthState) (grant : CapabilityGrant) (op : Interface.Operation) :
    Except String Bool := do
  if ← isRevokedByStandardPolicy opts s grant.tokenId (some op) then
    return true
  return hookRevokes opts (.runtime grant.tokenId docId op)

/-! ## Recording -/

/-- What a token is verified with in a state. -/
def tokenOptions (s : AuthState) : TokenOptions where
  issuerPublicKeys := opts.issuerPublicKeys
  docId := docId
  nowSec := w.nowSec
  scopeEvaluator := w.scopeEvaluator
  revokedCapabilityTokenIds := opts.revokedCapabilityTokenIds
  isCapabilityTokenRevoked := some (parseStageRevocationChecker opts s)

/-- Write a grant under its key and its token. -/
def AuthState.addGrant (s : AuthState) (grant : CapabilityGrant) : AuthState :=
  let byToken := (s.grantsByKeyId.get? grant.keyId).getD .empty
  { s with grantsByKeyId := s.grantsByKeyId.set grant.keyId (byToken.set grant.tokenId grant) }

def recordToken (tokenBytes : Bytes) : Exec String AuthState Unit := do
  let grant ← getsE fun s =>
    parseAndVerifyCapabilityToken crypto (tokenOptions opts docId w s) tokenBytes
  modify (·.addGrant grant)

def isLocalToken (tokenBytes : Bytes) : Bool :=
  deriveTokenIdV1 crypto tokenBytes ∈ opts.localCapabilityTokens.map (deriveTokenIdV1 crypto)

def rememberReplayAuthCapability (tokenBytes : Bytes) : Exec String AuthState Unit :=
  modify fun s =>
    if isLocalToken crypto opts tokenBytes ∨ tokenBytes ∈ s.replayAuthCapabilities then s
    else { s with replayAuthCapabilities := s.replayAuthCapabilities ++ [tokenBytes] }

/-- `try { … } catch (err) { … }` over the message. -/
def tryCatch (body : Exec String AuthState Unit) (handler : String → Exec String AuthState Unit) :
    Exec String AuthState Unit := fun s =>
  match body s with
  | some (.error message, s') => handler message s'
  | r => r

/-- The newest write of a capability is the last of the list. -/
def persistTrustedCapability (cap : Capability) : Exec String AuthState Unit :=
  modify fun s =>
    { s with capabilityStore := s.capabilityStore.map fun stored => stored.erase cap ++ [cap] }

/-- One turn of the loop over the stored capabilities. -/
def recordStored (cap : Capability) : Exec String AuthState Unit :=
  if !isAnyAuthCapability cap then pure ()
  else
    tryCatch
      (do
        recordToken crypto opts docId w cap.value
        rememberReplayAuthCapability crypto opts cap.value)
      fun message =>
        if includes message "capability token revoked" then pure ()
        else if !includes message "unknown issuer" then throw message
        else pure ()

def ensureCapabilityStoreRecorded : Exec String AuthState Unit := do
  let s ← gets id
  match s.capabilityStore with
  | none => pure ()
  | some stored =>
    if s.capabilityStoreLoadedForDoc = some docId then pure ()
    else do
      forEach (recordStored crypto opts docId w) stored
      modify fun s => { s with capabilityStoreLoadedForDoc := some docId }

/-- Verify a record and apply it. -/
def recordRevocation (recordBytes : Bytes) : Exec String AuthState Unit := do
  let record ← attempt
    (verifyTreecrdtRevocationRecordV1 crypto opts.issuerPublicKeys docId w.nowSec recordBytes)
  modify fun s =>
    { s with revocationByToken := applyRevocationRecord (record, recordBytes) s.revocationByToken }

def ensureLocalRevocationsRecorded : Exec String AuthState Unit := do
  let s ← gets id
  if s.localRevocationsRecordedForDoc = some docId then pure ()
  else do
    forEach (recordRevocation crypto opts docId w) opts.localRevocationRecords
    modify fun s => { s with localRevocationsRecordedForDoc := some docId }

def ensureLocalTokensRecorded : Exec String AuthState Unit := do
  let s ← gets id
  if s.localTokensRecordedForDoc = some docId then pure ()
  else do
    ensureCapabilityStoreRecorded crypto opts docId w
    ensureLocalRevocationsRecorded crypto opts docId w
    forEach
      (fun token => do
        recordToken crypto opts docId w token
        persistTrustedCapability { name := AUTH_CAPABILITY_NAME, value := token })
      opts.localCapabilityTokens
    modify fun s => { s with localTokensRecordedForDoc := some docId }

/-- One turn of the first loop of `recordCapabilities`. -/
def recordRevocationCapability (cap : Capability) : Exec String AuthState Unit :=
  if cap.name ≠ TREECRDT_REVOCATION_CAPABILITY then pure ()
  else recordRevocation crypto opts docId w cap.value

/-- One turn of its second loop; identity chains are best effort and write nothing here. -/
def recordAuthCapability (cap : Capability) : Exec String AuthState Unit :=
  if !isAnyAuthCapability cap then pure ()
  else
    tryCatch
      (do
        recordToken crypto opts docId w cap.value
        rememberReplayAuthCapability crypto opts cap.value
        persistTrustedCapability
          { name := if isLocalToken crypto opts cap.value then AUTH_CAPABILITY_NAME
              else AUTH_REPLAY_CAPABILITY_NAME
            value := cap.value })
      fun message =>
        if isReplayAuthCapability cap && includes message "capability token revoked" then pure ()
        else if !includes message "unknown issuer" then throw message
        else pure ()

def recordCapabilities (caps : List Capability) : Exec String AuthState Unit := do
  ensureCapabilityStoreRecorded crypto opts docId w
  ensureLocalRevocationsRecorded crypto opts docId w
  forEach (recordRevocationCapability crypto opts docId w) caps
  forEach (recordAuthCapability crypto opts docId w) caps

def helloCaps : Exec String AuthState (List Capability) := do
  ensureCapabilityStoreRecorded crypto opts docId w
  ensureLocalRevocationsRecorded crypto opts docId w
  ensureLocalTokensRecorded crypto opts docId w
  gets fun s =>
    opts.localCapabilityTokens.map (Capability.mk AUTH_CAPABILITY_NAME) ++
      s.replayAuthCapabilities.map (Capability.mk AUTH_REPLAY_CAPABILITY_NAME) ++
      s.revocationByToken.values.map fun entry =>
        Capability.mk TREECRDT_REVOCATION_CAPABILITY entry.2

def helloCapabilities : Exec String AuthState (List Capability) := helloCaps crypto opts docId w

def onHello (caps : List Capability) : Exec String AuthState (List Capability) := do
  recordCapabilities crypto opts docId w caps
  helloCaps crypto opts docId w

def onHelloAck (caps : List Capability) : Exec String AuthState Unit :=
  recordCapabilities crypto opts docId w caps

/-! ## Operations -/

/-- The loop of `selectGrantForOp`. -/
def selectLoop (s : AuthState) (op : Interface.Operation) :
    List CapabilityGrant → Option CapabilityGrant → Bool → Except String CapabilityGrant
  | [], some bestUnknown, _ => .ok bestUnknown
  | [], none, true => .error "capability token revoked"
  | [], none, false => .error "capability does not allow op"
  | grant :: rest, bestUnknown, sawRevoked => do
    if ← isGrantRevoked opts docId s grant op then
      selectLoop s op rest bestUnknown true
    else if expiredAt grant.exp w.nowSec || notYetValidAt grant.nbf w.nowSec then
      selectLoop s op rest bestUnknown sawRevoked
    else
      match ← capsAllowsOp grant.caps docId op w.scopeEvaluator with
      | .allow => return grant
      | .unknown => selectLoop s op rest (some (bestUnknown.getD grant)) sawRevoked
      | .deny => selectLoop s op rest bestUnknown sawRevoked

def selectGrantForOp (s : AuthState) (op : Interface.Operation)
    (candidates : List CapabilityGrant) : Except String CapabilityGrant :=
  selectLoop opts docId w s op candidates none false

def verifyTreecrdtOpV1 (op : Interface.Operation) (signature publicKey : Bytes) :
    Except String Bool := do
  let msg ← encodeTreecrdtOpSigInputV1 docId op
  crypto.verifyEd25519 signature msg publicKey

/-- The grant that an operation is checked with. -/
def grantForOp (s : AuthState) (byToken : OrderedMap Bytes CapabilityGrant)
    (op : Interface.Operation) (auth : OpAuth) : Except String CapabilityGrant :=
  if opts.requireProofRef then
    match auth.proofRef with
    | none => .error "missing proof_ref"
    | some proofRef =>
      match byToken.get? proofRef with
      | none => .error "proof_ref does not match known token"
      | some grant => do
        throwIf (← isGrantRevoked opts docId s grant op) "capability token revoked"
        return grant
  else
    match auth.proofRef.bind byToken.get? with
    | none => selectGrantForOp opts docId w s op byToken.values
    | some preferred =>
      selectGrantForOp opts docId w s op
        (preferred :: byToken.values.filter fun grant => grant.tokenId ≠ preferred.tokenId)

inductive Disposition where
  | allow
  | pendingContext
  deriving DecidableEq

/-- One turn of the loop of `verifyOps`. -/
def verifyOp (s : AuthState) (op : Interface.Operation) (auth : OpAuth) :
    Except String Disposition := do
  let replica ← replicaIdToBytes op.metadata.id.replica
  match s.grantsByKeyId.get? (deriveKeyIdV1 crypto replica) with
  | none => .error ("unknown author: " ++ bytesToHex (deriveKeyIdV1 crypto replica))
  | some byToken => do
    let grant ← grantForOp opts docId w s byToken op auth
    throwIf (grant.publicKey ≠ replica) "author public key does not match op replica_id"
    throwIf (expiredAt grant.exp w.nowSec) "capability token expired"
    throwIf (notYetValidAt grant.nbf w.nowSec) "capability token not yet valid"
    let scopeRes ← capsAllowsOp grant.caps docId op w.scopeEvaluator
    throwIf (scopeRes = .deny) "capability does not allow op"
    let ok ← verifyTreecrdtOpV1 crypto docId op auth.sig replica
    throwIf (!ok) "invalid op signature"
    return if scopeRes = .unknown then .pendingContext else .allow

/-- The dispositions of the operations in turn. -/
def verifyEach (s : AuthState) :
    List (Interface.Operation × OpAuth) → Except String (List Disposition)
  | [] => .ok []
  | (op, auth) :: rest => do
    return (← verifyOp crypto opts docId w s op auth) :: (← verifyEach s rest)

/-- `undefined` means that every operation is allowed. -/
def verifyOps (ops : List Interface.Operation) (auth : Option (List OpAuth)) :
    Exec String AuthState (Option (List Disposition)) :=
  if ops.isEmpty then pure none
  else do
    ensureCapabilityStoreRecorded crypto opts docId w
    match auth with
    | none => if opts.allowUnsigned then pure none else throw "missing op auth"
    | some auth => do
      let dispositions ← getsE fun s => verifyEach crypto opts docId w s (ops.zip auth)
      return if dispositions.any (· ≠ .allow) then some dispositions else none

end Auth

end Treecrdt
