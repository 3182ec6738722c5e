import TreecrdtLean.Lib.Exec
import TreecrdtLean.Sync.ErrorContext
import TreecrdtLean.Sync.Handlers

/-!
# Incoming batches, one after the other (`sync.ts`)

The batches of one filter are handled in a queue (`enqueueOpsBatch`): a batch whose handler throws
does not hold the next one up. A handler verifies its batch, files the auth entries, stores what is
pending, applies what is allowed and retries the pending operations (`handleOps`); then it answers
the last batch of an upload with an empty batch (`acknowledge`), and settles the session that waits
for operations (`finishSession`).

The auth and the backend are callbacks over a world of their own, which may throw or never return.
-/

namespace Treecrdt

namespace Sync

open Auth

inductive SyncOpPurpose where
  | reconcile
  | subscribe
  | reprocessPending
  deriving DecidableEq

structure SyncOpContext where
  purpose : SyncOpPurpose
  filterId : String

/-- `opsBatch`, as it is received. -/
structure IncomingBatch (Op OpAuth : Type) extends OpsBatch String Op OpAuth where
  done : Bool

/-- `SyncAuth` and `SyncBackend`; what is optional there is an `Option`. -/
structure Callbacks (W Op OpAuth : Type) where
  verifyOps : Option (List Op → Option (List OpAuth) → SyncOpContext →
    Exec String W (Option (List Disposition)))
  onVerifiedOps : Option (List Op → List OpAuth → SyncOpContext → Exec String W Unit)
  storePendingOps : Option (List (PendingOp Op OpAuth) → Exec String W Unit)
  listPendingOps : Option (Exec String W (List (PendingOp Op OpAuth)))
  deletePendingOps : Option (List Op → Exec String W Unit)
  applyOps : List Op → Exec String W Unit

variable {W Op OpAuth : Type}

/-! ## The pending operations -/

/-- One round of `reprocessPendingOps` over what is pending; whether it made progress. -/
def reprocessRound (verifyOps : List Op → Option (List OpAuth) → SyncOpContext →
      Exec String W (Option (List Disposition)))
    (deletePendingOps applyOps : List Op → Exec String W Unit) :
    List (PendingOp Op OpAuth) → Bool → Exec String W Bool
  | [], progress => return progress
  | p :: pending, progress => do
    let res ← Exec.orElse
      (do return some (← verifyOps [p.op] (some [p.auth]) ⟨.reprocessPending, "__pending__"⟩))
      fun _ => return none
    match res with
    | none =>
      -- The context proves the operation invalid: drop it.
      deletePendingOps [p.op]
      reprocessRound verifyOps deletePendingOps applyOps pending true
    | some dispositions =>
      if dispositions.bind List.head? = some .pendingContext then
        reprocessRound verifyOps deletePendingOps applyOps pending progress
      else
        applyOps [p.op]
        deletePendingOps [p.op]
        reprocessRound verifyOps deletePendingOps applyOps pending true

def reprocessRounds (verifyOps : List Op → Option (List OpAuth) → SyncOpContext →
      Exec String W (Option (List Disposition)))
    (listPendingOps : Exec String W (List (PendingOp Op OpAuth)))
    (deletePendingOps applyOps : List Op → Exec String W Unit) : ℕ → Exec String W Unit
  | 0 => Exec.throw "pending-op reprocessing exceeded max rounds"
  | rounds + 1 => do
    let pending ← listPendingOps
    if pending.length = 0 then return ()
    let progress ← reprocessRound verifyOps deletePendingOps applyOps pending false
    if !progress then return ()
    reprocessRounds verifyOps listPendingOps deletePendingOps applyOps rounds

/-- `reprocessPendingOps`, where no other pass is running. -/
def reprocessPendingOps (callbacks : Callbacks W Op OpAuth) : Exec String W Unit :=
  match callbacks.listPendingOps, callbacks.deletePendingOps, callbacks.verifyOps with
  | some listPendingOps, some deletePendingOps, some verifyOps =>
    reprocessRounds verifyOps listPendingOps deletePendingOps callbacks.applyOps maxRounds
  | _, _, _ => return ()

/-! ## The operations of a batch -/

/-- `verifyOps`, with the checks on the lengths of the lists. -/
def verifyIncoming (callbacks : Callbacks W Op OpAuth) (batch : IncomingBatch Op OpAuth)
    (ctx : SyncOpContext) : Exec String W (Option (List Disposition)) := do
  if (batch.auth.any fun auth => auth.length ≠ batch.ops.length) then
    Exec.throw ("OpsBatch.auth length " ++ toString (batch.auth.getD []).length ++
      " does not match ops length " ++ toString batch.ops.length)
  match callbacks.verifyOps with
  | none => return none
  | some verifyOps => do
    let dispositions ← verifyOps batch.ops batch.auth ctx
    if (dispositions.any fun ds => ds.length ≠ batch.ops.length) then
      Exec.throw ("verifyOps returned " ++ toString (dispositions.getD []).length ++
        " dispositions for " ++ toString batch.ops.length ++ " ops")
    return dispositions

/-- The first part of `onOpsBatch`. -/
def handleOps (callbacks : Callbacks W Op OpAuth) (batch : IncomingBatch Op OpAuth)
    (purpose : SyncOpPurpose) : Exec String W Unit := do
  let ctx : SyncOpContext := ⟨purpose, batch.filterId⟩
  let dispositions ← verifyIncoming callbacks batch ctx
  match batch.auth, callbacks.onVerifiedOps with
  | some (entry :: entries), some onVerifiedOps => onVerifiedOps batch.ops (entry :: entries) ctx
  | _, _ => pure ()
  let (pending, allowed) ← Exec.getsE fun _ =>
    splitEntries (batchEntries batch.toOpsBatch dispositions)
  if pending.length > 0 then
    match callbacks.storePendingOps with
    | none =>
      Exec.throw ("received ops requiring pending-context handling, " ++
        "but backend.storePendingOps is not implemented")
    | some storePendingOps => storePendingOps pending
  callbacks.applyOps allowed
  reprocessPendingOps callbacks

/-! ## The peer -/

/-- What the handler of a batch reads of a responder session. -/
structure ResponderSession where
  awaitingIncomingDone : Bool

/-- What a peer sends from here. -/
inductive Sent where
  /-- `sendDoneOpsBatch`. -/
  | doneOpsBatch (filterId : String)
  | error (err : V0.SyncError)
  deriving DecidableEq

structure SyncPeer (W : Type) where
  world : W
  initiator : Initiator
  responderSessions : String → Option ResponderSession
  /-- The ids that the set has. -/
  responderAwaitingUploadAcks : String → Bool
  sent : List Sent

def purposeOf (initiator : Initiator) (filterId : String) : SyncOpPurpose :=
  if (initiator.initiatorSubscriptions.get? filterId).isSome then .subscribe else .reconcile

/-- The empty batch that answers the last batch of an upload. -/
def acknowledge (batch : IncomingBatch Op OpAuth) (s : SyncPeer W) : SyncPeer W :=
  match s.responderSessions batch.filterId with
  | none =>
    if s.responderAwaitingUploadAcks batch.filterId && batch.done then
      { s with
        responderAwaitingUploadAcks :=
          Function.update s.responderAwaitingUploadAcks batch.filterId false
        sent := s.sent ++ [.doneOpsBatch batch.filterId] }
    else s
  | some session =>
    if batch.done then
      { s with
        sent := if session.awaitingIncomingDone then s.sent ++ [.doneOpsBatch batch.filterId]
          else s.sent
        responderSessions := Function.update s.responderSessions batch.filterId none }
    else s

def Pending.resolve {α : Type} (value : α) : Pending α → Pending α
  | .waiting => .resolved value
  | settled => settled

/-- The session that waits for the operations of the responder. -/
def finishSession (batch : IncomingBatch Op OpAuth) (initiator : Initiator) : Initiator :=
  match initiator.initiatorSessions.get? batch.filterId with
  | none => initiator
  | some session =>
    if batch.done && (!session.awaitingUploadAck || batch.ops.isEmpty) then
      { initiator with
        initiatorSessions := initiator.initiatorSessions.set batch.filterId
          { session with receivedOps := session.receivedOps.resolve () } }
    else initiator

def onOpsBatch (callbacks : Callbacks W Op OpAuth) (batch : IncomingBatch Op OpAuth) :
    Exec String (SyncPeer W) Unit := do
  let purpose ← Exec.gets fun s => purposeOf s.initiator batch.filterId
  Exec.zoom SyncPeer.world (fun world s => { s with world }) (handleOps callbacks batch purpose)
  Exec.modify (acknowledge batch)
  Exec.modify fun s => { s with initiator := finishSession batch s.initiator }

/-- The error that `handleMessage` makes of what the handler throws. -/
def opsBatchError (initiator : Initiator) (filterId message : String) : V0.SyncError where
  code := .unspecified
  message
  filterId := named (some filterId)
  subscriptionId :=
    named (if purposeOf initiator filterId = .subscribe then some filterId else none)

/-- `handleMessage` for a batch whose turn it is; whether its handler came to its end. -/
def handleOpsBatch (callbacks : Callbacks W Op OpAuth) (batch : IncomingBatch Op OpAuth) :
    Exec String (SyncPeer W) Bool :=
  Exec.orElse (do onOpsBatch callbacks batch; return true) fun message => do
    let err ← Exec.gets fun s => opsBatchError s.initiator batch.filterId message
    Exec.modify fun s => { s with
      initiator := onError err s.initiator, sent := s.sent ++ [.error err] }
    return false

end Sync

end Treecrdt
