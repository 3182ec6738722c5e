import TreecrdtLean.Lib.OrderedMap
import TreecrdtLean.Sync.Protobuf

/-!
# Errors and their context (`sync.ts`)

An error, received or thrown by a handler, may name a filter and a subscription. `onError` fails the
subscription, and then the session of the filter; an error without a filter fails every session. So
an error of a subscription stays in its context only where no session is open
(`staysInContext_iff`).
-/

namespace Treecrdt

namespace Sync

open V0

/-! ## The state of an initiator -/

/-- A promise with its `resolve` and `reject`. -/
inductive Pending (α : Type) where
  | waiting
  | resolved (value : α)
  | rejected (error : String)

/-- A promise settles once. -/
def Pending.reject {α : Type} (error : String) : Pending α → Pending α
  | .waiting => .rejected error
  | settled => settled

structure InitiatorSession where
  filter : V0.Filter
  filterId : String
  round : UInt32
  ack : Pending HelloAck
  terminalStatus : Pending RibltStatus
  codewordCredits : ℕ
  codewordCreditSignal : Pending Unit
  receivedOps : Pending Unit
  awaitingUploadAck : Bool
  done : Bool

structure InitiatorSubscription where
  ack : Pending SubscribeAck
  failed : Pending Unit

/-- The sessions and subscriptions of a peer, over all of its transports. What has failed leaves the
map; whoever awaits it holds it still. -/
structure Initiator where
  initiatorSessions : OrderedMap String InitiatorSession
  initiatorSubscriptions : OrderedMap String InitiatorSubscription
  failedSessions : List InitiatorSession
  failedSubscriptions : List InitiatorSubscription

/-! ## Errors -/

/-- `ErrorCode[code] ?? String(code)`. -/
def errorCodeName : ErrorCode → String
  | .unspecified => "ERROR_CODE_UNSPECIFIED"
  | .unsupportedVersion => "UNSUPPORTED_VERSION"
  | .filterNotSupported => "FILTER_NOT_SUPPORTED"
  | .tooManyFilters => "TOO_MANY_FILTERS"
  | .reconciliationDecodeFailed => "RECONCILIATION_DECODE_FAILED"
  | .rateLimited => "RATE_LIMITED"
  | .docNotFound => "DOC_NOT_FOUND"
  | .unauthorized => "UNAUTHORIZED"
  | .unknown number => toString number

def errorText (err : SyncError) : String := errorCodeName err.code ++ ": " ++ err.message

def InitiatorSession.fail (e : String) (session : InitiatorSession) : InitiatorSession :=
  { session with
    done := true
    ack := session.ack.reject e
    terminalStatus := session.terminalStatus.reject e
    codewordCreditSignal := session.codewordCreditSignal.reject e
    receivedOps := session.receivedOps.reject e }

def InitiatorSubscription.fail (e : String) (sub : InitiatorSubscription) : InitiatorSubscription :=
  { ack := sub.ack.reject e, failed := sub.failed.reject e }

/-- An id that is not empty. -/
def named (id : Option String) : Option String := id.filter (· ≠ "")

/-- The first part of `onError`. -/
def failSubscription (err : SyncError) (s : Initiator) : Initiator :=
  match named err.subscriptionId with
  | none => s
  | some id =>
    match s.initiatorSubscriptions.get? id with
    | none => s
    | some sub => { s with
        initiatorSubscriptions := s.initiatorSubscriptions.erase id
        failedSubscriptions := s.failedSubscriptions ++ [sub.fail (errorText err)] }

/-- The second part. -/
def failSessions (err : SyncError) (s : Initiator) : Initiator :=
  match named err.filterId with
  | none => { s with
      initiatorSessions := .empty
      failedSessions := s.failedSessions ++ s.initiatorSessions.values.map (·.fail (errorText err)) }
  | some id =>
    match s.initiatorSessions.get? id with
    | none => s
    | some session => { s with
        initiatorSessions := s.initiatorSessions.erase id
        failedSessions := s.failedSessions ++ [session.fail (errorText err)] }

def onError (err : SyncError) (s : Initiator) : Initiator :=
  failSessions err (failSubscription err s)

/-- Where an error comes from. -/
inductive Cause where
  /-- A message of the other side. -/
  | received (err : SyncError)
  /-- The handler of a message throws. -/
  | thrown (payload : SyncMessagePayload) (message : String)

/-- The error that `handleMessage` hands to `onError`. -/
def errorOf (s : Initiator) : Cause → SyncError
  | .received err => err
  | .thrown payload message =>
    let filterId := match payload with
      | .ribltCodewords value => some value.filterId
      | .ribltStatus value => some value.filterId
      | .opsBatch value => some value.filterId
      | _ => none
    let subscriptionId := match payload with
      | .opsBatch value =>
        if (s.initiatorSubscriptions.get? value.filterId).isSome then some value.filterId else none
      | .subscribe value => some value.subscriptionId
      | .subscribeAck value => some value.subscriptionId
      | .unsubscribe value => some value.subscriptionId
      | _ => none
    { code := .unspecified, message, filterId := named filterId
      subscriptionId := named subscriptionId }

/-! ## Their context -/

/-- Only the session and the subscription that the error names have failed. -/
structure StaysInContext (err : SyncError) (s s' : Initiator) : Prop where
  sessions : ∀ id, named err.filterId ≠ some id →
    s'.initiatorSessions.get? id = s.initiatorSessions.get? id
  subscriptions : ∀ id, named err.subscriptionId ≠ some id →
    s'.initiatorSubscriptions.get? id = s.initiatorSubscriptions.get? id
  failedSessions : s'.failedSessions = s.failedSessions ++
    ((named err.filterId).bind s.initiatorSessions.get?).toList.map (·.fail (errorText err))
  failedSubscriptions : s'.failedSubscriptions = s.failedSubscriptions ++
    ((named err.subscriptionId).bind s.initiatorSubscriptions.get?).toList.map
      (·.fail (errorText err))

variable {err : SyncError} {s : Initiator}

/-- The first part fails the subscription that is named. -/
theorem failSubscription_spec (err : SyncError) (s : Initiator) :
    (failSubscription err s).initiatorSessions = s.initiatorSessions ∧
    (failSubscription err s).failedSessions = s.failedSessions ∧
    (∀ id, named err.subscriptionId ≠ some id →
      (failSubscription err s).initiatorSubscriptions.get? id =
        s.initiatorSubscriptions.get? id) ∧
    (failSubscription err s).failedSubscriptions = s.failedSubscriptions ++
      ((named err.subscriptionId).bind s.initiatorSubscriptions.get?).toList.map
        (·.fail (errorText err)) := by
  unfold failSubscription
  cases hid : named err.subscriptionId with
  | none => simp
  | some id =>
    cases hsub : s.initiatorSubscriptions.get? id with
    | none => simp [hsub]
    | some sub =>
      simp only [hsub, true_and]
      refine ⟨fun id' hne => ?_, by simp [hsub]⟩
      rw [OrderedMap.get?_erase, if_neg fun h => hne (congrArg some h.symm)]

/-- The second part fails the session that is named, or all of them. -/
theorem failSessions_spec (err : SyncError) (s : Initiator) :
    (failSessions err s).initiatorSubscriptions = s.initiatorSubscriptions ∧
    (failSessions err s).failedSubscriptions = s.failedSubscriptions ∧
    match named err.filterId with
    | none => (∀ id, (failSessions err s).initiatorSessions.get? id = none) ∧
        (failSessions err s).failedSessions =
          s.failedSessions ++ s.initiatorSessions.values.map (·.fail (errorText err))
    | some id => (∀ id', id' ≠ id →
          (failSessions err s).initiatorSessions.get? id' = s.initiatorSessions.get? id') ∧
        (failSessions err s).failedSessions = s.failedSessions ++
          (s.initiatorSessions.get? id).toList.map (·.fail (errorText err)) := by
  unfold failSessions
  cases hid : named err.filterId with
  | none => exact ⟨rfl, rfl, fun _ => rfl, rfl⟩
  | some id =>
    cases hsession : s.initiatorSessions.get? id with
    | none =>
      simp [hsession]
    | some session =>
      simp only [hsession, true_and]
      refine ⟨fun id' hne => ?_, by simp⟩
      rw [OrderedMap.get?_erase, if_neg hne]

/-- An error stays in its context that names a filter, or comes where no session is open. -/
theorem onError_staysInContext :
    StaysInContext err s (onError err s) ↔
      (named err.filterId).isSome ∨ s.initiatorSessions.entries = [] := by
  obtain ⟨hsame, hfailed, hsubs, hfailedSubs⟩ := failSubscription_spec err s
  obtain ⟨hsubs', hfailedSubs', hrest⟩ := failSessions_spec err (failSubscription err s)
  rw [← onError] at hsubs' hfailedSubs' hrest
  rw [hsame, hfailed] at hrest
  have hother : (∀ id, named err.subscriptionId ≠ some id →
      (onError err s).initiatorSubscriptions.get? id = s.initiatorSubscriptions.get? id) ∧
      (onError err s).failedSubscriptions = s.failedSubscriptions ++
        ((named err.subscriptionId).bind s.initiatorSubscriptions.get?).toList.map
          (·.fail (errorText err)) :=
    ⟨fun id hid => by rw [hsubs', hsubs id hid], by rw [hfailedSubs', hfailedSubs]⟩
  cases hid : named err.filterId with
  | some id =>
    rw [hid] at hrest
    refine iff_of_true ⟨fun id' hne => hrest.1 id' fun h => hne (by rw [hid, h]), hother.1, ?_,
      hother.2⟩ (Or.inl rfl)
    rw [hid]
    exact hrest.2
  | none =>
    rw [hid] at hrest
    simp only [Option.isSome_none, Bool.false_eq_true, false_or]
    constructor
    · intro h
      by_contra hne
      obtain ⟨⟨id, session⟩, hmem⟩ := List.exists_mem_of_ne_nil _ hne
      have hget : s.initiatorSessions.get? id = some session := OrderedMap.mem_entries_iff.mp hmem
      have hkept := h.sessions id fun h => (nomatch hid.symm.trans h)
      rw [hrest.1, hget] at hkept
      cases hkept
    · intro hempty
      refine ⟨fun id _ => ?_, hother.1, ?_, hother.2⟩
      · rw [hrest.1, OrderedMap.get?, hempty]
        rfl
      · rw [hrest.2, hid, OrderedMap.values, hempty]
        rfl

/-- **The context of an error.** An error, received or thrown, fails nothing but the session and the
subscription that it names exactly if it names a filter, or no session is open. -/
theorem staysInContext_iff (s : Initiator) (cause : Cause) :
    StaysInContext (errorOf s cause) s (onError (errorOf s cause) s) ↔
      (named (errorOf s cause).filterId).isSome ∨ s.initiatorSessions.entries = [] :=
  onError_staysInContext

/-- A peer that reconciles one filter, with a live subscription next to it. -/
def sampleInitiator : Initiator where
  initiatorSessions := OrderedMap.empty.set "f1"
    ⟨.all, "f1", 0, .waiting, .waiting, 1, .waiting, .waiting, false, false⟩
  initiatorSubscriptions := OrderedMap.empty.set "s1" ⟨.waiting, .waiting⟩
  failedSessions := []
  failedSubscriptions := []

/-- The other side rejects the subscription, and the reconciliation fails too. -/
theorem subscription_error_fails_session :
    ∃ (s : Initiator) (err : SyncError), err.subscriptionId = some "s1" ∧
      ¬ StaysInContext (errorOf s (.received err)) s (onError (errorOf s (.received err)) s) := by
  refine ⟨sampleInitiator, ⟨.unauthorized, "unauthorized filter", none, some "s1"⟩, rfl,
    fun h => ?_⟩
  obtain hfilter | hsessions := onError_staysInContext.mp h
  · cases hfilter
  · cases hsessions

end Sync

end Treecrdt
