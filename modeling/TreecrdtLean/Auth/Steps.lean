import TreecrdtLean.Auth.TokenChain

/-!
# The turns of a call

A call of the auth (`helloCapabilities`, `onHello`, `onHelloAck`, `verifyOps`) first takes in what
the peer has stored, was configured with, and is sent: `AuthCall.steps` lists these turns, and
`AuthCall.run_eq` says that the call is its turns in order, up to the first that throws, and then
its answer.
-/

namespace Treecrdt

namespace Auth

open Exec

/-- A turn of one of the loops, or the mark that a loop is done. -/
inductive AuthStep where
  | stored (cap : Capability)
  | storeLoaded
  | localRevocation (recordBytes : Bytes)
  | localRevocationsRecorded
  | localToken (token : Bytes)
  | localTokensRecorded
  | revocation (cap : Capability)
  | peerToken (cap : Capability)

variable (crypto : Crypto) (opts : AuthOptions) (docId : String) (w : World)

def AuthStep.run : AuthStep → Exec String AuthState Unit
  | stored cap => recordStored crypto opts docId w cap
  | storeLoaded => modify fun s => { s with capabilityStoreLoadedForDoc := some docId }
  | localRevocation recordBytes => recordRevocation crypto opts docId w recordBytes
  | localRevocationsRecorded => modify fun s => { s with localRevocationsRecordedForDoc := some docId }
  | localToken token => do
    recordToken crypto opts docId w token
    persistTrustedCapability { name := AUTH_CAPABILITY_NAME, value := token }
  | localTokensRecorded => modify fun s => { s with localTokensRecordedForDoc := some docId }
  | revocation cap => recordRevocationCapability crypto opts docId w cap
  | peerToken cap => recordAuthCapability crypto opts docId w cap

/-! ## Calls -/

inductive AuthCall where
  | helloCapabilities
  | onHello (caps : List Capability)
  | onHelloAck (caps : List Capability)
  | verifyOps (ops : List Interface.Operation) (auth : Option (List OpAuth))

/-- What a call returns. -/
abbrev AuthCall.Answer : AuthCall → Type
  | helloCapabilities | onHello _ => List Capability
  | onHelloAck _ => Unit
  | verifyOps _ _ => Option (List Disposition)

def AuthCall.run : (call : AuthCall) → Exec String AuthState call.Answer
  | helloCapabilities => Auth.helloCapabilities crypto opts docId w
  | onHello caps => Auth.onHello crypto opts docId w caps
  | onHelloAck caps => Auth.onHelloAck crypto opts docId w caps
  | verifyOps ops auth => Auth.verifyOps crypto opts docId w ops auth

/-- The turns of `ensureCapabilityStoreRecorded`. -/
def storeSteps (s : AuthState) : List AuthStep :=
  match s.capabilityStore with
  | none => []
  | some stored =>
    if s.capabilityStoreLoadedForDoc = some docId then []
    else stored.map .stored ++ [.storeLoaded]

/-- The turns of `ensureLocalRevocationsRecorded`. -/
def localRevocationSteps (s : AuthState) : List AuthStep :=
  if s.localRevocationsRecordedForDoc = some docId then []
  else opts.localRevocationRecords.map .localRevocation ++ [.localRevocationsRecorded]

/-- The turns of `ensureLocalTokensRecorded` behind those two. -/
def localTokenSteps (s : AuthState) : List AuthStep :=
  if s.localTokensRecordedForDoc = some docId then []
  else opts.localCapabilityTokens.map .localToken ++ [.localTokensRecorded]

/-- The turns of `recordCapabilities`. -/
def capabilitySteps (caps : List Capability) (s : AuthState) : List AuthStep :=
  storeSteps docId s ++ (localRevocationSteps opts docId s ++
    (caps.map .revocation ++ caps.map .peerToken))

def AuthCall.steps (s : AuthState) : AuthCall → List AuthStep
  | helloCapabilities =>
    storeSteps docId s ++ (localRevocationSteps opts docId s ++ localTokenSteps opts docId s)
  | onHello caps => capabilitySteps opts docId caps s ++ localTokenSteps opts docId s
  | onHelloAck caps => capabilitySteps opts docId caps s
  | verifyOps ops _ => if ops.isEmpty then [] else storeSteps docId s

/-- What the peer advertises. -/
def advertised (s : AuthState) : List Capability :=
  opts.localCapabilityTokens.map (Capability.mk AUTH_CAPABILITY_NAME) ++
    s.replayAuthCapabilities.map (Capability.mk AUTH_REPLAY_CAPABILITY_NAME) ++
    s.revocationByToken.values.map fun entry =>
      Capability.mk TREECRDT_REVOCATION_CAPABILITY entry.2

/-- What is left of a call behind its turns. -/
def AuthCall.answer : (call : AuthCall) → Exec String AuthState call.Answer
  | helloCapabilities | onHello _ => gets (advertised opts)
  | onHelloAck _ => pure ()
  | verifyOps ops auth =>
    if ops.isEmpty then pure none
    else
      match auth with
      | none => if opts.allowUnsigned then pure none else throw "missing op auth"
      | some auth => do
        let dispositions ← getsE fun s => verifyEach crypto opts docId w s (ops.zip auth)
        return if dispositions.any (· ≠ .allow) then some dispositions else none

/-! ## What a turn does -/

/-- The grant that is recorded for a token under a key. -/
def AuthState.grant? (s : AuthState) (keyId tokenId : Bytes) : Option CapabilityGrant :=
  (s.grantsByKeyId.get? keyId).bind (·.get? tokenId)

theorem AuthState.grant?_addGrant (s : AuthState) (grant : CapabilityGrant)
    (keyId tokenId : Bytes) : (s.addGrant grant).grant? keyId tokenId =
      if keyId = grant.keyId ∧ tokenId = grant.tokenId then some grant
      else s.grant? keyId tokenId := by
  simp only [grant?, addGrant, OrderedMap.get?_set]
  by_cases hk : keyId = grant.keyId
  · subst hk
    rw [if_pos rfl, Option.bind_some, OrderedMap.get?_set]
    by_cases ht : tokenId = grant.tokenId
    · rw [if_pos ht, if_pos ⟨rfl, ht⟩]
    · rw [if_neg ht, if_neg fun h => ht h.2]
      cases s.grantsByKeyId.get? grant.keyId <;> rfl
  · rw [if_neg hk, if_neg fun h => hk h.1]

/-- A turn for a token: check it, and write its grant or handle the message. -/
def tokenTurn (tokenBytes : Bytes) (tolerates : String → Bool) (keep : AuthState → AuthState) :
    Exec String AuthState Unit := fun s =>
  match parseAndVerifyCapabilityToken crypto (tokenOptions opts docId w s) tokenBytes with
  | .ok grant => some (.ok (), keep (s.addGrant grant))
  | .error message => if tolerates message then some (.ok (), s) else some (.error message, s)

def remembered (tokenBytes : Bytes) (s : AuthState) : AuthState :=
  if isLocalToken crypto opts tokenBytes ∨ tokenBytes ∈ s.replayAuthCapabilities then s
  else { s with replayAuthCapabilities := s.replayAuthCapabilities ++ [tokenBytes] }

def persisted (cap : Capability) (s : AuthState) : AuthState :=
  { s with capabilityStore := s.capabilityStore.map fun stored => stored.erase cap ++ [cap] }

namespace AuthStep

/-- The token of a turn for a token. -/
def token : AuthStep → Option Bytes
  | stored cap | peerToken cap => if isAnyAuthCapability cap then some cap.value else none
  | localToken token => some token
  | _ => none

/-- The messages that the turn goes on after. -/
def tolerates : AuthStep → String → Bool
  | stored _, message =>
    includes message "capability token revoked" || includes message "unknown issuer"
  | peerToken cap, message =>
    isReplayAuthCapability cap && includes message "capability token revoked" ||
      includes message "unknown issuer"
  | _, _ => false

/-- What is kept of an accepted token besides its grant. -/
def keep : AuthStep → AuthState → AuthState
  | stored cap, s => remembered crypto opts cap.value s
  | peerToken cap, s =>
    persisted
      { name := if isLocalToken crypto opts cap.value then AUTH_CAPABILITY_NAME
          else AUTH_REPLAY_CAPABILITY_NAME
        value := cap.value }
      (remembered crypto opts cap.value s)
  | localToken token, s => persisted { name := AUTH_CAPABILITY_NAME, value := token } s
  | _, s => s

/-- The record of a turn for a record. -/
def record : AuthStep → Option Bytes
  | localRevocation recordBytes => some recordBytes
  | revocation cap => if cap.name = TREECRDT_REVOCATION_CAPABILITY then some cap.value else none
  | _ => none

/-- What the other turns write. -/
def mark (docId : String) : AuthStep → AuthState → AuthState
  | storeLoaded, s => { s with capabilityStoreLoadedForDoc := some docId }
  | localRevocationsRecorded, s => { s with localRevocationsRecordedForDoc := some docId }
  | localTokensRecorded, s => { s with localTokensRecordedForDoc := some docId }
  | _, s => s

variable {crypto opts docId w}

theorem recordToken_of_ok {tokenBytes : Bytes} {s : AuthState} {grant : CapabilityGrant}
    (h : parseAndVerifyCapabilityToken crypto (tokenOptions opts docId w s) tokenBytes =
      .ok grant) : recordToken crypto opts docId w tokenBytes s = some (.ok (), s.addGrant grant) := by
  rw [recordToken, bind_run, getsE_run, h]
  rfl

theorem recordToken_of_error {tokenBytes : Bytes} {s : AuthState} {message : String}
    (h : parseAndVerifyCapabilityToken crypto (tokenOptions opts docId w s) tokenBytes =
      .error message) : recordToken crypto opts docId w tokenBytes s = some (.error message, s) := by
  rw [recordToken, bind_run, getsE_run, h]

theorem tryCatch_of_ok {body : Exec String AuthState Unit}
    {handler : String → Exec String AuthState Unit} {s s' : AuthState}
    (h : body s = some (.ok (), s')) : tryCatch body handler s = some (.ok (), s') := by
  rw [tryCatch, h]

theorem tryCatch_of_error {body : Exec String AuthState Unit}
    {handler : String → Exec String AuthState Unit} {s s' : AuthState} {message : String}
    (h : body s = some (.error message, s')) : tryCatch body handler s = handler message s' := by
  rw [tryCatch, h]

/-- The handlers of the loops: go on after some messages. -/
private theorem handler_run (a b : Bool) (message : String) (s : AuthState) :
    (if a then pure () else if !b then throw message else pure () : Exec String AuthState Unit) s =
      if a || b then some (.ok (), s) else some (.error message, s) := by
  cases a <;> cases b <;> rfl

theorem run_of_token {step : AuthStep} {tokenBytes : Bytes} (h : step.token = some tokenBytes) :
    step.run crypto opts docId w =
      tokenTurn crypto opts docId w tokenBytes step.tolerates (step.keep crypto opts) := by
  funext s
  unfold tokenTurn
  cases step with
  | stored cap =>
    simp only [token, Option.ite_none_right_eq_some, Option.some.injEq] at h
    obtain ⟨hauth, rfl⟩ := h
    rw [run, recordStored, hauth, Bool.not_true, if_neg Bool.false_ne_true]
    cases hp : parseAndVerifyCapabilityToken crypto (tokenOptions opts docId w s) cap.value with
    | ok grant => exact tryCatch_of_ok (by rw [bind_of_ok (recordToken_of_ok hp)]; rfl)
    | error message =>
      rw [tryCatch_of_error (bind_of_error (recordToken_of_error hp))]
      exact handler_run _ _ _ _
  | localToken tokenBytes =>
    cases h
    rw [run]
    cases hp : parseAndVerifyCapabilityToken crypto (tokenOptions opts docId w s) tokenBytes with
    | ok grant => rw [bind_of_ok (recordToken_of_ok hp)]; rfl
    | error message => rw [bind_of_error (recordToken_of_error hp)]; rfl
  | peerToken cap =>
    simp only [token, Option.ite_none_right_eq_some, Option.some.injEq] at h
    obtain ⟨hauth, rfl⟩ := h
    rw [run, recordAuthCapability, hauth, Bool.not_true, if_neg Bool.false_ne_true]
    cases hp : parseAndVerifyCapabilityToken crypto (tokenOptions opts docId w s) cap.value with
    | ok grant => exact tryCatch_of_ok (by rw [bind_of_ok (recordToken_of_ok hp)]; rfl)
    | error message =>
      rw [tryCatch_of_error (bind_of_error (recordToken_of_error hp))]
      exact handler_run _ _ _ _
  | _ => cases h

theorem run_of_record {step : AuthStep} {recordBytes : Bytes} (h : step.record = some recordBytes) :
    step.run crypto opts docId w = recordRevocation crypto opts docId w recordBytes := by
  cases step with
  | localRevocation b => cases h; rfl
  | revocation cap =>
    simp only [record, Option.ite_none_right_eq_some, Option.some.injEq] at h
    obtain ⟨hname, rfl⟩ := h
    simp [run, recordRevocationCapability, hname]
  | _ => cases h

theorem run_of_mark {step : AuthStep} (ht : step.token = none) (hr : step.record = none) :
    step.run crypto opts docId w = modify (step.mark docId) := by
  cases step with
  | stored cap =>
    have hauth : isAnyAuthCapability cap = false := by simpa [token] using ht
    simp only [run, recordStored, hauth]
    rfl
  | revocation cap =>
    have hname : cap.name ≠ TREECRDT_REVOCATION_CAPABILITY := by simpa [record] using hr
    simp only [run, recordRevocationCapability, if_pos hname]
    rfl
  | peerToken cap =>
    have hauth : isAnyAuthCapability cap = false := by simpa [token] using ht
    simp only [run, recordAuthCapability, hauth]
    rfl
  | storeLoaded | localRevocationsRecorded | localTokensRecorded => rfl
  | localRevocation b => cases hr
  | localToken t => cases ht

/-- What a turn can do: write a grant that passed its check, apply a record that passed its check,
set a mark, or nothing, with an error where a check fails. -/
theorem run_cases {step : AuthStep} {s s' : AuthState} {r : Except String Unit}
    (h : step.run crypto opts docId w s = some (r, s')) :
    (∃ tokenBytes grant, step.token = some tokenBytes ∧
      parseAndVerifyCapabilityToken crypto (tokenOptions opts docId w s) tokenBytes = .ok grant ∧
      r = .ok () ∧ s' = step.keep crypto opts (s.addGrant grant)) ∨
    (∃ tokenBytes message, step.token = some tokenBytes ∧
      parseAndVerifyCapabilityToken crypto (tokenOptions opts docId w s) tokenBytes =
        .error message ∧
      r = (if step.tolerates message then .ok () else .error message) ∧ s' = s) ∨
    (∃ recordBytes record, step.record = some recordBytes ∧
      verifyTreecrdtRevocationRecordV1 crypto opts.issuerPublicKeys docId w.nowSec recordBytes =
        .ok record ∧
      r = .ok () ∧ s' = { s with
        revocationByToken := applyRevocationRecord (record, recordBytes) s.revocationByToken }) ∨
    (∃ recordBytes message, step.record = some recordBytes ∧
      verifyTreecrdtRevocationRecordV1 crypto opts.issuerPublicKeys docId w.nowSec recordBytes =
        .error message ∧
      r = .error message ∧ s' = s) ∨
    (step.token = none ∧ step.record = none ∧ r = .ok () ∧ s' = step.mark docId s) := by
  cases ht : step.token with
  | some tokenBytes =>
    rw [run_of_token ht] at h
    unfold tokenTurn at h
    split at h
    · rename_i grant hp
      cases h
      exact .inl ⟨tokenBytes, grant, rfl, hp, rfl, rfl⟩
    · rename_i message hp
      refine .inr (.inl ⟨tokenBytes, message, rfl, hp, ?_⟩)
      split at h <;> rename_i htol <;> cases h
      · exact ⟨(if_pos htol).symm, rfl⟩
      · exact ⟨(if_neg htol).symm, rfl⟩
  | none =>
    cases hr : step.record with
    | some recordBytes =>
      rw [run_of_record hr] at h
      simp only [recordRevocation, attempt, bind_run, getsE_run] at h
      cases hv : verifyTreecrdtRevocationRecordV1 crypto opts.issuerPublicKeys docId w.nowSec
          recordBytes with
      | ok record =>
        rw [hv] at h
        cases h
        exact .inr (.inr (.inl ⟨recordBytes, record, rfl, hv, rfl, rfl⟩))
      | error message =>
        rw [hv] at h
        cases h
        exact .inr (.inr (.inr (.inl ⟨recordBytes, message, rfl, hv, rfl, rfl⟩)))
    | none =>
      rw [run_of_mark ht hr] at h
      cases h
      exact .inr (.inr (.inr (.inr ⟨rfl, rfl, rfl, rfl⟩)))

end AuthStep

/-! ## A call is its turns -/

/-- What the loops look at before they start. -/
def AuthState.marks (s : AuthState) : Option String × Option String × Option String × Bool :=
  (s.localTokensRecordedForDoc, s.localRevocationsRecordedForDoc, s.capabilityStoreLoadedForDoc,
    s.capabilityStore.isSome)

variable {crypto opts docId w}

theorem remembered_marks (tokenBytes : Bytes) (s : AuthState) :
    (remembered crypto opts tokenBytes s).marks = s.marks := by
  unfold remembered
  split <;> rfl

theorem persisted_marks (cap : Capability) (s : AuthState) : (persisted cap s).marks = s.marks := by
  simp [persisted, AuthState.marks]

namespace AuthStep

theorem keep_marks (step : AuthStep) (s : AuthState) :
    (step.keep crypto opts s).marks = s.marks := by
  cases step with
  | stored cap => exact remembered_marks _ _
  | peerToken cap => exact (persisted_marks _ _).trans (remembered_marks _ _)
  | localToken token => exact persisted_marks _ _
  | _ => rfl

theorem keep_grant? (step : AuthStep) (s : AuthState) (keyId tokenId : Bytes) :
    (step.keep crypto opts s).grant? keyId tokenId = s.grant? keyId tokenId := by
  cases step with
  | stored cap | peerToken cap =>
    simp only [keep, persisted, remembered]
    split <;> rfl
  | _ => rfl

theorem mark_grant? (step : AuthStep) (s : AuthState) (keyId tokenId : Bytes) :
    (step.mark docId s).grant? keyId tokenId = s.grant? keyId tokenId := by
  cases step <;> rfl

/-- Only the turns for marks have marks. -/
theorem mark_of_token {step : AuthStep} {tokenBytes : Bytes} (h : step.token = some tokenBytes)
    (s : AuthState) : step.mark docId s = s := by
  cases step <;> first | rfl | cases h

theorem mark_of_record {step : AuthStep} {recordBytes : Bytes}
    (h : step.record = some recordBytes) (s : AuthState) : step.mark docId s = s := by
  cases step <;> first | rfl | cases h

theorem run_marks {step : AuthStep} {s s' : AuthState} {r : Except String Unit}
    (h : step.run crypto opts docId w s = some (r, s')) :
    s'.marks = (step.mark docId s).marks := by
  obtain ⟨_, grant, ht, -, -, rfl⟩ | ⟨_, _, ht, -, -, rfl⟩ | ⟨_, _, hr, -, -, rfl⟩ |
    ⟨_, _, hr, -, -, rfl⟩ | ⟨-, -, -, rfl⟩ := run_cases h
  · rw [keep_marks, mark_of_token ht]
    rfl
  · rw [mark_of_token ht]
  · rw [mark_of_record hr]
    rfl
  · rw [mark_of_record hr]
  · rfl

end AuthStep

theorem storeSteps_eq_nil {s : AuthState} : storeSteps docId s = [] ↔
    s.capabilityStore.isSome = false ∨ s.capabilityStoreLoadedForDoc = some docId := by
  unfold storeSteps
  cases s.capabilityStore with
  | none => simp
  | some stored => simp

/-- The turns that are left to do depend on the marks only. -/
theorem steps_of_marks (opts : AuthOptions) (docId : String) {s s' : AuthState}
    (h : s'.marks = s.marks) :
    (storeSteps docId s = [] → storeSteps docId s' = []) ∧
    localRevocationSteps opts docId s' = localRevocationSteps opts docId s ∧
    localTokenSteps opts docId s' = localTokenSteps opts docId s := by
  simp only [AuthState.marks, Prod.mk.injEq] at h
  obtain ⟨htokens, hrevocations, hloaded, hstore⟩ := h
  refine ⟨?_, ?_, ?_⟩
  · rw [storeSteps_eq_nil, storeSteps_eq_nil, hstore, hloaded]
    exact id
  · rw [localRevocationSteps, hrevocations, localRevocationSteps]
  · rw [localTokenSteps, htokens, localTokenSteps]

theorem ensureCapabilityStoreRecorded_run (s : AuthState) :
    ensureCapabilityStoreRecorded crypto opts docId w s =
      forEach (AuthStep.run crypto opts docId w) (storeSteps docId s) s := by
  rw [ensureCapabilityStoreRecorded, gets_bind_run, storeSteps, id]
  cases s.capabilityStore with
  | none => rfl
  | some stored =>
    simp only
    split
    · rfl
    · rw [forEach_append, forEach_map, forEach_singleton]
      rfl

theorem ensureLocalRevocationsRecorded_run (s : AuthState) :
    ensureLocalRevocationsRecorded crypto opts docId w s =
      forEach (AuthStep.run crypto opts docId w) (localRevocationSteps opts docId s) s := by
  rw [ensureLocalRevocationsRecorded, gets_bind_run, localRevocationSteps, id]
  split
  · rfl
  · rw [forEach_append, forEach_map, forEach_singleton]
    rfl

/-- Behind the other two loops. -/
theorem ensureLocalTokensRecorded_run {s : AuthState} (hstore : storeSteps docId s = [])
    (hrevocations : localRevocationSteps opts docId s = []) :
    ensureLocalTokensRecorded crypto opts docId w s =
      forEach (AuthStep.run crypto opts docId w) (localTokenSteps opts docId s) s := by
  have hstoreRun : ensureCapabilityStoreRecorded crypto opts docId w s = some (.ok (), s) := by
    rw [ensureCapabilityStoreRecorded_run, hstore]
    rfl
  have hrevocationsRun :
      ensureLocalRevocationsRecorded crypto opts docId w s = some (.ok (), s) := by
    rw [ensureLocalRevocationsRecorded_run, hrevocations]
    rfl
  rw [ensureLocalTokensRecorded, gets_bind_run, localTokenSteps, id]
  split
  · rfl
  · rw [bind_of_ok hstoreRun, bind_of_ok hrevocationsRun, forEach_append, forEach_map,
      forEach_singleton]
    rfl

/-- Turns without a mark leave the marks. -/
theorem items_marks {steps : List AuthStep} {s s' : AuthState} {r : Except String Unit}
    (hitems : ∀ step ∈ steps, ∀ t, step.mark docId t = t)
    (h : forEach (AuthStep.run crypto opts docId w) steps s = some (r, s')) :
    s'.marks = s.marks :=
  forEach_keeps (P := fun t => t.marks = s.marks)
    (fun step hstep t _ _ hrun ht => by
      rw [AuthStep.run_marks hrun, hitems step hstep, ht]) h rfl

/-- Behind a loop over the store, the store is loaded. -/
theorem storeSteps_done {s s' : AuthState}
    (h : forEach (AuthStep.run crypto opts docId w) (storeSteps docId s) s = some (.ok (), s')) :
    storeSteps docId s' = [] ∧
    localRevocationSteps opts docId s' = localRevocationSteps opts docId s ∧
    localTokenSteps opts docId s' = localTokenSteps opts docId s := by
  by_cases hnil : storeSteps docId s = []
  · rw [hnil] at h
    cases h
    exact ⟨hnil, rfl, rfl⟩
  obtain ⟨items, hitems, hsteps⟩ : ∃ items : List AuthStep,
      (∀ step ∈ items, ∀ t, step.mark docId t = t) ∧
        storeSteps docId s = items ++ [.storeLoaded] := by
    unfold storeSteps at hnil ⊢
    split at hnil
    · exact absurd rfl hnil
    · rename_i stored hstored
      split at hnil
      · exact absurd rfl hnil
      · exact ⟨stored.map .stored, by simp [AuthStep.mark], by simp_all⟩
  rw [hsteps, forEach_append, forEach_singleton] at h
  obtain ⟨_, s₁, hloop, hmark⟩ := bind_ok h
  cases hmark
  have hmarks := items_marks hitems hloop
  obtain ⟨-, hrevocations, htokens⟩ := steps_of_marks opts docId hmarks
  exact ⟨storeSteps_eq_nil.mpr (.inr rfl), hrevocations, htokens⟩

/-- Behind a loop over the local revocations, they are recorded. -/
theorem localRevocationSteps_done {s s' : AuthState}
    (h : forEach (AuthStep.run crypto opts docId w) (localRevocationSteps opts docId s) s =
      some (.ok (), s')) :
    localRevocationSteps opts docId s' = [] ∧
    (storeSteps docId s = [] → storeSteps docId s' = []) ∧
    localTokenSteps opts docId s' = localTokenSteps opts docId s := by
  by_cases hdone : s.localRevocationsRecordedForDoc = some docId
  · have hnil : localRevocationSteps opts docId s = [] := if_pos hdone
    rw [hnil] at h
    cases h
    exact ⟨hnil, id, rfl⟩
  · rw [localRevocationSteps, if_neg hdone, forEach_append, forEach_singleton] at h
    obtain ⟨_, s₁, hloop, hmark⟩ := bind_ok h
    cases hmark
    have hmarks := items_marks (by simp [AuthStep.mark]) hloop
    obtain ⟨hstore, -, htokens⟩ := steps_of_marks opts docId hmarks
    exact ⟨if_pos rfl, hstore, htokens⟩

theorem recordCapabilities_run (caps : List Capability) (s : AuthState) :
    recordCapabilities crypto opts docId w caps s =
      forEach (AuthStep.run crypto opts docId w) (capabilitySteps opts docId caps s) s := by
  rw [capabilitySteps, forEach_append, forEach_append, forEach_append, forEach_map, forEach_map]
  refine bind_congr_ok (ensureCapabilityStoreRecorded_run s) fun _ s₁ h₁ => ?_
  rw [ensureCapabilityStoreRecorded_run] at h₁
  rw [← (storeSteps_done h₁).2.1]
  exact bind_congr_ok (ensureLocalRevocationsRecorded_run s₁) fun _ s₂ h₂ => rfl

/-- Behind the turns of `recordCapabilities`, the first two loops of `helloCaps` do nothing. -/
theorem capabilitySteps_done {caps : List Capability} {s s' : AuthState}
    (h : forEach (AuthStep.run crypto opts docId w) (capabilitySteps opts docId caps s) s =
      some (.ok (), s')) :
    storeSteps docId s' = [] ∧ localRevocationSteps opts docId s' = [] ∧
    localTokenSteps opts docId s' = localTokenSteps opts docId s := by
  rw [capabilitySteps, forEach_append, forEach_append] at h
  obtain ⟨_, s₁, h₁, h⟩ := bind_ok h
  obtain ⟨_, s₂, h₂, h₃⟩ := bind_ok h
  obtain ⟨hstore₁, hrevocations₁, htokens₁⟩ := storeSteps_done h₁
  rw [← hrevocations₁] at h₂
  obtain ⟨hrevocations₂, hstore₂, htokens₂⟩ := localRevocationSteps_done h₂
  have hmarks := items_marks (by
    intro step hstep t
    obtain h | h := List.mem_append.mp hstep <;>
      obtain ⟨cap, -, rfl⟩ := List.mem_map.mp h <;> rfl) h₃
  obtain ⟨hstore₃, hrevocations₃, htokens₃⟩ :=
    steps_of_marks opts docId hmarks
  exact ⟨hstore₃ (hstore₂ hstore₁), hrevocations₃.trans hrevocations₂,
    htokens₃.trans (htokens₂.trans htokens₁)⟩

/-- The last loop of `helloCaps` and its answer. -/
theorem helloCaps_run {s : AuthState} (hstore : storeSteps docId s = [])
    (hrevocations : localRevocationSteps opts docId s = []) :
    helloCaps crypto opts docId w s =
      (forEach (AuthStep.run crypto opts docId w) (localTokenSteps opts docId s) >>= fun _ =>
        gets (advertised opts)) s := by
  have hstoreRun : ensureCapabilityStoreRecorded crypto opts docId w s = some (.ok (), s) := by
    rw [ensureCapabilityStoreRecorded_run, hstore]
    rfl
  have hrevocationsRun :
      ensureLocalRevocationsRecorded crypto opts docId w s = some (.ok (), s) := by
    rw [ensureLocalRevocationsRecorded_run, hrevocations]
    rfl
  rw [helloCaps, bind_of_ok hstoreRun, bind_of_ok hrevocationsRun]
  exact bind_congr_ok (ensureLocalTokensRecorded_run hstore hrevocations) fun _ _ _ => rfl

/-- A call is its turns in order, and then its answer. -/
theorem AuthCall.run_eq (call : AuthCall) (s : AuthState) :
    call.run crypto opts docId w s =
      (forEach (AuthStep.run crypto opts docId w) (call.steps opts docId s) >>= fun _ =>
        call.answer crypto opts docId w) s := by
  cases call with
  | helloCapabilities =>
    rw [steps, forEach_append, forEach_append, bind_assoc]
    refine bind_congr_ok (ensureCapabilityStoreRecorded_run s) fun _ s₁ h₁ => ?_
    rw [ensureCapabilityStoreRecorded_run] at h₁
    obtain ⟨hstore₁, hrevocations₁, htokens₁⟩ := storeSteps_done h₁
    rw [bind_assoc, ← hrevocations₁, ← htokens₁]
    refine bind_congr_ok (ensureLocalRevocationsRecorded_run s₁) fun _ s₂ h₂ => ?_
    rw [ensureLocalRevocationsRecorded_run] at h₂
    obtain ⟨hrevocations₂, hstore₂, htokens₂⟩ := localRevocationSteps_done h₂
    rw [← htokens₂]
    exact bind_congr_ok (ensureLocalTokensRecorded_run (hstore₂ hstore₁) hrevocations₂)
      fun _ _ _ => rfl
  | onHello caps =>
    rw [steps, forEach_append, bind_assoc]
    refine bind_congr_ok (recordCapabilities_run caps s) fun _ s₁ h₁ => ?_
    rw [recordCapabilities_run] at h₁
    obtain ⟨hstore, hrevocations, htokens⟩ := capabilitySteps_done h₁
    rw [← htokens]
    exact helloCaps_run hstore hrevocations
  | onHelloAck caps =>
    refine (recordCapabilities_run caps s).trans ?_
    rw [steps, bind_run]
    split <;> simp_all [answer]
  | verifyOps ops auth =>
    simp only [run, Auth.verifyOps, steps, answer]
    split
    · rfl
    · exact bind_congr_ok (ensureCapabilityStoreRecorded_run s) fun _ _ _ => rfl

end Auth

end Treecrdt
