import TreecrdtLean.Auth.Steps

/-!
# Stale tokens of third parties

Tokens of other peers come back: from the capability store at every start, and as replay
capabilities in every handshake. One that was accepted and is not any more should be skipped. The
loops skip it if its message says that it is revoked, and a call fails on any other
(`skipsStale_iff`), such as a token that has expired (`expired_not_skipped`).
-/

namespace Treecrdt

namespace Auth

open Exec

variable (crypto : Crypto) (opts : AuthOptions) (docId : String) (w : World)

/-- The token is accepted at some time, over some tree, with some revocations. -/
def Genuine (tokenBytes : Bytes) : Prop :=
  ∃ w s grant, parseAndVerifyCapabilityToken crypto (tokenOptions opts docId w s) tokenBytes =
    .ok grant

/-- The token of another peer, from the store or from a replay capability. -/
def AuthStep.thirdParty : AuthStep → Option Bytes
  | stored cap =>
    if isAnyAuthCapability cap && !isLocalToken crypto opts cap.value then some cap.value else none
  | peerToken cap =>
    if isReplayAuthCapability cap && !isLocalToken crypto opts cap.value then some cap.value
    else none
  | _ => none

/-- The turn is for a token of another peer that has expired, is not valid yet, is revoked, or
whose delegation cannot be checked: it is genuine, and fails its check now. -/
def AuthStep.Stale (step : AuthStep) (s : AuthState) (message : String) : Prop :=
  ∃ tokenBytes, step.thirdParty crypto opts = some tokenBytes ∧
    Genuine crypto opts docId tokenBytes ∧
    parseAndVerifyCapabilityToken crypto (tokenOptions opts docId w s) tokenBytes = .error message

open Classical in
/-- The turn, where a stale token is skipped. -/
noncomputable def AuthStep.skipping (step : AuthStep) : Exec String AuthState Unit := fun s =>
  if ∃ message, step.Stale crypto opts docId w s message then some (.ok (), s)
  else step.run crypto opts docId w s

/-- The call comes to the turn in the state `t`. -/
def AuthCall.ComesTo (call : AuthCall) (s : AuthState) (step : AuthStep) (t : AuthState) : Prop :=
  Reaches (AuthStep.run crypto opts docId w) (call.steps opts docId s) s step t

/-- A call that no stale token harms. -/
structure AuthCall.SkipsStale (call : AuthCall) (s : AuthState) : Prop where
  /-- A stale token is skipped. -/
  skipped : ∀ step t message, call.ComesTo crypto opts docId w s step t →
    step.Stale crypto opts docId w t message → step.run crypto opts docId w t = some (.ok (), t)
  /-- The call ends as if no stale token were there. -/
  outcome : call.run crypto opts docId w s =
    (forEach (AuthStep.skipping crypto opts docId w) (call.steps opts docId s) >>= fun _ =>
      call.answer crypto opts docId w) s
  /-- Every other token is recorded. -/
  recorded : ∀ step t tokenBytes grant r s', call.ComesTo crypto opts docId w s step t →
    step.token = some tokenBytes →
    parseAndVerifyCapabilityToken crypto (tokenOptions opts docId w t) tokenBytes = .ok grant →
    call.run crypto opts docId w s = some (r, s') → (s'.grant? grant.keyId grant.tokenId).isSome

/-- Every stale token that the call comes to is so because it is revoked. -/
def AuthCall.OnlyRevoked (call : AuthCall) (s : AuthState) : Prop :=
  ∀ step t message, call.ComesTo crypto opts docId w s step t →
    step.Stale crypto opts docId w t message →
    includes message "capability token revoked" = true ∨ includes message "unknown issuer" = true

variable {crypto opts docId w}

/-! ## What stays recorded -/

/-- No turn drops a grant. -/
theorem AuthStep.run_grant? {step : AuthStep} {s s' : AuthState} {r : Except String Unit}
    {keyId tokenId : Bytes} (h : step.run crypto opts docId w s = some (r, s'))
    (hs : (s.grant? keyId tokenId).isSome) : (s'.grant? keyId tokenId).isSome := by
  obtain ⟨_, grant, -, -, -, rfl⟩ | ⟨_, _, -, -, -, rfl⟩ | ⟨_, _, -, -, -, rfl⟩ |
    ⟨_, _, -, -, -, rfl⟩ | ⟨-, -, -, rfl⟩ := run_cases h
  · rw [keep_grant?, AuthState.grant?_addGrant]
    split
    · rfl
    · exact hs
  · exact hs
  · exact hs
  · exact hs
  · rwa [mark_grant?]

/-- The turn of an accepted token records it. -/
theorem AuthStep.run_accepted {step : AuthStep} {s s' : AuthState} {r : Except String Unit}
    {tokenBytes : Bytes} {grant : CapabilityGrant} (htoken : step.token = some tokenBytes)
    (hgrant : parseAndVerifyCapabilityToken crypto (tokenOptions opts docId w s) tokenBytes =
      .ok grant) (h : step.run crypto opts docId w s = some (r, s')) :
    (s'.grant? grant.keyId grant.tokenId).isSome := by
  rw [run_of_token htoken, tokenTurn, hgrant] at h
  cases h
  rw [keep_grant?, AuthState.grant?_addGrant, if_pos ⟨rfl, rfl⟩]
  rfl

/-- The answer of a call writes nothing. -/
theorem AuthCall.answer_state {call : AuthCall} {s s' : AuthState}
    {r : Except String call.Answer} (h : call.answer crypto opts docId w s = some (r, s')) :
    s' = s := by
  cases call with
  | helloCapabilities | onHello caps | onHelloAck caps => cases h; rfl
  | verifyOps ops auth =>
    simp only [answer] at h
    split at h
    · cases h; rfl
    · split at h
      · split at h <;> cases h <;> rfl
      · obtain ⟨_, hc, -⟩ | ⟨_, _, hc, h⟩ := bind_some h
        · exact congrArg Prod.snd (Option.some.inj hc).symm
        · cases h
          exact congrArg Prod.snd (Option.some.inj hc).symm

/-! ## Stale tokens -/

theorem AuthStep.token_of_thirdParty {step : AuthStep} {tokenBytes : Bytes}
    (h : step.thirdParty crypto opts = some tokenBytes) : step.token = some tokenBytes := by
  cases step with
  | stored cap =>
    simp only [thirdParty, Bool.and_eq_true, Option.ite_none_right_eq_some] at h
    simp [token, h.1.1, h.2]
  | peerToken cap =>
    simp only [thirdParty, Bool.and_eq_true, Option.ite_none_right_eq_some] at h
    simp [token, isAnyAuthCapability, h.1.1, h.2]
  | _ => cases h

/-- The handlers of the loops, for tokens of other peers. -/
theorem AuthStep.tolerates_of_thirdParty {step : AuthStep} {tokenBytes : Bytes}
    (h : step.thirdParty crypto opts = some tokenBytes) (message : String) :
    step.tolerates message =
      (includes message "capability token revoked" || includes message "unknown issuer") := by
  cases step with
  | stored cap => rfl
  | peerToken cap =>
    simp only [thirdParty, Bool.and_eq_true, Option.ite_none_right_eq_some] at h
    simp [tolerates, h.1.1]
  | _ => cases h

/-- A stale token is skipped exactly where its message is one of those. -/
theorem AuthStep.Stale.skipped_iff {step : AuthStep} {t : AuthState} {message : String}
    (h : step.Stale crypto opts docId w t message) :
    step.run crypto opts docId w t = some (.ok (), t) ↔
      includes message "capability token revoked" = true ∨
        includes message "unknown issuer" = true := by
  obtain ⟨tokenBytes, hthird, -, hfails⟩ := h
  rw [run_of_token (token_of_thirdParty hthird), tokenTurn, hfails]
  simp only [tolerates_of_thirdParty hthird, Bool.or_eq_true]
  split <;> rename_i htol
  · exact iff_of_true rfl htol
  · exact iff_of_false (fun h => by cases h) htol

/-- No stale token harms a call exactly when those that the call comes to are revoked. -/
theorem skipsStale_iff (crypto : Crypto) (opts : AuthOptions) (docId : String) (w : World)
    (call : AuthCall) (s : AuthState) :
    call.SkipsStale crypto opts docId w s ↔ call.OnlyRevoked crypto opts docId w s := by
  constructor
  · intro h step t message hcomes hstale
    exact hstale.skipped_iff.mp (h.skipped step t message hcomes hstale)
  · intro h
    have hskip : ∀ step t message, call.ComesTo crypto opts docId w s step t →
        step.Stale crypto opts docId w t message →
        step.run crypto opts docId w t = some (.ok (), t) := fun step t message hcomes hstale =>
      hstale.skipped_iff.mpr (h step t message hcomes hstale)
    refine ⟨hskip, ?_, ?_⟩
    · rw [AuthCall.run_eq]
      refine bind_congr_ok (forEach_congr fun step t hcomes => ?_) fun _ _ _ => rfl
      unfold AuthStep.skipping
      split
      · rename_i hstale
        obtain ⟨message, hstale⟩ := hstale
        exact hskip step t message hcomes hstale
      · rfl
    · intro step t tokenBytes grant r s' hcomes htoken hgrant hrun
      have hloop : ∀ r s₁, forEach (AuthStep.run crypto opts docId w) (call.steps opts docId s) s =
          some (r, s₁) → (s₁.grant? grant.keyId grant.tokenId).isSome := fun r s₁ =>
        hcomes.keeps (fun _ _ _ _ hturn => AuthStep.run_grant? hturn)
          fun _ _ => AuthStep.run_accepted htoken hgrant
      rw [AuthCall.run_eq] at hrun
      obtain ⟨_, hfails, -⟩ | ⟨_, s₁, hends, hanswer⟩ := bind_some hrun
      · exact hloop _ _ hfails
      · rw [AuthCall.answer_state hanswer]
        exact hloop _ _ hends

/-! A peer is sent two tokens of other peers, of which one expires at 50, and stores them. It is
started again at 60. -/

def expiringClaims : Cbor := sampleClaims [2] (.ofInt 50) ["write_structure"]

def expiringToken : Cbor := sampleToken [] expiringClaims [1]

def lastingClaims : Cbor := sampleClaims [3] .infinity ["write_structure"]

def lastingToken : Cbor := sampleToken [] lastingClaims [1]

def staleCrypto : Crypto :=
  { sampleCrypto [expiringClaims, expiringToken, lastingClaims, lastingToken] with
    blake3 := keepingHash }

def staleOptions : AuthOptions where
  issuerPublicKeys := [[1]]
  localCapabilityTokens := []
  localRevocationRecords := []
  revokedCapabilityTokenIds := none
  isCapabilityTokenRevoked := none
  allowUnsigned := false
  requireProofRef := true

def restartedPeer : AuthState :=
  match onHelloAck staleCrypto staleOptions "d" ⟨10, none⟩
    [⟨AUTH_REPLAY_CAPABILITY_NAME, expiringToken.encode⟩,
      ⟨AUTH_REPLAY_CAPABILITY_NAME, lastingToken.encode⟩] (.start (some [])) with
  | some (_, s) => .start s.capabilityStore
  | none => .start none

private theorem restartedPeer_store : restartedPeer.capabilityStore =
    some [⟨AUTH_REPLAY_CAPABILITY_NAME, expiringToken.encode⟩,
      ⟨AUTH_REPLAY_CAPABILITY_NAME, lastingToken.encode⟩] := by decide +kernel

private theorem expiringToken_accepted :
    (parseAndVerifyCapabilityToken staleCrypto
      (tokenOptions staleOptions "d" ⟨10, none⟩ (.start none)) expiringToken.encode).isOk =
        true := by decide +kernel

private theorem expiringToken_expired :
    (parseAndVerifyCapabilityToken staleCrypto
      (tokenOptions staleOptions "d" ⟨60, none⟩ restartedPeer) expiringToken.encode).map
        (·.tokenId) = .error "capability token expired" := by decide +kernel

private theorem helloCapabilities_fails :
    (helloCapabilities staleCrypto staleOptions "d" ⟨60, none⟩ restartedPeer).map (·.1) =
      some (.error "capability token expired") := by decide +kernel

private theorem expiringToken_stale :
    (AuthStep.stored ⟨AUTH_REPLAY_CAPABILITY_NAME, expiringToken.encode⟩).Stale staleCrypto
      staleOptions "d" ⟨60, none⟩ restartedPeer "capability token expired" := by
  refine ⟨expiringToken.encode, by decide +kernel, ?_, ?_⟩
  · cases h : parseAndVerifyCapabilityToken staleCrypto
        (tokenOptions staleOptions "d" ⟨10, none⟩ (.start none)) expiringToken.encode with
    | ok grant => exact ⟨_, _, grant, h⟩
    | error message =>
      have haccepted := expiringToken_accepted
      rw [h] at haccepted
      cases haccepted
  · have hfails := expiringToken_expired
    revert hfails
    cases parseAndVerifyCapabilityToken staleCrypto
        (tokenOptions staleOptions "d" ⟨60, none⟩ restartedPeer) expiringToken.encode with
    | ok grant => exact fun h => by cases h
    | error message => exact fun h => congrArg Except.error (Except.error.inj h)

/-- The peer cannot say hello any more: the token is not skipped. -/
theorem expired_not_skipped :
    (helloCapabilities staleCrypto staleOptions "d" ⟨60, none⟩ restartedPeer).map (·.1) =
      some (.error "capability token expired") ∧
    ¬ AuthCall.helloCapabilities.SkipsStale staleCrypto staleOptions "d" ⟨60, none⟩
      restartedPeer := by
  refine ⟨helloCapabilities_fails, fun h => ?_⟩
  have hcomes : AuthCall.helloCapabilities.ComesTo staleCrypto staleOptions "d" ⟨60, none⟩
      restartedPeer (.stored ⟨AUTH_REPLAY_CAPABILITY_NAME, expiringToken.encode⟩)
      restartedPeer := by
    unfold AuthCall.ComesTo AuthCall.steps storeSteps
    rw [restartedPeer_store]
    exact .here
  have hskipped := h.skipped _ _ _ hcomes expiringToken_stale
  exact absurd (expiringToken_stale.skipped_iff.mp hskipped) (by decide +kernel)

end Auth

end Treecrdt
