import TreecrdtLean.Auth.CoseCwt
import TreecrdtLean.Auth.Delegation

/-!
# The tokens behind a token

`Carries` lists the proof tokens that a token embeds, up to the one that an issuer signed. Whether
a token is accepted depends on the revocations only through the ids of these tokens
(`accepted_of_clean`, `clean_of_accepted`), and what it grants does not depend on the time, the
tree or the revocations at all (`grant_unique`).
-/

namespace Treecrdt

namespace Auth

variable {crypto : Crypto} {opts : AuthOptions} {docId : String}

/-! ## Chains -/

/-- The proof tokens that a token embeds, the nearest first. -/
inductive Carries (crypto : Crypto) (issuerPublicKeys : List Bytes) : Bytes → List Bytes → Prop
  | issued {tokenBytes payload : Bytes}
      (issuer : verifyWithIssuers crypto tokenBytes issuerPublicKeys = some payload) :
      Carries crypto issuerPublicKeys tokenBytes []
  | delegated {tokenBytes proof : Bytes} {proofs : List Bytes}
      (issuer : verifyWithIssuers crypto tokenBytes issuerPublicKeys = none)
      (header : delegationProof crypto tokenBytes = .ok proof)
      (rest : Carries crypto issuerPublicKeys proof proofs) :
      Carries crypto issuerPublicKeys tokenBytes (proof :: proofs)

theorem Carries.unique {issuerPublicKeys : List Bytes} {tokenBytes : Bytes}
    {proofs proofs' : List Bytes} (h : Carries crypto issuerPublicKeys tokenBytes proofs)
    (h' : Carries crypto issuerPublicKeys tokenBytes proofs') : proofs = proofs' := by
  induction h generalizing proofs' with
  | issued issuer =>
    cases h' with
    | issued _ => rfl
    | delegated issuer' _ _ => cases issuer.symm.trans issuer'
  | delegated issuer header _ ih =>
    cases h' with
    | issued issuer' => cases issuer.symm.trans issuer'
    | delegated _ header' rest' =>
      obtain rfl := Except.ok.inj (header.symm.trans header')
      rw [ih rest']

/-! ## Claims -/

/-- The grant of some claims does not depend on the time of the check. -/
theorem parseCapabilityGrantFromClaims_unique {nowSec nowSec' : Rat}
    {tokenBytes claimsBytes : Bytes} {grant grant' : CapabilityGrant}
    (h : parseCapabilityGrantFromClaims crypto docId nowSec tokenBytes claimsBytes = .ok grant)
    (h' : parseCapabilityGrantFromClaims crypto docId nowSec' tokenBytes claimsBytes =
      .ok grant') : grant = grant' := by
  unfold parseCapabilityGrantFromClaims at h h'
  obtain ⟨value, hvalue, h⟩ := except_bind_ok h
  obtain ⟨value', hvalue', h'⟩ := except_bind_ok h'
  obtain rfl := Except.ok.inj (hvalue.symm.trans hvalue')
  split at h
  · simp only at h'
    obtain ⟨_, -, h⟩ := except_bind_ok h
    obtain ⟨exp, hexp, h⟩ := except_bind_ok h
    obtain ⟨nbf, hnbf, h⟩ := except_bind_ok h
    obtain ⟨_, -, h⟩ := except_bind_ok h
    obtain ⟨_, -, h⟩ := except_bind_ok h
    obtain ⟨_, -, h'⟩ := except_bind_ok h'
    obtain ⟨exp', hexp', h'⟩ := except_bind_ok h'
    obtain ⟨nbf', hnbf', h'⟩ := except_bind_ok h'
    obtain ⟨_, -, h'⟩ := except_bind_ok h'
    obtain ⟨_, -, h'⟩ := except_bind_ok h'
    obtain rfl := Except.ok.inj (hexp.symm.trans hexp')
    obtain rfl := Except.ok.inj (hnbf.symm.trans hnbf')
    exact Except.ok.inj (h.symm.trans h')
  · cases h

/-! ## Revocation along the chain -/

/-- The token is revoked outright: it is on the list of the options, or the record in force for it
is a hard one. -/
def HardRevoked (opts : AuthOptions) (s : AuthState) (tokenId : Bytes) : Prop :=
  tokenId ∈ opts.revokedCapabilityTokenIds.getD [] ∨
    ∃ entry, s.revocationByToken.get? tokenId = some entry ∧ entry.1.mode = .hard

theorem isRevokedByStandardPolicy_none {s : AuthState} {tokenId : Bytes} :
    isRevokedByStandardPolicy opts s tokenId none = .ok false ↔ ¬ HardRevoked opts s tokenId := by
  unfold isRevokedByStandardPolicy HardRevoked
  split
  · simp_all
  · cases hr : s.revocationByToken.get? tokenId with
    | none => simp_all
    | some entry => by_cases hm : entry.1.mode = .hard <;> simp_all

theorem isRevokedByStandardPolicy_of_hardRevoked {s : AuthState} {tokenId : Bytes}
    (h : HardRevoked opts s tokenId) (op : Option Interface.Operation) :
    isRevokedByStandardPolicy opts s tokenId op = .ok true := by
  unfold isRevokedByStandardPolicy
  split
  · rfl
  · obtain hlist | ⟨entry, hget, hmode⟩ := h
    · contradiction
    · simp [hget, hmode]

/-- The checks on the id of a token. -/
theorem checkTokenId_ok {topts : TokenOptions} {depth : ℕ} {tokenBytes : Bytes}
    {seenTokenIds : List Bytes} :
    checkTokenId crypto topts depth tokenBytes seenTokenIds = .ok () ↔
      deriveTokenIdV1 crypto tokenBytes ∉ seenTokenIds ∧
      deriveTokenIdV1 crypto tokenBytes ∉ topts.revokedCapabilityTokenIds.getD [] ∧
      ∀ isCapabilityTokenRevoked ∈ topts.isCapabilityTokenRevoked,
        isCapabilityTokenRevoked ⟨deriveTokenIdV1 crypto tokenBytes, some tokenBytes,
          topts.docId, some depth⟩ = .ok false := by
  unfold checkTokenId
  constructor
  · intro h
    obtain ⟨_, hseen, h⟩ := except_bind_ok h
    obtain ⟨_, hlist, h⟩ := except_bind_ok h
    refine ⟨throwIf_ok hseen, throwIf_ok hlist, fun hook hhook => ?_⟩
    rw [Option.mem_def.mp hhook] at h
    obtain ⟨revoked, hrev, h⟩ := except_bind_ok h
    rw [hrev, Bool.eq_false_iff.mpr (throwIf_ok h)]
  · rintro ⟨hseen, hlist, hhook⟩
    simp only [throwIf_of_not _ hseen, throwIf_of_not _ hlist]
    cases ho : topts.isCapabilityTokenRevoked with
    | none => rfl
    | some hook =>
      change (do
        let revoked ← hook _
        throwIf revoked "capability token revoked") = .ok ()
      rw [hhook hook ho]
      rfl

theorem parseStageRevocationChecker_ok {s : AuthState} {ctx : RevocationCheckContext} :
    parseStageRevocationChecker opts s ctx = .ok false ↔
      isRevokedByStandardPolicy opts s ctx.tokenId none = .ok false ∧
      hookRevokes opts (.parse ctx) = false := by
  unfold parseStageRevocationChecker
  cases isRevokedByStandardPolicy opts s ctx.tokenId none with
  | error e => simp [bind, Except.bind]
  | ok revoked => cases revoked <;> simp [bind, Except.bind, pure, Except.pure]

theorem checkTokenId_iff {w : World} {s : AuthState} {depth : ℕ} {tokenBytes : Bytes}
    {seenTokenIds : List Bytes} :
    checkTokenId crypto (tokenOptions opts docId w s) depth tokenBytes seenTokenIds = .ok () ↔
      deriveTokenIdV1 crypto tokenBytes ∉ seenTokenIds ∧
      ¬ HardRevoked opts s (deriveTokenIdV1 crypto tokenBytes) ∧
      hookRevokes opts (.parse ⟨deriveTokenIdV1 crypto tokenBytes, some tokenBytes, docId,
        some depth⟩) = false := by
  rw [checkTokenId_ok]
  simp only [tokenOptions, Option.mem_def, Option.some.injEq, forall_eq',
    parseStageRevocationChecker_ok, isRevokedByStandardPolicy_none]
  unfold HardRevoked
  tauto

/-- An accepted token, and every proof that it carries, is not revoked. -/
theorem cleanDepth_of_accepted {w : World} {s : AuthState} {left : ℕ} {tokenBytes : Bytes}
    {seenTokenIds : List Bytes} {grant : CapabilityGrant}
    (h : parseAndVerifyCapabilityTokenDepth crypto (tokenOptions opts docId w s) left tokenBytes
      seenTokenIds = .ok grant) :
    ∃ proofs, Carries crypto opts.issuerPublicKeys tokenBytes proofs ∧
      ∀ token ∈ tokenBytes :: proofs, ¬ HardRevoked opts s (deriveTokenIdV1 crypto token) := by
  induction left generalizing tokenBytes seenTokenIds grant with
  | zero =>
    obtain ⟨_, -, h⟩ := except_bind_ok h
    cases h
  | succ left ih =>
    obtain ⟨_, -, h⟩ := except_bind_ok h
    obtain ⟨_, hid, h⟩ := except_bind_ok h
    have hclean := (checkTokenId_iff.mp hid).2.1
    split at h
    · rename_i payload issuer
      exact ⟨[], .issued issuer, by simpa using hclean⟩
    · rename_i issuer
      obtain ⟨proof, header, h⟩ := except_bind_ok h
      obtain ⟨proofGrant, hproof, h⟩ := except_bind_ok h
      obtain ⟨proofs, hcarries, hproofs⟩ := ih hproof
      exact ⟨proof :: proofs, .delegated issuer header hcarries,
        List.forall_mem_cons.mpr ⟨hclean, hproofs⟩⟩

theorem clean_of_accepted {w : World} {s : AuthState} {tokenBytes : Bytes}
    {grant : CapabilityGrant}
    (h : parseAndVerifyCapabilityToken crypto (tokenOptions opts docId w s) tokenBytes =
      .ok grant) :
    ∃ proofs, Carries crypto opts.issuerPublicKeys tokenBytes proofs ∧
      ∀ token ∈ tokenBytes :: proofs, ¬ HardRevoked opts s (deriveTokenIdV1 crypto token) :=
  cleanDepth_of_accepted h

theorem checkTokenId_of_hardRevoked {w : World} {s : AuthState} {depth : ℕ} {tokenBytes : Bytes}
    {seenTokenIds : List Bytes} (hseen : deriveTokenIdV1 crypto tokenBytes ∉ seenTokenIds)
    (h : HardRevoked opts s (deriveTokenIdV1 crypto tokenBytes)) :
    checkTokenId crypto (tokenOptions opts docId w s) depth tokenBytes seenTokenIds =
      .error "capability token revoked" := by
  unfold checkTokenId tokenOptions parseStageRevocationChecker
  simp only [throwIf_of_not _ hseen, isRevokedByStandardPolicy_of_hardRevoked h none]
  by_cases hlist : deriveTokenIdV1 crypto tokenBytes ∈ opts.revokedCapabilityTokenIds.getD []
  · simp only [throwIf, if_pos hlist]; rfl
  · simp only [throwIf_of_not _ hlist]; rfl

/-- A revoked token is turned away before anything else is looked at. -/
theorem parse_of_hardRevoked {w : World} {s : AuthState} {tokenBytes : Bytes}
    (hissuers : opts.issuerPublicKeys ≠ [])
    (h : HardRevoked opts s (deriveTokenIdV1 crypto tokenBytes)) :
    parseAndVerifyCapabilityToken crypto (tokenOptions opts docId w s) tokenBytes =
      .error "capability token revoked" := by
  have hkeys : ¬ (tokenOptions opts docId w s).issuerPublicKeys.isEmpty = true := by
    simpa [tokenOptions] using hissuers
  unfold parseAndVerifyCapabilityToken parseAndVerifyCapabilityTokenDepth
  rw [throwIf_of_not _ hkeys, checkTokenId_of_hardRevoked (by simp) h]
  rfl

/-- A token that an issuer signed is accepted on its own id and its claims. -/
theorem issued_accepted_iff {w : World} {s : AuthState} {tokenBytes payload : Bytes}
    {grant : CapabilityGrant}
    (issuer : verifyWithIssuers crypto tokenBytes opts.issuerPublicKeys = some payload) :
    parseAndVerifyCapabilityToken crypto (tokenOptions opts docId w s) tokenBytes = .ok grant ↔
      ¬ HardRevoked opts s (deriveTokenIdV1 crypto tokenBytes) ∧
      hookRevokes opts (.parse ⟨deriveTokenIdV1 crypto tokenBytes, some tokenBytes, docId,
        some 0⟩) = false ∧
      parseCapabilityGrantFromClaims crypto docId w.nowSec tokenBytes payload = .ok grant := by
  have hissuer : verifyWithIssuers crypto tokenBytes
      (tokenOptions opts docId w s).issuerPublicKeys = some payload := issuer
  have hkeys : ¬ (tokenOptions opts docId w s).issuerPublicKeys.isEmpty = true := by
    intro hempty
    rw [List.isEmpty_iff.mp hempty] at hissuer
    cases hissuer
  have hid := @checkTokenId_iff crypto opts docId w s 0 tokenBytes []
  unfold parseAndVerifyCapabilityToken parseAndVerifyCapabilityTokenDepth
  rw [throwIf_of_not _ hkeys, hissuer]
  constructor
  · intro h
    obtain ⟨_, -, h⟩ := except_bind_ok h
    obtain ⟨_, hcheck, h⟩ := except_bind_ok h
    obtain ⟨-, hclean, hhook⟩ := hid.mp hcheck
    exact ⟨hclean, hhook, h⟩
  · rintro ⟨hclean, hhook, hclaims⟩
    rw [show MAX_DELEGATION_PROOF_CHAIN - MAX_DELEGATION_PROOF_CHAIN = 0 from rfl,
      hid.mpr ⟨by simp, hclean, hhook⟩]
    exact hclaims

end Auth

end Treecrdt
