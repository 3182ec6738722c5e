import TreecrdtLean.Auth.TokenChain

/-!
# Revocation and the encoding of a token

The id of a token is a hash of all its bytes, and a signature covers two of the four COSE fields.
So one signed content has many ids, and a revocation is about one of them: it turns away every
token with this id and every token that carries one (`revocation_is_by_id`), and not another
encoding of the same content (`reencoding_accepted`).
-/

namespace Treecrdt

namespace Auth

open Exec

variable {crypto : Crypto}

/-- Two byte strings with the same protected header, payload and signature. -/
structure SameSigned (crypto : Crypto) (tokenBytes otherBytes : Bytes) : Prop where
  decoded : ∃ token other, coseDecodeSign1 crypto tokenBytes = .ok token ∧
    coseDecodeSign1 crypto otherBytes = .ok other ∧
    token.protectedHeader = other.protectedHeader ∧ token.payload = other.payload ∧
    token.signature = other.signature

/-- A key signed both or neither. -/
theorem SameSigned.verify {tokenBytes otherBytes : Bytes}
    (h : SameSigned crypto tokenBytes otherBytes) (publicKey : Bytes) :
    coseVerifySign1Ed25519 crypto tokenBytes publicKey =
      coseVerifySign1Ed25519 crypto otherBytes publicKey := by
  obtain ⟨token, other, htoken, hother, hprotected, hpayload, hsignature⟩ := h.decoded
  unfold coseVerifySign1Ed25519
  rw [htoken, hother]
  change (do
    let ok ← crypto.verifyEd25519 token.signature
      (sigStructure crypto token.protectedHeader token.payload) publicKey
    throwIf (!ok) "COSE_Sign1 signature verification failed"
    return token.payload) = _
  rw [hprotected, hpayload, hsignature]
  rfl

theorem SameSigned.issuer {tokenBytes otherBytes : Bytes}
    (h : SameSigned crypto tokenBytes otherBytes) (issuerPublicKeys : List Bytes) :
    verifyWithIssuers crypto tokenBytes issuerPublicKeys =
      verifyWithIssuers crypto otherBytes issuerPublicKeys := by
  induction issuerPublicKeys with
  | nil => rfl
  | cons issuerPk issuerPks ih =>
    unfold verifyWithIssuers
    rw [h.verify issuerPk, ih]

/-- A hard revocation of an id turns away every token string with this id, and every token that
carries such a string as a proof. Another string with the content of an issuer's token is judged
by its own id. -/
theorem revocation_is_by_id (crypto : Crypto) (opts : AuthOptions) (docId : String) (w : World)
    (s : AuthState) (tokenId : Bytes) (hrevoked : HardRevoked opts s tokenId)
    (hissuers : opts.issuerPublicKeys ≠ []) :
    (∀ tokenBytes, deriveTokenIdV1 crypto tokenBytes = tokenId →
      parseAndVerifyCapabilityToken crypto (tokenOptions opts docId w s) tokenBytes =
        .error "capability token revoked") ∧
    (∀ tokenBytes proofs, Carries crypto opts.issuerPublicKeys tokenBytes proofs →
      (∃ proof ∈ proofs, deriveTokenIdV1 crypto proof = tokenId) →
      ∀ grant, parseAndVerifyCapabilityToken crypto (tokenOptions opts docId w s) tokenBytes ≠
        .ok grant) ∧
    (∀ tokenBytes otherBytes payload, SameSigned crypto tokenBytes otherBytes →
      verifyWithIssuers crypto tokenBytes opts.issuerPublicKeys = some payload →
      ∀ grant, parseAndVerifyCapabilityToken crypto (tokenOptions opts docId w s) otherBytes =
          .ok grant ↔
        ¬ HardRevoked opts s (deriveTokenIdV1 crypto otherBytes) ∧
        hookRevokes opts (.parse ⟨deriveTokenIdV1 crypto otherBytes, some otherBytes, docId,
          some 0⟩) = false ∧
        parseCapabilityGrantFromClaims crypto docId w.nowSec otherBytes payload = .ok grant) := by
  refine ⟨?_, ?_, ?_⟩
  · rintro tokenBytes rfl
    exact parse_of_hardRevoked hissuers hrevoked
  · rintro tokenBytes proofs hcarries ⟨proof, hproof, rfl⟩ grant haccepted
    obtain ⟨proofs', hcarries', hclean⟩ := clean_of_accepted haccepted
    obtain rfl := hcarries.unique hcarries'
    exact hclean proof (List.mem_cons_of_mem _ hproof) hrevoked
  · intro tokenBytes otherBytes payload hsame hissuer grant
    exact issued_accepted_iff ((hsame.issuer _).symm.trans hissuer)

/-! A token of the issuer, the same with an entry in its unprotected header, and a record that
revokes the first. -/

def reencodedClaims : Cbor := sampleClaims [2] .infinity ["write_structure"]

def firstEncoding : Cbor := sampleToken [] reencodedClaims [1]

def secondEncoding : Cbor := sampleToken [(.text "x", .null)] reencodedClaims [1]

def firstId : Bytes := (keepingHash (TOKEN_ID_DOMAIN ++ firstEncoding.encode)).take 16

def firstRevocation : Cbor := sampleToken [] (sampleRevocation firstId) [1]

def reencodeCrypto : Crypto :=
  { sampleCrypto [reencodedClaims, firstEncoding, secondEncoding, sampleRevocation firstId,
      firstRevocation] with blake3 := keepingHash }

def reencodeOptions : AuthOptions where
  issuerPublicKeys := [[1]]
  localCapabilityTokens := []
  localRevocationRecords := []
  revokedCapabilityTokenIds := none
  isCapabilityTokenRevoked := none
  allowUnsigned := false
  requireProofRef := true

def reencodeWorld : World := ⟨10, none⟩

/-- The peer after an `onHelloAck` with the record. -/
def revokedPeer : AuthState :=
  match onHelloAck reencodeCrypto reencodeOptions "d" reencodeWorld
    [⟨TREECRDT_REVOCATION_CAPABILITY, firstRevocation.encode⟩] (.start none) with
  | some (_, s) => s
  | none => .start none

private theorem secondEncoding_parse :
    (parseAndVerifyCapabilityToken reencodeCrypto
      (tokenOptions reencodeOptions "d" reencodeWorld revokedPeer) secondEncoding.encode).isOk =
        true := by decide +kernel

private theorem firstId_revoked :
    (revokedPeer.revocationByToken.get? firstId).any (·.1.mode = .hard) = true := by
  decide +kernel

private theorem firstId_derived :
    deriveTokenIdV1 reencodeCrypto firstEncoding.encode = firstId := by decide +kernel

private theorem encodings_decoded :
    (coseDecodeSign1 reencodeCrypto firstEncoding.encode).map
        (fun d => (d.protectedHeader, d.payload, d.signature)) =
      .ok ([], reencodedClaims.encode, [1]) ∧
    (coseDecodeSign1 reencodeCrypto secondEncoding.encode).map
        (fun d => (d.protectedHeader, d.payload, d.signature)) =
      .ok ([], reencodedClaims.encode, [1]) := by decide +kernel

theorem firstId_hardRevoked : HardRevoked reencodeOptions revokedPeer firstId := by
  obtain ⟨entry, hget, hmode⟩ := Option.any_eq_true _ _ |>.mp firstId_revoked
  exact Or.inr ⟨entry, hget, by simpa using hmode⟩

theorem encodings_sameSigned :
    SameSigned reencodeCrypto firstEncoding.encode secondEncoding.encode := by
  obtain ⟨first, hfirst, h⟩ := except_map_ok encodings_decoded.1
  obtain ⟨second, hsecond, h'⟩ := except_map_ok encodings_decoded.2
  simp only [Prod.mk.injEq] at h h'
  exact ⟨first, second, hfirst, hsecond, h.1.trans h'.1.symm, h.2.1.trans h'.2.1.symm,
    h.2.2.trans h'.2.2.symm⟩

/-- The first encoding is turned away as revoked, and the second is accepted. -/
theorem reencoding_accepted : ¬ ∀ (crypto : Crypto) (opts : AuthOptions) (docId : String)
    (w : World) (s : AuthState) (tokenId tokenBytes otherBytes : Bytes),
    HardRevoked opts s tokenId → SameSigned crypto tokenBytes otherBytes →
    parseAndVerifyCapabilityToken crypto (tokenOptions opts docId w s) tokenBytes =
      .error "capability token revoked" →
    parseAndVerifyCapabilityToken crypto (tokenOptions opts docId w s) otherBytes =
      .error "capability token revoked" := by
  intro hclaim
  have herror := hclaim reencodeCrypto reencodeOptions "d" reencodeWorld revokedPeer firstId
    firstEncoding.encode secondEncoding.encode firstId_hardRevoked encodings_sameSigned
    (parse_of_hardRevoked (by decide) (firstId_derived ▸ firstId_hardRevoked))
  have haccepted := secondEncoding_parse
  rw [herror] at haccepted
  cases haccepted

/-- The witness: the first encoding and the record above. -/
theorem revocation_is_by_id_first :
    parseAndVerifyCapabilityToken reencodeCrypto
      (tokenOptions reencodeOptions "d" reencodeWorld revokedPeer) firstEncoding.encode =
        .error "capability token revoked" :=
  (revocation_is_by_id reencodeCrypto reencodeOptions "d" reencodeWorld revokedPeer firstId
    firstId_hardRevoked (by decide)).1 _ firstId_derived

end Auth

end Treecrdt
