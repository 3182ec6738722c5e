import TreecrdtLean.Auth.Capability

/-!
# Revocation records (`revocation.ts`)

A record is claims about one token, signed by an issuer. Of two records for a token the one with
the higher `rev_seq` wins, and with one `rev_seq` the one with the larger bytes.
-/

namespace Treecrdt

namespace Auth

inductive RevocationMode where
  | hard
  | writeCutover
  deriving DecidableEq

/-- A verified record. -/
structure RevocationRecord where
  docId : String
  tokenId : Bytes
  mode : RevocationMode
  revSeq : ℕ
  iat : Option ℕ
  effectiveFromCounter : Option ℕ
  effectiveFromReplica : Option Bytes
  issuerPublicKey : Bytes
  deriving DecidableEq

/-! ## Claims -/

def REVOCATION_V1_ALLOWED_CLAIMS : List String :=
  ["v", "t", "doc_id", "token_id", "mode", "rev_seq", "iat", "effective_from_counter",
    "effective_from_replica"]

def assertNoUnknownClaims : List (Cbor × Cbor) → Except String Unit
  | [] => .ok ()
  | (.text key, _) :: rest => do
    throwIf (key ∉ REVOCATION_V1_ALLOWED_CLAIMS)
      ("RevocationRecordV1 contains unknown claim: " ++ key)
    assertNoUnknownClaims rest
  | _ => .error "RevocationRecordV1 contains non-string claim key"

def assertString (val : Cbor) (field : String) : Except String String :=
  match val with
  | .text s => .ok s
  | _ => .error (field ++ " must be a string")

def assertInteger (val : Cbor) (field : String) : Except String ℕ :=
  match val with
  | .number (.finite q) =>
    if q.den = 1 ∧ 0 ≤ q.num then .ok q.num.toNat
    else .error (field ++ " must be a non-negative integer")
  | _ => .error (field ++ " must be a non-negative integer")

def assertBytesLen (val : Cbor) (expectedLen : ℕ) (field : String) : Except String Bytes :=
  match val with
  | .bytes b =>
    if b.length = expectedLen then .ok b
    else .error (field ++ " must be " ++ toString expectedLen ++ " bytes")
  | _ => .error (field ++ " must be bytes")

/-- A claim that may be missing. -/
def optionalClaim {α : Type} (val : Cbor) (read : Cbor → Except String α) :
    Except String (Option α) :=
  match val with
  | .undefined => .ok none
  | val => (read val).map some

def parseRevocationMode : Cbor → Except String RevocationMode
  | .text mode =>
    if mode = "hard" then .ok .hard
    else if mode = "write_cutover" then .ok .writeCutover
    else .error "RevocationRecordV1.mode must be \"hard\" or \"write_cutover\""
  | _ => .error "RevocationRecordV1.mode must be \"hard\" or \"write_cutover\""

/-- Only a cutover needs a counter. -/
def validateModeFields (mode : RevocationMode) (effectiveFromCounter : Option ℕ) :
    Except String Unit :=
  throwIf (mode = .writeCutover ∧ effectiveFromCounter = none)
    "RevocationRecordV1.write_cutover requires effective_from_counter"

/-- `iat > nowSec`. -/
def issuedAfter (iat : Option ℕ) (nowSec : Rat) : Bool :=
  iat.any fun iat => (JsNumber.finite nowSec).lt (.ofInt iat)

/-! ## Verification -/

/-- The first issuer whose signature the record has, with the payload. -/
def revocationIssuer (crypto : Crypto) (recordBytes : Bytes) : List Bytes → Option (Bytes × Bytes)
  | [] => none
  | issuerPk :: issuerPks =>
    match coseVerifySign1Ed25519 crypto recordBytes issuerPk with
    | .ok payload => some (payload, issuerPk)
    | .error _ => revocationIssuer crypto recordBytes issuerPks

/-- The claims of a record. -/
def parseRevocationClaims (expectedDocId : String) (issuerPublicKey : Bytes)
    (claims : List (Cbor × Cbor)) : Except String RevocationRecord := do
  assertNoUnknownClaims claims
  let claim (key : String) := Cbor.find (Cbor.isText key) claims
  throwIf (!Cbor.isInt 1 (claim "v")) "RevocationRecordV1.v must be 1"
  let t ← assertString (claim "t") "RevocationRecordV1.t"
  throwIf (t ≠ "treecrdt/revocation/v1") "RevocationRecordV1.t mismatch"
  let docId ← assertString (claim "doc_id") "RevocationRecordV1.doc_id"
  throwIf (docId ≠ expectedDocId) "RevocationRecordV1.doc_id mismatch"
  let tokenId ← assertBytesLen (claim "token_id") 16 "RevocationRecordV1.token_id"
  let mode ← parseRevocationMode (claim "mode")
  let revSeq ← assertInteger (claim "rev_seq") "RevocationRecordV1.rev_seq"
  let iat ← optionalClaim (claim "iat") (assertInteger · "RevocationRecordV1.iat")
  let effectiveFromCounter ← optionalClaim (claim "effective_from_counter")
    (assertInteger · "RevocationRecordV1.effective_from_counter")
  let effectiveFromReplica ← optionalClaim (claim "effective_from_replica")
    (assertBytesLen · 32 "RevocationRecordV1.effective_from_replica")
  validateModeFields mode effectiveFromCounter
  return { docId, tokenId, mode, revSeq, iat, effectiveFromCounter, effectiveFromReplica,
           issuerPublicKey }

def verifyTreecrdtRevocationRecordV1 (crypto : Crypto) (issuerPublicKeys : List Bytes)
    (expectedDocId : String) (nowSec : Rat) (recordBytes : Bytes) :
    Except String RevocationRecord := do
  throwIf issuerPublicKeys.isEmpty "issuerPublicKeys is empty"
  match revocationIssuer crypto recordBytes issuerPublicKeys with
  | none => .error "revocation record signature verification failed"
  | some (payloadBytes, verifiedBy) => do
    let .map claims := ← crypto.decodeCbor payloadBytes
      | .error "RevocationRecordV1 payload must be a CBOR map"
    let record ← parseRevocationClaims expectedDocId verifiedBy claims
    throwIf (issuedAfter record.iat nowSec) "RevocationRecordV1.iat is in the future"
    return record

/-- Claims for runs on given values: a hard revocation for the document `d`. -/
def sampleRevocation (tokenId : Bytes) : Cbor :=
  .map [(.text "v", .number (.ofInt 1)), (.text "t", .text "treecrdt/revocation/v1"),
    (.text "doc_id", .text "d"), (.text "token_id", .bytes tokenId),
    (.text "mode", .text "hard"), (.text "rev_seq", .number (.ofInt 1))]

/-! ## The order of records -/

/-- `compareBytes(a, b) > 0`. -/
def bytesAfter : Bytes → Bytes → Bool
  | x :: a, y :: b => if x = y then bytesAfter a b else y < x
  | _ :: _, [] => true
  | [], _ => false

/-- A record with its bytes. -/
abbrev RevocationEntry := RevocationRecord × Bytes

/-- Does the first entry replace the second? -/
def RevocationEntry.supersedes (new existing : RevocationEntry) : Bool :=
  if new.1.revSeq > existing.1.revSeq then true
  else if new.1.revSeq < existing.1.revSeq then false
  else bytesAfter new.2 existing.2

end Auth

end Treecrdt
