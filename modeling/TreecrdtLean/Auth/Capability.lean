import TreecrdtLean.Auth.OpSig
import TreecrdtLean.Auth.Scope

/-!
# Capability tokens (`capability.ts`, `cose.ts`)

A token is a COSE_Sign1 byte string around claims. It is signed by an issuer, or by the subject of
a proof token that it carries in its unprotected header, and so on up to an issuer. CBOR, Ed25519
and BLAKE3 come from libraries and are a parameter here.
-/

namespace Treecrdt

namespace Auth

/-! ## CBOR -/

namespace Cbor

/-- The head of a data item: its major type and its argument. -/
def head (major n : ℕ) : Bytes :=
  if n < 24 then [UInt8.ofNat (32 * major + n)]
  else if n < 256 then [UInt8.ofNat (32 * major + 24), UInt8.ofNat n]
  else UInt8.ofNat (32 * major + 25) :: beBytes 2 n

mutual

/-- `cborEncode` of the values that tokens are made of, where finite numbers are whole. -/
def encode : Cbor → Bytes
  | undefined => [0xf7]
  | null => [0xf6]
  | bool b => [if b then 0xf5 else 0xf4]
  | number .nan => [0xf9, 0x7e, 0]
  | number .infinity => [0xf9, 0x7c, 0]
  | number .negInfinity => [0xf9, 0xfc, 0]
  | number (.finite q) => if q.num < 0 then head 1 (-1 - q.num).toNat else head 0 q.num.toNat
  | bigint n => if n < 0 then head 1 (-1 - n).toNat else head 0 n.toNat
  | bytes b => head 2 b.length ++ b
  | text s => head 3 (utf8ToBytes s).length ++ utf8ToBytes s
  | array values => head 4 values.length ++ encodeItems values
  | map entries => head 5 entries.length ++ encodeEntries entries

def encodeItems : List Cbor → Bytes
  | [] => []
  | value :: values => encode value ++ encodeItems values

def encodeEntries : List (Cbor × Cbor) → Bytes
  | [] => []
  | (key, value) :: entries => encode key ++ (encode value ++ encodeEntries entries)

end

end Cbor

/-- What the libraries compute. -/
structure Crypto where
  decodeCbor : Bytes → Except String Cbor
  encodeCbor : Cbor → Bytes
  /-- Of a signature, a message and a public key. -/
  verifyEd25519 : Bytes → Bytes → Bytes → Except String Bool
  blake3 : Bytes → Bytes

/-- Libraries for runs on given values: these decode from their encodings, a signature is the key
it is checked with, and the hash only turns its input around. -/
def sampleCrypto (values : List Cbor) : Crypto where
  decodeCbor b :=
    match values.find? fun value => value.encode = b with
    | some value => .ok value
    | none => .error "CBOR decode error"
  encodeCbor := Cbor.encode
  verifyEd25519 signature _ publicKey := .ok (signature = publicKey)
  blake3 := List.reverse

variable (crypto : Crypto)

/-! ## COSE -/

structure CoseSign1 where
  protectedHeader : Bytes
  unprotected : List (Cbor × Cbor)
  payload : Bytes
  signature : Bytes

def sigStructure (protectedHeader payload : Bytes) : Bytes :=
  crypto.encodeCbor
    (.array [.text "Signature1", .bytes protectedHeader, .bytes [], .bytes payload])

/-- The four items of a COSE_Sign1. -/
def coseItems : Cbor → Except String CoseSign1
  | .array [protectedHeader, unprotected, payload, signature] => do
    let .bytes protectedHeader := protectedHeader
      | .error "COSE_Sign1[0] (protected) must be bstr"
    let .map unprotected := unprotected | .error "COSE_Sign1[1] (unprotected) must be map"
    let .bytes payload := payload | .error "COSE_Sign1[2] (payload) must be bstr"
    let .bytes signature := signature | .error "COSE_Sign1[3] (signature) must be bstr"
    return { protectedHeader, unprotected, payload, signature }
  | _ => .error "COSE_Sign1 must be a 4-item array"

def coseDecodeSign1 (bytes : Bytes) : Except String CoseSign1 := do
  coseItems (← crypto.decodeCbor bytes)

/-- The payload, if the signature over it is that of the key. -/
def coseVerifySign1Ed25519 (bytes publicKey : Bytes) : Except String Bytes := do
  let decoded ← coseDecodeSign1 crypto bytes
  let toVerify := sigStructure crypto decoded.protectedHeader decoded.payload
  let ok ← crypto.verifyEd25519 decoded.signature toVerify publicKey
  throwIf (!ok) "COSE_Sign1 signature verification failed"
  return decoded.payload

def TOKEN_ID_DOMAIN : Bytes := utf8ToBytes "treecrdt/tokenid/v1"

def deriveTokenIdV1 (tokenBytes : Bytes) : Bytes :=
  (crypto.blake3 (TOKEN_ID_DOMAIN ++ tokenBytes)).take 16

def KEY_ID_V1_DOMAIN : Bytes := utf8ToBytes "treecrdt/keyid/v1"

def deriveKeyIdV1 (pubkey : Bytes) : Bytes :=
  (crypto.blake3 (KEY_ID_V1_DOMAIN ++ pubkey)).take 16

/-- A hash for runs on given values that keeps the bytes behind the domain. -/
def keepingHash (b : Bytes) : Bytes := b.drop KEY_ID_V1_DOMAIN.length

/-! ## Claims -/

/-- What a verified token grants to its subject. -/
structure CapabilityGrant where
  tokenId : Bytes
  keyId : Bytes
  publicKey : Bytes
  caps : List Cbor
  exp : Option JsNumber
  nbf : Option JsNumber

/-- The `aud` claim is the document, or a list with it. -/
def checkAudience (docId : String) : Cbor → Except String Unit
  | .undefined => .ok ()
  | .text aud => throwIf (aud ≠ docId) "capability token audience mismatch"
  | .array auds => throwIf (!auds.any (Cbor.isText docId)) "capability token audience mismatch"
  | _ => .error "capability token aud claim must be string or array"

/-- `exp !== undefined && nowSec > exp`. -/
def expiredAt (exp : Option JsNumber) (nowSec : Rat) : Bool :=
  exp.any fun exp => exp.lt (.finite nowSec)

/-- `nbf !== undefined && nowSec < nbf`. -/
def notYetValidAt (nbf : Option JsNumber) (nowSec : Rat) : Bool :=
  nbf.any fun nbf => (JsNumber.finite nowSec).lt nbf

/-- The key id of the `cnf` claim: the one derived from the key. -/
def parseKeyId (derivedKeyId : Bytes) : Cbor → Except String Bytes
  | .undefined | .null => .ok derivedKeyId
  | .bytes kid => do
    throwIf (kid ≠ derivedKeyId) "capability token cnf.kid does not match pub"
    return kid
  | _ => .error "capability token cnf.kid must be bytes"

def parseCapabilityGrantFromClaims (docId : String) (nowSec : Rat)
    (tokenBytes claimsBytes : Bytes) : Except String CapabilityGrant := do
  let .map claims := ← crypto.decodeCbor claimsBytes
    | .error "capability token payload must be a CBOR map"
  checkAudience docId (getClaim claims 3 "aud")
  let exp ← toNumber (getClaim claims 4 "exp") "exp"
  let nbf ← toNumber (getClaim claims 5 "nbf") "nbf"
  throwIf (expiredAt exp nowSec) "capability token expired"
  throwIf (notYetValidAt nbf nowSec) "capability token not yet valid"
  let .map cnf := getClaim claims 8 "cnf"
    | .error "capability token cnf claim missing or not a map"
  let .bytes pub := Cbor.find (Cbor.isText "pub") cnf
    | .error "capability token cnf.pub missing"
  let keyId ← parseKeyId (deriveKeyIdV1 crypto pub) (Cbor.find (Cbor.isText "kid") cnf)
  let .array (cap :: caps) := getClaim claims (-1) "caps"
    | .error "capability token caps claim missing or invalid"
  return { tokenId := deriveTokenIdV1 crypto tokenBytes, keyId, publicKey := pub,
           caps := cap :: caps, exp, nbf }

/-- Claims for runs on given values: one capability on the whole document `d`. -/
def sampleClaims (pub : Bytes) (exp : JsNumber) (actions : List String) : Cbor :=
  .map [(.number (.ofInt 4), .number exp),
    (.number (.ofInt 8), .map [(.text "pub", .bytes pub)]),
    (.number (.ofInt (-1)), .array [.map [
      (.text "res", .map [(.text "root", .bytes ROOT_NODE_ID), (.text "doc_id", .text "d")]),
      (.text "actions", .array (actions.map .text))]])]

/-- A token around claims, with the proof tokens in its header. -/
def sampleToken (unprotected : List (Cbor × Cbor)) (claims : Cbor) (signature : Bytes) : Cbor :=
  .array [.bytes [], .map unprotected, .bytes claims.encode, .bytes signature]

/-! ## Delegation -/

/-- The delegated root is the root of the proof, or known to lie in its scope. -/
def assertRootWithin (docId : String) (scopeEvaluator : Option ScopeEvaluator)
    (proof delegated : SubtreeScope) : Except String Unit :=
  if delegated.root = proof.root then .ok ()
  else do
    throwIf proof.maxDepth.isSome
      "delegated capability root must match proof root when proof uses maxDepth"
    match scopeEvaluator with
    | none => .error "delegated capability root must match proof root (scope evaluator missing)"
    | some evaluate => do
      match ← evaluate docId delegated.root proof with
      | .allow => .ok ()
      | .deny => .error "delegated capability root is outside proof scope"
      | .unknown => .error "cannot validate delegated capability root within proof scope"

def assertMaxDepthWithin : (proof delegated : Option JsNumber) → Except String Unit
  | none, _ => .ok ()
  | some _, none => .error "delegated capability must include maxDepth when proof uses maxDepth"
  | some proof, some delegated =>
    throwIf (proof.lt delegated) "delegated capability maxDepth exceeds proof maxDepth"

def assertScopeWithin (docId : String) (scopeEvaluator : Option ScopeEvaluator)
    (proof delegated : SubtreeScope) : Except String Unit :=
  if isDocWideScope proof then .ok ()
  else do
    assertRootWithin docId scopeEvaluator proof delegated
    assertMaxDepthWithin proof.maxDepth delegated.maxDepth
    throwIf (!proof.excluded.all (· ∈ delegated.excluded))
      "delegated capability must preserve proof exclude list"

/-- The `res` of a proof capability from which these actions may be delegated. -/
def delegableRes (docId : String) (delegatedActions : List Cbor) (proofCap : Cbor) :
    Option Cbor :=
  let proofRes := getField proofCap "res"
  if !proofRes.isObject then none
  else match getField proofCap "actions" with
    | .array proofActions =>
      if proofActions.isEmpty then none
      else if !(getField proofRes "doc_id").isText docId then none
      else if "grant" ∉ expandCapabilityActions proofActions then none
      else if (expandCapabilityActions delegatedActions).all
        (· ∈ expandCapabilityActions proofActions) then some proofRes
      else none
    | _ => none

/-- The loop over the capabilities of the proof, up to the first that matches. -/
def matchProofCap (docId : String) (scopeEvaluator : Option ScopeEvaluator)
    (delegatedActions : List Cbor) (delegatedRes : Cbor) : List Cbor → Except String Bool
  | [] => .ok false
  | proofCap :: proofCaps =>
    match delegableRes docId delegatedActions proofCap with
    | none => matchProofCap docId scopeEvaluator delegatedActions delegatedRes proofCaps
    | some proofRes => do
      let proofScope ← parseScope proofRes
      let delegatedScope ← parseScope delegatedRes
      assertScopeWithin docId scopeEvaluator proofScope delegatedScope
      return true

/-- One capability of the delegated token. -/
def assertCapWithin (docId : String) (scopeEvaluator : Option ScopeEvaluator)
    (proofCaps : List Cbor) (delegatedCap : Cbor) : Except String Unit := do
  let delegatedRes := getField delegatedCap "res"
  throwIf (!delegatedRes.isObject) "delegated capability missing res"
  let .array (action :: actions) := getField delegatedCap "actions"
    | .error "delegated capability missing actions"
  throwIf (!(getField delegatedRes "doc_id").isText docId) "delegated capability doc_id mismatch"
  let matched ← matchProofCap docId scopeEvaluator (action :: actions) delegatedRes proofCaps
  throwIf (!matched) "delegation proof does not allow delegated capability"

def assertExpWithin : (proof delegated : Option JsNumber) → Except String Unit
  | none, _ => .ok ()
  | some _, none => .error "delegated token must include exp when proof token has exp"
  | some proof, some delegated =>
    throwIf (proof.lt delegated) "delegated token exp exceeds proof token exp"

def assertNbfWithin : (proof delegated : Option JsNumber) → Except String Unit
  | none, _ => .ok ()
  | some _, none => .error "delegated token must include nbf when proof token has nbf"
  | some proof, some delegated =>
    throwIf (delegated.lt proof) "delegated token nbf precedes proof token nbf"

def assertDelegatedGrantWithinProof (docId : String) (scopeEvaluator : Option ScopeEvaluator)
    (proof delegated : CapabilityGrant) : Except String Unit := do
  assertExpWithin proof.exp delegated.exp
  assertNbfWithin proof.nbf delegated.nbf
  delegated.caps.forM (assertCapWithin docId scopeEvaluator proof.caps)

/-! ## Verification -/

structure RevocationCheckContext where
  tokenId : Bytes
  tokenBytes : Option Bytes
  docId : String
  depth : Option ℕ

structure TokenOptions where
  issuerPublicKeys : List Bytes
  docId : String
  nowSec : Rat
  scopeEvaluator : Option ScopeEvaluator
  revokedCapabilityTokenIds : Option (List Bytes)
  isCapabilityTokenRevoked : Option (RevocationCheckContext → Except String Bool)

def MAX_DELEGATION_PROOF_CHAIN : ℕ := 8

/-- The payload, if it is signed by an issuer. A failure of the check counts as another issuer. -/
def verifyWithIssuers (tokenBytes : Bytes) : List Bytes → Option Bytes
  | [] => none
  | issuerPk :: issuerPks =>
    match coseVerifySign1Ed25519 crypto tokenBytes issuerPk with
    | .ok payload => some payload
    | .error _ => verifyWithIssuers tokenBytes issuerPks

/-- The proof tokens of the unprotected header. -/
def proofTokens : Cbor → Except String (List Bytes)
  | .undefined | .null =>
    .error "capability token verification failed: unknown issuer (no delegation proof)"
  | .bytes proof => .ok [proof]
  | .array proofs =>
    match proofs.mapM fun | .bytes b => some b | _ => none with
    | some proofs => .ok proofs
    | none => .error "delegation proof must be a bstr or an array of bstr"
  | _ => .error "delegation proof must be a bstr or an array of bstr"

/-- The one proof token that a delegated token carries. -/
def delegationProof (tokenBytes : Bytes) : Except String Bytes := do
  let decoded ← coseDecodeSign1 crypto tokenBytes
  let proofs ← proofTokens
    (Cbor.find (Cbor.isText "treecrdt.delegation_proof_v1") decoded.unprotected)
  let [proof] := proofs | .error "delegation proof must contain exactly 1 proof token"
  return proof

/-- Neither seen in this chain nor revoked. -/
def checkTokenId (opts : TokenOptions) (depth : ℕ) (tokenBytes : Bytes)
    (seenTokenIds : List Bytes) : Except String Unit := do
  let tokenId := deriveTokenIdV1 crypto tokenBytes
  throwIf (tokenId ∈ seenTokenIds) "delegation proof cycle detected"
  throwIf (tokenId ∈ opts.revokedCapabilityTokenIds.getD []) "capability token revoked"
  match opts.isCapabilityTokenRevoked with
  | none => return ()
  | some isCapabilityTokenRevoked => do
    let revoked ← isCapabilityTokenRevoked
      { tokenId, tokenBytes := some tokenBytes, docId := opts.docId, depth := some depth }
    throwIf revoked "capability token revoked"

/-- The first argument counts down while the depth of the source counts up, and is `0` where that
is beyond the longest chain. -/
def parseAndVerifyCapabilityTokenDepth (opts : TokenOptions) :
    ℕ → Bytes → List Bytes → Except String CapabilityGrant
  | 0, _, _ => do
    throwIf opts.issuerPublicKeys.isEmpty "issuerPublicKeys is empty"
    .error "delegation proof chain is too deep"
  | left + 1, tokenBytes, seenTokenIds => do
    throwIf opts.issuerPublicKeys.isEmpty "issuerPublicKeys is empty"
    checkTokenId crypto opts (MAX_DELEGATION_PROOF_CHAIN - left) tokenBytes seenTokenIds
    match verifyWithIssuers crypto tokenBytes opts.issuerPublicKeys with
    | some payload =>
      parseCapabilityGrantFromClaims crypto opts.docId opts.nowSec tokenBytes payload
    | none => do
      let proof ← delegationProof crypto tokenBytes
      let proofGrant ← parseAndVerifyCapabilityTokenDepth opts left proof
        (deriveTokenIdV1 crypto tokenBytes :: seenTokenIds)
      let delegatedPayload ← coseVerifySign1Ed25519 crypto tokenBytes proofGrant.publicKey
      let delegatedGrant ←
        parseCapabilityGrantFromClaims crypto opts.docId opts.nowSec tokenBytes delegatedPayload
      assertDelegatedGrantWithinProof opts.docId opts.scopeEvaluator proofGrant delegatedGrant
      return delegatedGrant

def parseAndVerifyCapabilityToken (opts : TokenOptions) (tokenBytes : Bytes) :
    Except String CapabilityGrant :=
  parseAndVerifyCapabilityTokenDepth crypto opts (MAX_DELEGATION_PROOF_CHAIN + 1) tokenBytes []

end Auth

end Treecrdt
