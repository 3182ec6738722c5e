import Mathlib.Tactic.Common
import Mathlib.Algebra.Group.Nat.Defs
import TreecrdtLean.Core.Ids

/-!
# Operations as the applications see them (`treecrdt-ts`)

The TypeScript side writes a node id as a string in one of several spellings, and a number as a
`number`; an id is read through `nodeIdToBytes16`. `known_state` is an opaque byte string here.
-/

namespace Treecrdt

namespace Interface

/-- A node id in any spelling that `normalizeNodeId` takes. -/
abbrev NodeId := String

structure OperationId where
  replica : Bytes
  counter : ℤ
  deriving DecidableEq, Repr

structure OperationMetadata where
  id : OperationId
  lamport : ℤ
  knownState : Option Bytes
  deriving DecidableEq, Repr

inductive OperationKind where
  | insert (parent node : NodeId) (orderKey : Bytes) (payload : Option Bytes)
  | move (node newParent : NodeId) (orderKey : Bytes)
  | delete (node : NodeId)
  | tombstone (node : NodeId)
  | payload (node : NodeId) (payload : Option Bytes)
  deriving DecidableEq, Repr

structure Operation where
  metadata : OperationMetadata
  kind : OperationKind
  deriving DecidableEq, Repr

/-! ## Node ids (`ids.ts`) -/

/-- The characters that `String.prototype.trim` removes. -/
def isWhitespace (c : Char) : Bool :=
  c.toNat ∈ [9, 10, 11, 12, 13, 32, 0xa0, 0x1680, 0x2028, 0x2029, 0x202f, 0x205f, 0x3000, 0xfeff] ||
    (0x2000 ≤ c.toNat && c.toNat ≤ 0x200a)

def trim (s : List Char) : List Char :=
  ((s.dropWhile isWhitespace).reverse.dropWhile isWhitespace).reverse

def stripHexPrefix : List Char → List Char
  | '0' :: 'x' :: rest => rest
  | '0' :: 'X' :: rest => rest
  | hex => hex

/-- The value of a hexadecimal digit. -/
def hexDigit (c : Char) : Option ℕ :=
  if '0' ≤ c ∧ c ≤ '9' then some (c.toNat - 48)
  else if 'a' ≤ c ∧ c ≤ 'f' then some (c.toNat - 87)
  else if 'A' ≤ c ∧ c ≤ 'F' then some (c.toNat - 55)
  else none

def isHex (s : List Char) : Bool := s.all fun c => (hexDigit c).isSome

/-- `BigInt(clean)` for decimal digits. -/
def decimal (s : List Char) : ℕ := s.foldl (fun n c => 10 * n + (c.toNat - 48)) 0

def padStart (s : List Char) : List Char := List.replicate (32 - s.length) '0' ++ s

/-- Normalize a node id into 32 hexadecimal characters. -/
def normalizeNodeId (nodeId : NodeId) : Except String (List Char) :=
  let raw := trim nodeId.toList
  let clean := stripHexPrefix raw
  if clean.length = 0 then .error "NodeId must not be empty"
  else if clean.length = 32 ∧ isHex clean then .ok (clean.map Char.toLower)
  else if clean.all fun c => '0' ≤ c && c ≤ '9' then
    if decimal clean > 2 ^ 128 - 1 then
      .error ("NodeId (decimal) out of u128 range: " ++ String.ofList raw)
    else .ok (padStart (Nat.toDigits 16 (decimal clean)))
  else if !isHex clean then
    .error ("NodeId must be hex (or decimal u128), got: " ++ String.ofList raw)
  else
    let stripped := clean.dropWhile (· = '0')
    let hex := if stripped.length = 0 then ['0'] else stripped
    if hex.length > 32 then
      .error ("NodeId hex too long (expected <= 32 chars), got: " ++ String.ofList raw)
    else
      let hex := if hex.length % 2 = 1 then '0' :: hex else hex
      .ok ((padStart hex).map Char.toLower)

def hexPairs : List Char → Bytes
  | hi :: lo :: rest =>
    UInt8.ofNat (16 * (hexDigit hi).getD 0 + (hexDigit lo).getD 0) :: hexPairs rest
  | _ => []

def hexToBytes (hex : List Char) : Except String Bytes :=
  let clean := trim (stripHexPrefix hex)
  if clean.length % 2 ≠ 0 then
    .error ("hex must have even length, got: " ++ String.ofList hex)
  else if !isHex clean then .error ("invalid hex: " ++ String.ofList hex)
  else .ok (hexPairs clean)

def nodeIdToBytes16 (nodeId : NodeId) : Except String Bytes := do
  let hex ← normalizeNodeId nodeId
  let bytes ← hexToBytes hex
  if bytes.length ≠ 16 then
    .error ("NodeId must be 16 bytes, got " ++ toString bytes.length)
  else return bytes

def ED25519_PUBLIC_KEY_LEN : ℕ := 32

def replicaIdToBytes (replica : Bytes) : Except String Bytes :=
  if replica.length ≠ ED25519_PUBLIC_KEY_LEN then
    .error ("ReplicaId must be " ++ toString ED25519_PUBLIC_KEY_LEN ++
      " bytes (ed25519 pubkey), got " ++ toString replica.length)
  else .ok replica

end Interface

end Treecrdt
