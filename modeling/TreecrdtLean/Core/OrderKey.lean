import TreecrdtLean.Lib.Codec
import TreecrdtLean.Core.Ids

/-!
# Order keys (`order_key.rs`)

A key is a sequence of big-endian `u16` digits. `allocateBetween` walks down the digits of its two
bounds until there is room between them, and picks a digit there from a hash of the seed. A digit
that the left key lacks counts as `0`, one that the right key lacks as `u16::MAX`.
-/

namespace Treecrdt

namespace OrderKey

/-- `b"treecrdt/order_key/v0"`. -/
def ORDER_KEY_DOMAIN : Bytes := "treecrdt/order_key/v0".toList.map fun c => UInt8.ofNat c.toNat

def DEFAULT_BOUNDARY : UInt16 := 10

def FNV_OFFSET_BASIS : UInt64 := 0xcbf29ce484222325

def FNV_PRIME : UInt64 := 0x100000001b3

/-- The chunks of `decode_digits`. -/
def digitsOf : Bytes → List UInt16
  | hi :: lo :: rest => (UInt16.ofNat hi.toNat * 256 + UInt16.ofNat lo.toNat) :: digitsOf rest
  | _ => []

def decodeDigits (bytes : Bytes) : Except Error (List UInt16) :=
  if bytes.length % 2 ≠ 0 then
    .error (.invalidOperation "order_key must have even length (u16 big-endian digits)")
  else .ok (digitsOf bytes)

def encodeDigits (digits : List UInt16) : Bytes := digits.flatMap fun d => beBytes 2 d.toNat

/-- `h ^= b; h = h.wrapping_mul(FNV_PRIME)`. -/
def fnvStep (h : UInt64) (b : UInt8) : UInt64 := (h ^^^ b.toUInt64) * FNV_PRIME

def sampleU64 (seed : Bytes) (depth : ℕ) : UInt64 :=
  (ORDER_KEY_DOMAIN ++ beBytes 4 seed.length ++ seed ++ beBytes 4 depth).foldl fnvStep
    FNV_OFFSET_BASIS

/-- `true`: choose near left. -/
def chooseSide (seed : Bytes) (depth : ℕ) : Bool := sampleU64 seed depth &&& 1 = 0

def chooseInRange (seed : Bytes) (depth : ℕ) (lo hi : UInt16) : UInt16 :=
  if lo = hi then lo
  else
    let span := (hi - lo).toUInt32 + 1
    lo + (sampleU64 seed depth % span.toUInt64).toUInt16

/-- The digit chosen where `rd > ld + 1`. -/
def chooseDigit (seed : Bytes) (depth : ℕ) (ld rd : UInt16) : UInt16 :=
  let gap := rd - ld - 1
  let boundary := min DEFAULT_BOUNDARY gap
  let (lo, hi) :=
    if gap > boundary then
      if chooseSide seed depth then (ld + 1, ld + boundary) else (rd - boundary, rd - 1)
    else (ld + 1, rd - 1)
  chooseInRange seed depth lo hi

/-- `ld` and `rd` at every depth that one of the keys reaches. -/
def digitPairs (left right : List UInt16) : List (UInt16 × UInt16) :=
  (List.range (max left.length right.length)).map fun depth =>
    (left.getD depth 0, right.getD depth 0xFFFF)

/-- The loop of `allocate_between`. Beyond both keys `ld` is `0` and `rd` is `u16::MAX`, and there
is room. -/
def allocateDigits (seed : Bytes) : ℕ → List (UInt16 × UInt16) → Except Error (List UInt16)
  | depth, [] => .ok [chooseDigit seed depth 0 0xFFFF]
  | depth, (ld, rd) :: rest =>
    if rd < ld then .error (.invalidOperation "cannot allocate order_key: right < left")
    else if rd > ld + 1 then .ok [chooseDigit seed depth ld rd]
    else do return ld :: (← allocateDigits seed (depth + 1) rest)

/-- A key strictly between `left` and `right`. -/
def allocateBetween (left right : Option Bytes) (seed : Bytes) : Except Error Bytes := do
  let leftDigits ← decodeDigits (left.getD [])
  let rightDigits ← decodeDigits (right.getD [])
  return encodeDigits (← allocateDigits seed 0 (digitPairs leftDigits rightDigits))

end OrderKey

end Treecrdt
