import Mathlib.Tactic.Common
import Mathlib.Algebra.Group.Nat.Defs
import Mathlib.Algebra.Ring.Int.Defs
import TreecrdtLean.Core.Ids

/-!
# Claims (`claims.ts`)

A token carries CBOR, and the decoder hands the code JavaScript values: numbers are doubles, `NaN`
and the infinities among them, and integers beyond the safe range are `bigint`s. A comparison with
`NaN` is false either way.
-/

namespace Treecrdt

namespace Auth

/-- A JavaScript number; `-0` is `0`. -/
inductive JsNumber where
  | nan
  | negInfinity
  | finite (q : Rat)
  | infinity
  deriving DecidableEq

namespace JsNumber

/-- `a < b`. -/
def lt : JsNumber → JsNumber → Bool
  | nan, _ | _, nan => false
  | negInfinity, b => b ≠ negInfinity
  | _, negInfinity => false
  | finite p, finite q => p < q
  | finite _, infinity => true
  | infinity, _ => false

/-- `a <= b`. -/
def le (a b : JsNumber) : Bool := a ≠ nan && b ≠ nan && !b.lt a

/-- A comparison with `NaN` is false. -/
theorem lt_nan (a : JsNumber) : a.lt nan = false := by cases a <;> rfl

theorem nan_lt (a : JsNumber) : nan.lt a = false := rfl

/-- Numbers other than `NaN` are ordered. -/
theorem lt_of_not_lt {a b c : JsNumber} (ha : a ≠ nan) (h : a.lt b = false) (hb : b ≠ nan)
    (hc : a.lt c = true) : b.lt c = true := by
  cases a <;> cases b <;> cases c <;> simp_all [lt]
  grind

/-- The same from above. -/
theorem lt_of_lt_of_not_lt {a b c : JsNumber} (hb : b ≠ nan) (hab : a.lt b = true)
    (h : c.lt b = false) (hc : c ≠ nan) : a.lt c = true := by
  cases a <;> cases b <;> cases c <;> simp_all [lt]
  grind

/-- A whole number, as the code counts seconds and hops. -/
def ofInt (n : Int) : JsNumber := finite n

theorem le_ofInt_mono {a : JsNumber} {m n : ℤ} (h : a.le (ofInt m) = true) (hmn : m ≤ n) :
    a.le (ofInt n) = true := by
  have hq : (m : Rat) ≤ (n : Rat) := Rat.intCast_le_intCast.mpr hmn
  cases a with
  | finite q =>
    simp only [le, lt, ofInt, ne_eq, reduceCtorEq, not_false_eq_true, decide_true, Bool.true_and,
      Bool.not_eq_true', decide_eq_false_iff_not, Rat.not_lt] at h ⊢
    exact Rat.le_trans h hq
  | _ => simp_all [le, lt, ofInt]

/-- `Number(n)` of a `bigint`: the nearest double, ties to an even significand. -/
def ofBigint (n : Int) : JsNumber :=
  let m := n.natAbs
  let shift := m.log2 - 52
  let unit := 2 ^ shift
  let down := m / unit
  let up := 2 * (m % unit) > unit ∨ 2 * (m % unit) = unit ∧ down % 2 = 1
  let rounded : Int := ((if up then down + 1 else down) * unit : Nat)
  ofInt (if n < 0 then -rounded else rounded)

def toString : JsNumber → String
  | nan => "NaN"
  | negInfinity => "-Infinity"
  | finite q => ToString.toString q
  | infinity => "Infinity"

end JsNumber

/-- A value that the CBOR decoder returns (`useMaps`). -/
inductive Cbor where
  | undefined
  | null
  | bool (b : Bool)
  | number (n : JsNumber)
  | bigint (n : Int)
  | bytes (b : Bytes)
  | text (s : String)
  | array (values : List Cbor)
  | map (entries : List (Cbor × Cbor))

namespace Cbor

/-- `typeof value === 'object'` of a value that is not `null`. -/
def isObject : Cbor → Bool
  | bytes _ | array _ | map _ => true
  | _ => false

/-- `value === undefined || value === null`. -/
def isNullish : Cbor → Bool
  | undefined | null => true
  | _ => false

/-- `value === s` for a string. -/
def isText (s : String) : Cbor → Bool
  | text t => t = s
  | _ => false

/-- `value === n` for a whole number. -/
def isInt (n : Int) : Cbor → Bool
  | number m => m = JsNumber.ofInt n
  | _ => false

mutual

/-- `String(value)`. -/
def jsString : Cbor → String
  | undefined => "undefined"
  | null => "null"
  | bool b => toString b
  | number n => n.toString
  | bigint n => toString n
  | bytes b => String.intercalate "," (b.map fun byte => toString byte.toNat)
  | text s => s
  | array values => String.intercalate "," (joinStrings values)
  | map _ => "[object Map]"

/-- The parts of `Array.prototype.join`, where a missing element is empty. -/
def joinStrings : List Cbor → List String
  | [] => []
  | value :: values =>
    (if value.isNullish then "" else value.jsString) :: joinStrings values

end

/-- The value of the first entry whose key meets `p`. -/
def find (p : Cbor → Bool) (entries : List (Cbor × Cbor)) : Cbor :=
  match entries.find? fun entry => p entry.1 with
  | some entry => entry.2
  | none => undefined

end Cbor

open Cbor

/-- `getClaim`: by number, else by name. -/
def getClaim (entries : List (Cbor × Cbor)) (numKey : Int) (strKey : String) : Cbor :=
  let value := find (isInt numKey) entries
  if value.isNullish then find (isText strKey) entries else value

/-- `getField`: an array or a byte string has none of the fields that the code reads. -/
def getField (obj : Cbor) (key : String) : Cbor :=
  match obj with
  | .map entries => find (isText key) entries
  | _ => .undefined

def MAX_SAFE_INTEGER : Int := 2 ^ 53 - 1

def toNumber (val : Cbor) (field : String) : Except String (Option JsNumber) :=
  match val with
  | .undefined | .null => .ok none
  | .number n => .ok (some n)
  | .bigint n =>
    if n > MAX_SAFE_INTEGER then .error (field ++ " too large")
    else .ok (some (JsNumber.ofBigint n))
  | _ => .error (field ++ " must be a number")

/-- A claim that is no `NaN` in the token. -/
theorem ofBigint_ne_nan (n : Int) : JsNumber.ofBigint n ≠ .nan := by
  simp [JsNumber.ofBigint, JsNumber.ofInt]

end Auth

end Treecrdt
