import Mathlib.Algebra.Group.Nat.Defs
import Mathlib.Algebra.Group.Basic
import Mathlib.Tactic.Common
import Mathlib.Data.List.Basic

/-!
# Byte strings of fields

`beBytes k n` is the number `n` in `k` bytes, the most significant one first.
`lengthPrefixed k b` is a byte string after its length. A field of either sort is read back from the
front of what follows it (`beBytes_append_inj`, `lengthPrefixed_append_inj`), so a sequence of such
fields is injective.
-/

namespace Treecrdt

/-- The `k` low bytes of `n`, big-endian. -/
def beBytes : ℕ → ℕ → List UInt8
  | 0, _ => []
  | k + 1, n => UInt8.ofNat (n / 256 ^ k) :: beBytes k n

@[simp] theorem beBytes_length (k n : ℕ) : (beBytes k n).length = k := by
  induction k with
  | zero => rfl
  | succ k ih => simp [beBytes, ih]

/-- The number that big-endian bytes stand for. -/
def beValue : List UInt8 → ℕ
  | [] => 0
  | b :: bs => b.toNat * 256 ^ bs.length + beValue bs

theorem beValue_beBytes {k n : ℕ} (h : n < 256 ^ k) : beValue (beBytes k n) = n := by
  have hmod : ∀ k n, beValue (beBytes k n) = n % 256 ^ k := by
    intro k
    induction k with
    | zero => intro n; simp [beBytes, beValue, Nat.mod_one]
    | succ k ih =>
      intro n
      have hdiv : n / 256 ^ k % 256 * 256 ^ k + n % 256 ^ k = n % 256 ^ (k + 1) := by
        rw [pow_succ, Nat.mod_mul, mul_comm (256 ^ k), add_comm]
      rw [beBytes, beValue, beBytes_length, ih, ← hdiv]
      simp
  rw [hmod, Nat.mod_eq_of_lt h]

theorem beValue_lt (l : List UInt8) : beValue l < 256 ^ l.length := by
  induction l with
  | nil => simp [beValue]
  | cons b l ih =>
    have hb : b.toNat < 256 := b.toNat_lt
    calc beValue (b :: l) < b.toNat * 256 ^ l.length + 256 ^ l.length := by
          rw [beValue]; omega
      _ = (b.toNat + 1) * 256 ^ l.length := by rw [Nat.succ_mul]
      _ ≤ 256 * 256 ^ l.length := Nat.mul_le_mul_right _ hb
      _ = 256 ^ (b :: l).length := by rw [List.length_cons, pow_succ, mul_comm]

/-- Bytes above the `k` low ones do not count. -/
theorem beBytes_add_mul (k n m : ℕ) : beBytes k (m * 256 ^ k + n) = beBytes k n := by
  induction k generalizing m with
  | zero => rfl
  | succ k ih =>
    have hpow : m * 256 ^ (k + 1) = m * 256 * 256 ^ k := by
      rw [pow_succ, mul_comm (256 ^ k), mul_assoc]
    rw [beBytes, beBytes, hpow, ih]
    congr 1
    rw [add_comm, Nat.add_mul_div_right _ _ (Nat.pow_pos (by decide))]
    exact UInt8.toNat_inj.mp (by simp)

theorem beBytes_beValue (l : List UInt8) : beBytes l.length (beValue l) = l := by
  induction l with
  | nil => rfl
  | cons b l ih =>
    rw [List.length_cons, beBytes, beValue, beBytes_add_mul, ih]
    congr 1
    rw [add_comm, Nat.add_mul_div_right _ _ (Nat.pow_pos (by decide)), Nat.div_eq_of_lt (beValue_lt l)]
    exact UInt8.toNat_inj.mp (by simp)

theorem beBytes_inj {k n m : ℕ} (hn : n < 256 ^ k) (hm : m < 256 ^ k)
    (h : beBytes k n = beBytes k m) : n = m := by
  rw [← beValue_beBytes hn, h, beValue_beBytes hm]

/-- The order of big-endian bytes is the order of the numbers. -/
theorem beBytes_lt_iff {k n m : ℕ} (hn : n < 256 ^ k) (hm : m < 256 ^ k) :
    (beBytes k n).map UInt8.toNat < (beBytes k m).map UInt8.toNat ↔ n < m := by
  have hmod : ∀ k n m : ℕ, (beBytes k n).map UInt8.toNat < (beBytes k m).map UInt8.toNat ↔
      n % 256 ^ k < m % 256 ^ k := by
    intro k
    induction k with
    | zero => simp [beBytes, Nat.mod_one]
    | succ k ih =>
      intro n m
      have hpos : 0 < 256 ^ k := Nat.pow_pos (by decide)
      have hn := Nat.mod_lt n hpos
      have hm := Nat.mod_lt m hpos
      rw [beBytes, beBytes, List.map_cons, List.map_cons, List.cons_lt_cons_iff, ih, pow_succ,
        Nat.mod_mul, Nat.mod_mul]
      simp only [UInt8.toNat_ofNat']
      generalize n / 256 ^ k % 2 ^ 8 = a
      generalize m / 256 ^ k % 2 ^ 8 = b
      constructor
      · rintro (hab | ⟨rfl, hlow⟩)
        · calc n % 256 ^ k + 256 ^ k * a < 256 ^ k * (a + 1) := by rw [Nat.mul_succ]; omega
            _ ≤ 256 ^ k * b := Nat.mul_le_mul_left _ hab
            _ ≤ m % 256 ^ k + 256 ^ k * b := Nat.le_add_left _ _
        · omega
      · intro hlt
        rcases Nat.lt_trichotomy a b with hab | rfl | hab
        · exact .inl hab
        · exact .inr ⟨rfl, by omega⟩
        · have hle : 256 ^ k * (b + 1) ≤ 256 ^ k * a := Nat.mul_le_mul_left _ hab
          rw [Nat.mul_succ] at hle
          omega
  rw [hmod, Nat.mod_eq_of_lt hn, Nat.mod_eq_of_lt hm]

theorem beBytes_append_inj {k n m : ℕ} {x y : List UInt8} (hn : n < 256 ^ k) (hm : m < 256 ^ k)
    (h : beBytes k n ++ x = beBytes k m ++ y) : n = m ∧ x = y := by
  obtain ⟨hb, hxy⟩ := List.append_inj h (by simp)
  exact ⟨beBytes_inj hn hm hb, hxy⟩

def lengthPrefixed (k : ℕ) (b : List UInt8) : List UInt8 := beBytes k b.length ++ b

theorem lengthPrefixed_append_inj {k : ℕ} {a b x y : List UInt8} (ha : a.length < 256 ^ k)
    (hb : b.length < 256 ^ k) (h : lengthPrefixed k a ++ x = lengthPrefixed k b ++ y) :
    a = b ∧ x = y := by
  rw [lengthPrefixed, lengthPrefixed, List.append_assoc, List.append_assoc] at h
  obtain ⟨hl, hrest⟩ := beBytes_append_inj ha hb h
  exact List.append_inj hrest hl

end Treecrdt
