import Mathlib.Data.List.TakeWhile
import Mathlib.Tactic.Ring
import TreecrdtLean.Sync.RoundTrip
import TreecrdtLean.Lib.Codec

/-!
# Numerals

`numeral base s` is the number that the digits of `s` stand for. A text of 32 hexadecimal digits in
lower case is determined by its number (`eq_canonicalHex`), whether it was written from the number or
from bytes.
-/

namespace Treecrdt

namespace Interface

/-- The number that a text of digits stands for. -/
def numeral (base : ℕ) (s : List Char) : ℕ :=
  s.foldl (fun n c => base * n + (hexDigit c).getD 0) 0

@[simp] theorem numeral_nil (base : ℕ) : numeral base [] = 0 := rfl

theorem numeral_concat (base : ℕ) (s : List Char) (c : Char) :
    numeral base (s ++ [c]) = base * numeral base s + (hexDigit c).getD 0 := by
  rw [numeral, List.foldl_append]
  rfl

theorem numeral_append (base : ℕ) (s t : List Char) :
    numeral base (s ++ t) = numeral base s * base ^ t.length + numeral base t := by
  induction t using List.reverseRecOn with
  | nil => simp
  | append_singleton t c ih =>
    rw [← List.append_assoc, numeral_concat, ih, numeral_concat, List.length_append, pow_add]
    simp
    ring

/-- Zeros in front do not count. -/
theorem numeral_zeros (base k : ℕ) (s : List Char) :
    numeral base (List.replicate k '0' ++ s) = numeral base s := by
  have hzeros : numeral base (List.replicate k '0') = 0 := by
    induction k with
    | zero => rfl
    | succ k ih =>
      rw [List.replicate_succ', numeral_concat, ih]
      rfl
  rw [numeral_append, hzeros, zero_mul, zero_add]

theorem numeral_dropWhile (base : ℕ) (s : List Char) :
    numeral base (s.dropWhile (· = '0')) = numeral base s := by
  conv_rhs => rw [← List.takeWhile_append_dropWhile (p := (· = '0')) (l := s)]
  have hzeros : s.takeWhile (· = '0') = List.replicate (s.takeWhile (· = '0')).length '0' :=
    List.eq_replicate_iff.mpr ⟨rfl, fun c hc => by simpa using List.mem_takeWhile_imp hc⟩
  rw [hzeros, numeral_zeros]

/-- The digits that are written for a number stand for it. -/
theorem numeral_toDigits (n : ℕ) : numeral 16 (Nat.toDigits 16 n) = n := by
  induction n using Nat.strong_induction_on with
  | h n ih =>
    rw [Nat.toDigits_eq_if (by decide)]
    split
    · rename_i hlt
      simp [numeral, (digit_facts n hlt).1]
    · rename_i hle
      rw [numeral_concat, ih (n / 16) (by omega), (digit_facts (n % 16) (by omega)).1]
      simp only [Option.getD_some]
      omega

theorem toDigits_lowerHex (n : ℕ) : ∀ c ∈ Nat.toDigits 16 n, LowerHex c := by
  induction n using Nat.strong_induction_on with
  | h n ih =>
    intro c hc
    rw [Nat.toDigits_eq_if (by decide)] at hc
    split at hc
    · rename_i hlt
      exact ⟨n, hlt, List.mem_singleton.mp hc⟩
    · rename_i hle
      obtain hc | hc := List.mem_append.mp hc
      · exact ih (n / 16) (by omega) c hc
      · exact ⟨n % 16, by omega, List.mem_singleton.mp hc⟩

/-- Texts of equally many lower-case digits for one number are equal. -/
theorem numeral_injective {s t : List Char} (hs : ∀ c ∈ s, LowerHex c) (ht : ∀ c ∈ t, LowerHex c)
    (hlen : s.length = t.length) (h : numeral 16 s = numeral 16 t) : s = t := by
  induction s using List.reverseRecOn generalizing t with
  | nil => exact (List.length_eq_zero_iff.mp hlen.symm).symm
  | append_singleton s c ih =>
    obtain ⟨t, e, rfl⟩ : ∃ t' e, t = t' ++ [e] := by
      rcases List.eq_nil_or_concat' t with rfl | ⟨t', e, rfl⟩
      · simp at hlen
      · exact ⟨t', e, rfl⟩
    obtain ⟨c, hc, rfl⟩ := hs c (by simp)
    obtain ⟨e, he, rfl⟩ := ht e (by simp)
    rw [numeral_concat, numeral_concat, (digit_facts c hc).1, (digit_facts e he).1,
      Option.getD_some, Option.getD_some] at h
    have hrest : s = t := ih (fun x hx => hs x (List.mem_append_left _ hx))
      (fun x hx => ht x (List.mem_append_left _ hx)) (by simpa using hlen) (by omega)
    rw [hrest, show c = e by omega]

theorem hexDigit_toLower {c : Char} {d : ℕ} (h : hexDigit c = some d) :
    d < 16 ∧ c.toLower = Nat.digitChar d := by
  have hascii : ∀ n < 103, (hexDigit (Char.ofNat n)).all fun d =>
      d < 16 ∧ (Char.ofNat n).toLower = Nat.digitChar d := by decide
  have hlt : c.toNat < 103 := by
    simp only [hexDigit, Char.le_def, UInt32.le_iff_toNat_le] at h
    have hnat : c.toNat = c.val.toNat := rfl
    split at h
    · rename_i hc
      have : c.val.toNat ≤ 57 := hc.2
      omega
    · split at h
      · rename_i hc
        have : c.val.toNat ≤ 102 := hc.2
        omega
      · split at h
        · rename_i hc
          have : c.val.toNat ≤ 70 := hc.2
          omega
        · cases h
  have := hascii c.toNat hlt
  rw [Char.ofNat_toNat, h] at this
  simpa using this

/-- Letters count in either case. -/
theorem numeral_toLower {s : List Char} (h : isHex s) :
    numeral 16 (s.map Char.toLower) = numeral 16 s ∧ ∀ c ∈ s.map Char.toLower, LowerHex c := by
  induction s using List.reverseRecOn with
  | nil => exact ⟨rfl, nofun⟩
  | append_singleton s c ih =>
    obtain ⟨hs, hc⟩ : isHex s ∧ (hexDigit c).isSome := by simpa [isHex] using h
    obtain ⟨d, hd⟩ := Option.isSome_iff_exists.mp hc
    obtain ⟨hlt, hlower⟩ := hexDigit_toLower hd
    obtain ⟨hvalue, hchars⟩ := ih hs
    rw [List.map_append, List.map_singleton, numeral_concat, numeral_concat, hvalue, hlower, hd,
      (digit_facts d hlt).1]
    refine ⟨rfl, fun x hx => ?_⟩
    obtain hx | hx := List.mem_append.mp hx
    · exact hchars x hx
    · exact ⟨d, hlt, List.mem_singleton.mp hx⟩

/-! ## 32 digits -/

/-- A number in 32 hexadecimal digits. -/
def canonicalHex (n : ℕ) : List Char := padStart (Nat.toDigits 16 n)

theorem numeral_padStart (base : ℕ) (s : List Char) : numeral base (padStart s) = numeral base s :=
  numeral_zeros base _ s

theorem padStart_lowerHex {s : List Char} (h : ∀ c ∈ s, LowerHex c) :
    ∀ c ∈ padStart s, LowerHex c := by
  intro c hc
  obtain hc | hc := List.mem_append.mp hc
  · exact ⟨0, by decide, List.eq_of_mem_replicate hc⟩
  · exact h c hc

theorem padStart_length {s : List Char} (h : s.length ≤ 32) : (padStart s).length = 32 := by
  rw [padStart, List.length_append, List.length_replicate]
  omega

theorem canonicalHex_lowerHex (n : ℕ) : ∀ c ∈ canonicalHex n, LowerHex c :=
  padStart_lowerHex (toDigits_lowerHex n)

@[simp] theorem numeral_canonicalHex (n : ℕ) : numeral 16 (canonicalHex n) = n := by
  rw [canonicalHex, numeral_padStart, numeral_toDigits]

theorem canonicalHex_injective : Function.Injective canonicalHex := fun n m h => by
  rw [← numeral_canonicalHex n, h, numeral_canonicalHex]

theorem canonicalHex_length {n : ℕ} (h : n < 2 ^ 128) : (canonicalHex n).length = 32 :=
  padStart_length ((Nat.length_toDigits_le_iff (by decide) (by decide)).mpr (by omega))

theorem numeral_lt {s : List Char} (h : ∀ c ∈ s, LowerHex c) : numeral 16 s < 16 ^ s.length := by
  induction s using List.reverseRecOn with
  | nil => decide
  | append_singleton s c ih =>
    obtain ⟨d, hd, rfl⟩ := h c (by simp)
    have := ih fun x hx => h x (by simp [hx])
    rw [numeral_concat, (digit_facts d hd).1, Option.getD_some, List.length_append,
      List.length_singleton, pow_succ]
    omega

/-- 32 digits in lower case are those of their number. -/
theorem eq_canonicalHex {s : List Char} (h : ∀ c ∈ s, LowerHex c) (hlen : s.length = 32) :
    s = canonicalHex (numeral 16 s) := by
  have hlt := numeral_lt h
  rw [hlen] at hlt
  refine numeral_injective h (canonicalHex_lowerHex _) ?_ (numeral_canonicalHex _).symm
  rw [hlen, canonicalHex_length (by omega)]

/-- The bytes of digits are the number in base 256. -/
theorem beValue_hexPairs {k : ℕ} {s : List Char} (h : ∀ c ∈ s, LowerHex c)
    (hlen : s.length = 2 * k) : beValue (hexPairs s) = numeral 16 s := by
  induction k generalizing s with
  | zero =>
    obtain rfl := List.length_eq_zero_iff.mp hlen
    rfl
  | succ k ih =>
    obtain ⟨hi, lo, rest, rfl⟩ : ∃ hi lo rest, s = hi :: lo :: rest := by
      match s, hlen with
      | hi :: lo :: rest, _ => exact ⟨hi, lo, rest, rfl⟩
    obtain ⟨d, hd, rfl⟩ := h hi (by simp)
    obtain ⟨e, he, rfl⟩ := h lo (by simp)
    have hrest : ∀ c ∈ rest, LowerHex c := fun c hc => h c (by simp [hc])
    have hcount : rest.length = 2 * k := by simpa [Nat.mul_add] using hlen
    have happend := numeral_append 16 [Nat.digitChar d, Nat.digitChar e] rest
    have hpair : numeral 16 [Nat.digitChar d, Nat.digitChar e] = 16 * d + e := by
      simp [numeral, (digit_facts d hd).1, (digit_facts e he).1]
    have hbyte : (UInt8.ofNat (16 * d + e)).toNat = 16 * d + e := by
      rw [UInt8.toNat_ofNat']
      omega
    rw [hexPairs, (digit_facts d hd).1, (digit_facts e he).1, Option.getD_some, Option.getD_some,
      beValue, hbyte, ih hrest hcount, (hexChars_hexPairs hrest hcount).2,
      show Nat.digitChar d :: Nat.digitChar e :: rest = [_, _] ++ rest from rfl, happend, hpair,
      hcount, pow_mul, show (16 : ℕ) ^ 2 = 256 from rfl]

end Interface

end Treecrdt
