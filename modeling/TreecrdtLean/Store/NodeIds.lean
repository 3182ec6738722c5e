import TreecrdtLean.Store.Wasm

/-!
# Spellings of a node id (`ids.ts`)

`normalizeNodeId` takes 32 hexadecimal digits, a decimal number, and hexadecimal digits with or
without `0x`. It looks for decimal digits when the prefix is already gone, so `0x10` is read as ten
(`Misread`). Every other text that it takes becomes the 32 digits of the number that the text is
written for, which the node of the Rust side is (`formsAgree_iff`).
-/

namespace Treecrdt

namespace Interface

/-! ## What a text stands for -/

/-- The digits, behind the prefix. -/
def digits (nodeId : NodeId) : List Char := stripHexPrefix (trim nodeId.toList)

/-- The text has `0x` in front. -/
def IsPrefixed (nodeId : NodeId) : Prop := digits nodeId ≠ trim nodeId.toList

instance : DecidablePred IsPrefixed := fun _ => inferInstanceAs (Decidable (_ ≠ _))

def isDecimal (s : List Char) : Bool := s.all fun c => '0' ≤ c && c ≤ '9'

/-- What digits without a prefix stand for. -/
def unprefixed (s : List Char) : ℕ :=
  if s.length = 32 ∧ isHex s then numeral 16 s
  else if isDecimal s then numeral 10 s
  else numeral 16 s

/-- What a node id stands for: digits with a prefix are hexadecimal. -/
def denotes (nodeId : NodeId) : ℕ :=
  if IsPrefixed nodeId then numeral 16 (digits nodeId) else unprefixed (digits nodeId)

/-- The texts are normalized to what they stand for, on both sides, and none for another. -/
structure FormsAgree (forms : Set NodeId) : Prop where
  canonical : ∀ s ∈ forms, ∀ r, normalizeNodeId s = .ok r → r = canonicalHex (denotes s)
  distinct : ∀ s ∈ forms, ∀ s' ∈ forms, ∀ r r', normalizeNodeId s = .ok r →
    normalizeNodeId s' = .ok r' → denotes s ≠ denotes s' → r ≠ r'
  node : ∀ s ∈ forms, ∀ r, normalizeNodeId s = .ok r →
    ∃ id, Wasm.hexToNode r = .ok id ∧ id.toNat = denotes s

/-- A prefix, and behind it what is a decimal number as well, but not the same one. -/
structure Misread (nodeId : NodeId) : Prop where
  isPrefixed : IsPrefixed nodeId
  isDecimal : isDecimal (digits nodeId)
  length : (digits nodeId).length ≠ 32
  significant : 2 ≤ ((digits nodeId).dropWhile (· = '0')).length
  inRange : numeral 10 (digits nodeId) < 2 ^ 128

/-! ## Decimal digits -/

variable {s : List Char}

theorem isDecimal_cons {c : Char} :
    isDecimal (c :: s) ↔ (∃ d < 10, c = Nat.digitChar d) ∧ isDecimal s := by
  have hdigit : ('0' ≤ c ∧ c ≤ '9') ↔ ∃ d < 10, c = Nat.digitChar d := by
    constructor
    · rintro ⟨hge, hle⟩
      have hge : 48 ≤ c.toNat := hge
      have hle : c.toNat ≤ 57 := hle
      have hdigits : ∀ n < 10, Char.ofNat (48 + n) = Nat.digitChar n := by decide
      refine ⟨c.toNat - 48, by omega, ?_⟩
      rw [← hdigits (c.toNat - 48) (by omega), Nat.add_sub_cancel' hge, Char.ofNat_toNat]
    · rintro ⟨d, hd, rfl⟩
      revert d
      decide
  rw [isDecimal, List.all_cons, Bool.and_eq_true, Bool.and_eq_true, decide_eq_true_eq,
    decide_eq_true_eq, hdigit]
  rfl

theorem isHex_of_isDecimal (h : isDecimal s) : isHex s := by
  induction s with
  | nil => rfl
  | cons c s ih =>
    obtain ⟨⟨d, hd, rfl⟩, hs⟩ := isDecimal_cons.mp h
    rw [isHex, List.all_cons, (digit_facts d (by omega)).1]
    exact ih hs

theorem isDecimal_append {t : List Char} : isDecimal (s ++ t) ↔ isDecimal s ∧ isDecimal t := by
  rw [isDecimal, List.all_append, Bool.and_eq_true]
  rfl

theorem decimal_eq_numeral (h : isDecimal s) : decimal s = numeral 10 s := by
  induction s using List.reverseRecOn with
  | nil => rfl
  | append_singleton s c ih =>
    obtain ⟨hs, hc⟩ := isDecimal_append.mp h
    obtain ⟨⟨d, hd, rfl⟩, -⟩ := isDecimal_cons.mp hc
    have hvalue : ∀ d < 10, (Nat.digitChar d).toNat - 48 = d := by decide
    rw [numeral_concat, ← ih hs, (digit_facts d (by omega)).1, Option.getD_some, decimal,
      List.foldl_append, List.foldl_cons, List.foldl_nil, hvalue d hd]
    rfl

/-- No text stands for less in a larger base. -/
theorem numeral_mono {b c : ℕ} (h : b ≤ c) (s : List Char) : numeral b s ≤ numeral c s := by
  induction s using List.reverseRecOn with
  | nil => exact le_rfl
  | append_singleton s x ih =>
    rw [numeral_concat, numeral_concat]
    exact Nat.add_le_add_right (Nat.mul_le_mul h ih) _

/-- Only one digit, behind zeros, is the same in both bases. -/
theorem numeral_ten_eq_iff (h : isDecimal s) :
    numeral 10 s = numeral 16 s ↔ (s.dropWhile (· = '0')).length ≤ 1 := by
  rw [← numeral_dropWhile 10, ← numeral_dropWhile 16]
  have hrest : isDecimal (s.dropWhile (· = '0')) := by
    rw [← List.takeWhile_append_dropWhile (p := (· = '0')) (l := s), isDecimal_append] at h
    exact h.2
  have hhead := List.head?_dropWhile_not (· = '0') s
  revert hrest hhead
  generalize s.dropWhile (· = '0') = t
  intro hrest hhead
  match t, hrest, hhead with
  | [], _, _ => exact iff_of_true rfl (by decide)
  | [c], _, _ => exact iff_of_true (by simp [numeral]) le_rfl
  | c :: e :: t, hrest, hhead =>
    obtain ⟨⟨d, hd, rfl⟩, -⟩ := isDecimal_cons.mp hrest
    refine iff_of_false (ne_of_lt ?_) (by simp)
    have hpos : 0 < d := by
      refine Nat.pos_of_ne_zero fun hzero => ?_
      subst hzero
      simp at hhead
    have happend := fun base => numeral_append base [Nat.digitChar d] (e :: t)
    have hone : ∀ base, numeral base [Nat.digitChar d] = d := by
      simp [numeral, (digit_facts d (by omega)).1]
    rw [List.singleton_append] at happend
    rw [happend 10, happend 16, hone, hone]
    refine Nat.add_lt_add_of_lt_of_le (Nat.mul_lt_mul_of_pos_left ?_ hpos)
      (numeral_mono (by decide) _)
    exact Nat.pow_lt_pow_left (by decide) (by simp)

/-! ## What is read -/

/-- The 32 digits that the case of the hexadecimal numbers makes. -/
theorem canonicalHex_of_hex (h : isHex s) (hlen : s.length = 32) :
    s.map Char.toLower = canonicalHex (numeral 16 s) ∧ numeral 16 s < 2 ^ 128 := by
  obtain ⟨hvalue, hchars⟩ := numeral_toLower h
  have hlen : (s.map Char.toLower).length = 32 := by rw [List.length_map, hlen]
  have hlt := numeral_lt hchars
  rw [hlen, hvalue] at hlt
  exact ⟨by rw [eq_canonicalHex hchars hlen, hvalue], by omega⟩

theorem isHex_zeros {k : ℕ} (h : isHex s) : isHex (List.replicate k '0' ++ s) := by
  rw [isHex, List.all_append, Bool.and_eq_true]
  refine ⟨List.all_eq_true.mpr fun c hc => ?_, h⟩
  rw [List.eq_of_mem_replicate hc]
  rfl

/-- Fewer digits are filled up, first to whole bytes. -/
theorem canonicalHex_of_unpadded (h : isHex s) (hlen : s.length ≤ 32) :
    (padStart (if s.length % 2 = 1 then '0' :: s else s)).map Char.toLower =
        canonicalHex (numeral 16 s) ∧
      numeral 16 s < 2 ^ 128 := by
  obtain ⟨hvalue, hchars, hle⟩ :
      numeral 16 (if s.length % 2 = 1 then '0' :: s else s) = numeral 16 s ∧
      isHex (if s.length % 2 = 1 then '0' :: s else s) ∧
      (if s.length % 2 = 1 then '0' :: s else s).length ≤ 32 := by
    split
    · rw [List.length_cons]
      exact ⟨numeral_zeros 16 1 s, isHex_zeros (k := 1) h, by omega⟩
    · exact ⟨rfl, h, hlen⟩
  have hpadded := canonicalHex_of_hex (isHex_zeros hchars) (padStart_length hle)
  rwa [numeral_zeros, hvalue] at hpadded

/-- Zeros in front are taken away, but for one. -/
theorem stripZeros_spec (h : isHex s) :
    numeral 16 (if (s.dropWhile (· = '0')).length = 0 then ['0'] else s.dropWhile (· = '0')) =
        numeral 16 s ∧
      isHex (if (s.dropWhile (· = '0')).length = 0 then ['0'] else s.dropWhile (· = '0')) := by
  rw [← numeral_dropWhile 16 s]
  split
  · rename_i hempty
    rw [List.length_eq_zero_iff.mp hempty]
    exact ⟨rfl, rfl⟩
  · refine ⟨rfl, List.all_eq_true.mpr fun c hc => List.all_eq_true.mp h c ?_⟩
    exact (List.dropWhile_sublist _).subset hc

/-- Whatever is accepted is read as digits without a prefix. -/
theorem normalizeNodeId_ok {nodeId : NodeId} {r : List Char} (h : normalizeNodeId nodeId = .ok r) :
    r = canonicalHex (unprefixed (digits nodeId)) ∧ unprefixed (digits nodeId) < 2 ^ 128 := by
  simp only [normalizeNodeId] at h
  rw [show stripHexPrefix (trim nodeId.toList) = digits nodeId from rfl] at h
  generalize digits nodeId = s at h ⊢
  split at h
  · cases h
  split at h
  · rename_i hfull
    cases h
    rw [unprefixed, if_pos hfull]
    exact canonicalHex_of_hex hfull.2 hfull.1
  rename_i hfull
  split at h
  · rename_i hdecimal
    have hdecimal : isDecimal s := hdecimal
    rw [unprefixed, if_neg hfull, if_pos hdecimal, ← decimal_eq_numeral hdecimal]
    split at h
    · cases h
    · rename_i hle
      cases h
      exact ⟨rfl, by omega⟩
  rename_i hdecimal
  have hdecimal : ¬ isDecimal s := hdecimal
  rw [unprefixed, if_neg hfull, if_neg hdecimal]
  split at h
  · cases h
  rename_i hhex
  obtain ⟨hvalue, hchars⟩ := stripZeros_spec (s := s) (by simpa using hhex)
  rw [← hvalue]
  revert h hchars
  generalize (if (s.dropWhile (· = '0')).length = 0 then ['0'] else s.dropWhile (· = '0')) = hex
  intro h hchars
  split at h
  · cases h
  · rename_i hlen
    cases h
    exact canonicalHex_of_unpadded hchars (by omega)

/-! ## Agreement -/

theorem hexToNode_normalizeNodeId {nodeId : NodeId} {r : List Char}
    (h : normalizeNodeId nodeId = .ok r) :
    ∃ id, Wasm.hexToNode r = .ok id ∧ id.toNat = unprefixed (digits nodeId) := by
  obtain ⟨rfl, hlt⟩ := normalizeNodeId_ok h
  refine ⟨_, Wasm.hexToNode_canonicalHex hlt, ?_⟩
  rw [NodeId.toNat, BitVec.toNat_ofNat, Nat.mod_eq_of_lt hlt]

/-- What is read is what is meant, but for the misread texts. -/
theorem unprefixed_eq_denotes_iff {nodeId : NodeId} {r : List Char}
    (h : normalizeNodeId nodeId = .ok r) :
    unprefixed (digits nodeId) = denotes nodeId ↔ ¬ Misread nodeId := by
  have hlt := (normalizeNodeId_ok h).2
  rw [denotes]
  split
  · rename_i hprefixed
    by_cases hfull : (digits nodeId).length = 32 ∧ isHex (digits nodeId)
    · rw [unprefixed, if_pos hfull]
      exact iff_of_true rfl fun hmis => hmis.length hfull.1
    by_cases hdecimal : isDecimal (digits nodeId)
    · rw [unprefixed, if_neg hfull, if_pos hdecimal] at hlt ⊢
      rw [numeral_ten_eq_iff hdecimal]
      constructor
      · exact fun hle hmis => absurd hmis.significant (by omega)
      · intro hnot
        by_contra hsignificant
        refine hnot ⟨hprefixed, hdecimal, fun hlen => ?_, by omega, hlt⟩
        exact hfull ⟨hlen, isHex_of_isDecimal hdecimal⟩
    · rw [unprefixed, if_neg hfull, if_neg hdecimal]
      exact iff_of_true rfl fun hmis => hdecimal hmis.isDecimal
  · rename_i hprefixed
    exact iff_of_true rfl fun hmis => hprefixed hmis.isPrefixed

/-- A misread text is accepted. -/
theorem Misread.normalizeNodeId {nodeId : NodeId} (h : Misread nodeId) :
    ∃ r, normalizeNodeId nodeId = .ok r := by
  have hne : (digits nodeId).length ≠ 0 := by
    have hle := (List.dropWhile_sublist (· = '0') (l := digits nodeId)).length_le
    have := h.significant
    omega
  have hinRange := h.inRange
  rw [← decimal_eq_numeral h.isDecimal] at hinRange
  refine ⟨padStart (Nat.toDigits 16 (decimal (digits nodeId))), ?_⟩
  simp only [Interface.normalizeNodeId]
  rw [show stripHexPrefix (trim nodeId.toList) = digits nodeId from rfl, if_neg hne,
    if_neg fun hfull => h.length hfull.1]
  exact (if_pos h.isDecimal).trans (if_neg (by omega))

/-- Texts agree on both sides, and with what they stand for, if and only if none is misread. -/
theorem formsAgree_iff (forms : Set NodeId) : FormsAgree forms ↔ ∀ s ∈ forms, ¬ Misread s := by
  constructor
  · intro h s hs hmis
    obtain ⟨r, hr⟩ := hmis.normalizeNodeId
    obtain ⟨id, hid, hvalue⟩ := h.node s hs r hr
    obtain ⟨id', hid', hread⟩ := hexToNode_normalizeNodeId hr
    obtain rfl : id = id' := Except.ok.inj (hid.symm.trans hid')
    exact (unprefixed_eq_denotes_iff hr).mp (hread.symm.trans hvalue) hmis
  · intro h
    have hread : ∀ s ∈ forms, ∀ r, Interface.normalizeNodeId s = .ok r →
        unprefixed (digits s) = denotes s := fun s hs r hr =>
      (unprefixed_eq_denotes_iff hr).mpr (h s hs)
    have hcanonical : ∀ s ∈ forms, ∀ r, Interface.normalizeNodeId s = .ok r →
        r = canonicalHex (denotes s) := fun s hs r hr =>
      hread s hs r hr ▸ (normalizeNodeId_ok hr).1
    refine ⟨hcanonical, ?_, fun s hs r hr => hread s hs r hr ▸ hexToNode_normalizeNodeId hr⟩
    intro s hs s' hs' r r' hr hr' hne heq
    rw [hcanonical s hs r hr, hcanonical s' hs' r' hr'] at heq
    exact hne (canonicalHex_injective heq)

/-- `0x10` is read as ten. -/
theorem prefixed_ten_misread : normalizeNodeId "0x10" = .ok (canonicalHex 10) ∧
    denotes "0x10" = 16 ∧ ¬ FormsAgree Set.univ := by
  have hread : normalizeNodeId "0x10" = .ok (canonicalHex 10) := by decide +kernel
  have hmeant : denotes "0x10" = 16 := by decide +kernel
  refine ⟨hread, hmeant, fun h => ?_⟩
  have heq := canonicalHex_injective (h.canonical "0x10" trivial _ hread)
  rw [hmeant] at heq
  cases heq

end Interface

end Treecrdt
