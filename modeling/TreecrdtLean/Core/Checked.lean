import TreecrdtLean.Core.Between

/-!
# Order keys that arrive from elsewhere

A key that another peer sends may have the digit `u16::MAX` and may end in digits `0`, which the
allocator itself never makes. The arithmetic of `allocate_between` is taken here as a build with
overflow checks runs it: `none` is the panic. It panics exactly if the walk meets `u16::MAX` in both
keys (`Saturates`), and misses its right bound exactly if that is the left bound with digits `0`
behind it (`Padded`).
-/

namespace Treecrdt

namespace OrderKey

/-- `a + b` on `u16`. -/
def checkedAdd (a b : UInt16) : Option UInt16 :=
  if a.toNat + b.toNat < 2 ^ 16 then some (a + b) else none

/-- `a - b` on `u16`. -/
def checkedSub (a b : UInt16) : Option UInt16 := if b ≤ a then some (a - b) else none

def chooseInRangeChecked (seed : Bytes) (depth : ℕ) (lo hi : UInt16) : Option UInt16 := do
  if lo = hi then return lo
  let span := (← checkedSub hi lo).toUInt32 + 1
  checkedAdd lo (sampleU64 seed depth % span.toUInt64).toUInt16

/-- The digit chosen where `rd > ld + 1`. -/
def chooseDigitChecked (seed : Bytes) (depth : ℕ) (ld rd : UInt16) : Option UInt16 := do
  let gap ← checkedSub (← checkedSub rd ld) 1
  let boundary := min DEFAULT_BOUNDARY gap
  let (lo, hi) ←
    if gap > boundary then
      if chooseSide seed depth then do pure (← checkedAdd ld 1, ← checkedAdd ld boundary)
      else do pure (← checkedSub rd boundary, ← checkedSub rd 1)
    else do pure (← checkedAdd ld 1, ← checkedSub rd 1)
  chooseInRangeChecked seed depth lo hi

/-- The loop of `allocate_between`. -/
def allocateDigitsChecked (seed : Bytes) :
    ℕ → List (UInt16 × UInt16) → Option (Except Error (List UInt16))
  | depth, [] => do return .ok [← chooseDigitChecked seed depth 0 0xFFFF]
  | depth, (ld, rd) :: rest => do
    if rd < ld then return .error (.invalidOperation "cannot allocate order_key: right < left")
    if rd > (← checkedAdd ld 1) then return .ok [← chooseDigitChecked seed depth ld rd]
    return (← allocateDigitsChecked seed (depth + 1) rest).map (ld :: ·)

/-- `allocate_between`; `none` is a panic. -/
def allocateBetweenChecked (left right : Option Bytes) (seed : Bytes) :
    Option (Except Error Bytes) :=
  match decodeDigits (left.getD []), decodeDigits (right.getD []) with
  | .ok leftDigits, .ok rightDigits => do
    return (← allocateDigitsChecked seed 0 (digitPairs leftDigits rightDigits)).map encodeDigits
  | .error e, _ => some (.error e)
  | _, .error e => some (.error e)

/-! ## The digit -/

theorem checkedAdd_eq {a b : UInt16} (h : a.toNat + b.toNat < 2 ^ 16) :
    checkedAdd a b = some (a + b) := if_pos h

theorem checkedSub_eq {a b : UInt16} (h : b.toNat ≤ a.toNat) : checkedSub a b = some (a - b) :=
  if_pos (UInt16.le_iff_toNat_le.mpr h)

theorem chooseInRangeChecked_eq (seed : Bytes) (depth : ℕ) {lo hi : UInt16}
    (h : lo.toNat ≤ hi.toNat) :
    chooseInRangeChecked seed depth lo hi = some (chooseInRange seed depth lo hi) := by
  have hhi := UInt16.toNat_lt hi
  unfold chooseInRangeChecked chooseInRange
  split_ifs with heq
  · rfl
  · have hn := sample_le seed depth h
    rw [checkedSub_eq h]
    exact checkedAdd_eq (by omega)

/-- Between two digits with room no step overflows. -/
theorem chooseDigitChecked_eq (seed : Bytes) (depth : ℕ) {l r : UInt16}
    (h : l.toNat + 1 < r.toNat) :
    chooseDigitChecked seed depth l r = some (chooseDigit seed depth l r) := by
  have hr := UInt16.toNat_lt r
  have hone : (1 : UInt16).toNat = 1 := rfl
  have hgap := gap_toNat h
  have hdiff := diff_toNat h
  have hbound := boundary_toNat h
  have hlow : checkedAdd l 1 = some (l + 1) := checkedAdd_eq (by omega)
  have hhigh : checkedSub r 1 = some (r - 1) := checkedSub_eq (by omega)
  have hlow' : (l + 1).toNat = l.toNat + 1 := by
    rw [UInt16.toNat_add]
    exact Nat.mod_eq_of_lt (by omega)
  have hhigh' : (r - 1).toNat = r.toNat - 1 :=
    UInt16.toNat_sub_of_le _ _ (UInt16.le_iff_toNat_le.mpr (by omega))
  unfold chooseDigitChecked chooseDigit
  rw [checkedSub_eq (a := r) (b := l) (by omega)]
  simp only [Option.bind_eq_bind, Option.bind_some, checkedSub_eq (a := r - l) (b := 1) (by omega)]
  split_ifs with hroom hside
  · rw [hlow, checkedAdd_eq (b := min DEFAULT_BOUNDARY (r - l - 1)) (by omega)]
    refine chooseInRangeChecked_eq seed depth ?_
    show (l + 1).toNat ≤ (l + min DEFAULT_BOUNDARY (r - l - 1)).toNat
    rw [UInt16.toNat_add l (min DEFAULT_BOUNDARY (r - l - 1)), Nat.mod_eq_of_lt (by omega)]
    omega
  · rw [hhigh, checkedSub_eq (b := min DEFAULT_BOUNDARY (r - l - 1)) (by omega)]
    refine chooseInRangeChecked_eq seed depth ?_
    show (r - min DEFAULT_BOUNDARY (r - l - 1)).toNat ≤ (r - 1).toNat
    rw [UInt16.toNat_sub_of_le _ _ (UInt16.le_iff_toNat_le.mpr (by omega))]
    omega
  · rw [hlow, hhigh]
    refine chooseInRangeChecked_eq seed depth ?_
    show (l + 1).toNat ≤ (r - 1).toNat
    omega

/-! ## The loop -/

/-- What one turn of the loop can do. -/
theorem allocateDigitsChecked_cons (seed : Bytes) (depth : ℕ) (l r : UInt16)
    (rest : List (UInt16 × UInt16)) :
    (r.toNat < l.toNat ∧
      ∃ e, allocateDigitsChecked seed depth ((l, r) :: rest) = some (.error e)) ∨
    (l = 0xFFFF ∧ r = 0xFFFF ∧ allocateDigitsChecked seed depth ((l, r) :: rest) = none) ∨
    (∃ x, l.toNat < x.toNat ∧ x.toNat < r.toNat ∧
      allocateDigitsChecked seed depth ((l, r) :: rest) = some (.ok [x])) ∨
    (l ≠ 0xFFFF ∧ l.toNat ≤ r.toNat ∧ r.toNat ≤ l.toNat + 1 ∧
      allocateDigitsChecked seed depth ((l, r) :: rest) =
        (allocateDigitsChecked seed (depth + 1) rest).map (·.map (l :: ·))) := by
  have hr := UInt16.toNat_lt r
  rw [allocateDigitsChecked]
  by_cases hlt : r < l
  · exact Or.inl ⟨UInt16.lt_iff_toNat_lt.mp hlt, _, by rw [if_pos hlt]; rfl⟩
  rw [if_neg hlt]
  rw [UInt16.lt_iff_toNat_lt] at hlt
  by_cases hmax : l = 0xFFFF
  · subst hmax
    have hmax' : (0xFFFF : UInt16).toNat = 2 ^ 16 - 1 := rfl
    exact Or.inr (Or.inl ⟨rfl, UInt16.toNat_inj.mp (by omega), rfl⟩)
  have hsucc := succ_toNat hmax
  have hadd : checkedAdd l 1 = some (l + 1) := checkedAdd_eq (by
    have := UInt16.toNat_lt (l + 1)
    rw [show (1 : UInt16).toNat = 1 from rfl]
    omega)
  rw [hadd]
  simp only [gt_iff_lt, UInt16.lt_iff_toNat_lt, hsucc, Option.bind_eq_bind,
    Option.bind_some]
  by_cases hroom : l.toNat + 1 < r.toNat
  · obtain ⟨h1, h2⟩ := chooseDigit_between seed depth hroom
    refine Or.inr (Or.inr (Or.inl ⟨_, h1, h2, ?_⟩))
    rw [if_pos hroom, chooseDigitChecked_eq seed depth hroom]
    rfl
  · refine Or.inr (Or.inr (Or.inr ⟨hmax, by omega, by omega, ?_⟩))
    rw [if_neg hroom]
    cases allocateDigitsChecked seed (depth + 1) rest <;> rfl

theorem allocateDigitsChecked_nil (seed : Bytes) (depth : ℕ) :
    ∃ x, 0 < x.toNat ∧ allocateDigitsChecked seed depth [] = some (.ok [x]) := by
  obtain ⟨h1, -⟩ := chooseDigit_between seed depth (l := 0) (r := 0xFFFF) (by decide)
  refine ⟨_, h1, ?_⟩
  rw [allocateDigitsChecked, chooseDigitChecked_eq seed depth (by decide)]
  rfl

/-- Without a panic the loop is the one that wraps. -/
theorem allocateDigits_of_checked (seed : Bytes) {pairs : List (UInt16 × UInt16)} {depth : ℕ}
    {x : Except Error (List UInt16)} (h : allocateDigitsChecked seed depth pairs = some x) :
    allocateDigits seed depth pairs = x := by
  induction pairs generalizing depth x with
  | nil =>
    rw [allocateDigitsChecked, chooseDigitChecked_eq seed depth (by decide)] at h
    cases h
    rfl
  | cons pair rest ih =>
    obtain ⟨l, r⟩ := pair
    rw [allocateDigitsChecked] at h
    rw [allocateDigits]
    by_cases hlt : r < l
    · rw [if_pos hlt] at h ⊢
      cases h
      rfl
    rw [if_neg hlt] at h ⊢
    obtain ⟨next, hadd, h⟩ := Option.bind_eq_some_iff.mp h
    rw [checkedAdd] at hadd
    split_ifs at hadd with hfits
    cases hadd
    by_cases hroom : r > l + 1
    · rw [if_pos hroom] at h ⊢
      have hroom' : l.toNat + 1 < r.toNat := by
        rw [gt_iff_lt, UInt16.lt_iff_toNat_lt, UInt16.toNat_add, Nat.mod_eq_of_lt hfits] at hroom
        exact hroom
      rw [chooseDigitChecked_eq seed depth hroom'] at h
      cases h
      rfl
    · rw [if_neg hroom] at h ⊢
      obtain ⟨y, hy, h⟩ := Option.bind_eq_some_iff.mp h
      cases h
      rw [ih hy]
      cases y <;> rfl

/-- The walk comes to `u16::MAX` in both keys: no digit before differs by more than one. -/
def Saturates (left right : List UInt16) : Prop :=
  ∃ i, left.getD i 0 = 0xFFFF ∧ right.getD i 0xFFFF = 0xFFFF ∧
    ∀ j < i, (left.getD j 0).toNat ≤ (right.getD j 0xFFFF).toNat ∧
      (right.getD j 0xFFFF).toNat ≤ (left.getD j 0).toNat + 1

theorem saturates_step (l r : ℕ → UInt16) :
    (∃ i, l i = 0xFFFF ∧ r i = 0xFFFF ∧
      ∀ j < i, (l j).toNat ≤ (r j).toNat ∧ (r j).toNat ≤ (l j).toNat + 1) ↔
    (l 0 = 0xFFFF ∧ r 0 = 0xFFFF) ∨
      ((l 0).toNat ≤ (r 0).toNat ∧ (r 0).toNat ≤ (l 0).toNat + 1) ∧
        ∃ i, l (i + 1) = 0xFFFF ∧ r (i + 1) = 0xFFFF ∧ ∀ j < i,
          (l (j + 1)).toNat ≤ (r (j + 1)).toNat ∧ (r (j + 1)).toNat ≤ (l (j + 1)).toNat + 1 := by
  constructor
  · rintro ⟨i, hl, hr, hbefore⟩
    rcases i with _ | i
    · exact Or.inl ⟨hl, hr⟩
    · exact Or.inr ⟨hbefore 0 (by omega), i, hl, hr, fun j hj => hbefore (j + 1) (by omega)⟩
  · rintro (⟨hl, hr⟩ | ⟨h0, i, hl, hr, hbefore⟩)
    · exact ⟨0, hl, hr, fun j hj => absurd hj (by omega)⟩
    · refine ⟨i + 1, hl, hr, fun j hj => ?_⟩
      rcases j with _ | j
      · exact h0
      · exact hbefore j (by omega)

section

variable {seed : Bytes} {depth : ℕ} {l r : UInt16} {rest : List (UInt16 × UInt16)}
  {ds tail : List UInt16}

/-- One turn panics, or leaves it to the others. -/
private theorem none_turn :
    allocateDigitsChecked seed depth ((l, r) :: rest) = none ↔
      (l = 0xFFFF ∧ r = 0xFFFF) ∨ (l.toNat ≤ r.toNat ∧ r.toNat ≤ l.toNat + 1) ∧
        allocateDigitsChecked seed (depth + 1) rest = none := by
  rcases allocateDigitsChecked_cons seed depth l r rest with
    ⟨hlt, e, he⟩ | ⟨hl, hr, hnone⟩ | ⟨x, h1, h2, hx⟩ | ⟨hl, hle, hge, hgo⟩
  · rw [he]
    refine iff_of_false nofun ?_
    rintro (⟨rfl, rfl⟩ | ⟨⟨hle, -⟩, -⟩)
    · exact lt_irrefl _ hlt
    · omega
  · exact iff_of_true hnone (Or.inl ⟨hl, hr⟩)
  · rw [hx]
    refine iff_of_false nofun ?_
    rintro (⟨rfl, rfl⟩ | ⟨⟨-, hge⟩, -⟩) <;> omega
  · rw [hgo, Option.map_eq_none_iff]
    simp [hl, hle, hge]

private theorem checked_left_turn
    (ih : ∀ ds', allocateDigitsChecked seed (depth + 1) rest = some (.ok ds') →
      nats tail < nats ds')
    (h : allocateDigitsChecked seed depth ((l, r) :: rest) = some (.ok ds)) :
    nats (l :: tail) < nats ds := by
  rcases allocateDigitsChecked_cons seed depth l r rest with
    ⟨-, e, he⟩ | ⟨-, -, hnone⟩ | ⟨x, h1, -, hx⟩ | ⟨-, -, -, hgo⟩
  · rw [he] at h
    cases h
  · rw [hnone] at h
    cases h
  · rw [hx] at h
    cases h
    exact List.cons_lt_cons_iff.mpr (Or.inl h1)
  · rw [hgo] at h
    obtain ⟨y, hy, h⟩ := Option.map_eq_some_iff.mp h
    rcases y with e | ds'
    · cases h
    · cases h
      exact List.cons_lt_cons_iff.mpr (Or.inr ⟨rfl, ih ds' hy⟩)

/-- One turn stays before the right key where the digits part, and leaves it to the others where
they do not. -/
private theorem checked_right_turn (tail : List UInt16)
    (h : allocateDigitsChecked seed depth ((l, r) :: rest) = some (.ok ds)) :
    (l ≠ r ∧ nats ds < nats (r :: tail)) ∨
      l = r ∧ ∃ ds', allocateDigitsChecked seed (depth + 1) rest = some (.ok ds') ∧
        (nats ds < nats (r :: tail) ↔ nats ds' < nats tail) := by
  rcases allocateDigitsChecked_cons seed depth l r rest with
    ⟨-, e, he⟩ | ⟨-, -, hnone⟩ | ⟨x, h1, h2, hx⟩ | ⟨-, hle, -, hgo⟩
  · rw [he] at h
    cases h
  · rw [hnone] at h
    cases h
  · rw [hx] at h
    cases h
    refine Or.inl ⟨?_, List.cons_lt_cons_iff.mpr (Or.inl h2)⟩
    rintro rfl
    omega
  · rw [hgo] at h
    obtain ⟨y, hy, h⟩ := Option.map_eq_some_iff.mp h
    rcases y with e | ds'
    · cases h
    · cases h
      by_cases heq : l = r
      · subst heq
        refine Or.inr ⟨rfl, ds', hy, ?_⟩
        simp [nats]
      · have hne : l.toNat ≠ r.toNat := fun hn => heq (UInt16.toNat_inj.mp hn)
        exact Or.inl ⟨heq, List.cons_lt_cons_iff.mpr (Or.inl (by omega))⟩

end

/-- The loop panics exactly if the walk comes to `u16::MAX` in both keys. -/
theorem allocateDigitsChecked_eq_none_iff (seed : Bytes) (left right : List UInt16) :
    ∀ depth, allocateDigitsChecked seed depth (digitPairs left right) = none ↔
      Saturates left right := by
  unfold Saturates
  induction left, right using digits_induction with
  | nil =>
    intro depth
    obtain ⟨x, -, hx⟩ := allocateDigitsChecked_nil seed depth
    rw [digitPairs_nil_nil, hx]
    refine iff_of_false nofun ?_
    rintro ⟨i, hi, -⟩
    rw [List.getD_nil] at hi
    exact zero_ne_max hi
  | cons_nil a as ih =>
    intro depth
    rw [digitPairs_cons_nil, none_turn, ih,
      saturates_step (fun i => (a :: as).getD i 0) fun i => List.getD [] i 0xFFFF]
    simp
  | nil_cons b bs ih =>
    intro depth
    rw [digitPairs_nil_cons, none_turn, ih,
      saturates_step (fun i => List.getD [] i 0) fun i => (b :: bs).getD i 0xFFFF]
    simp
  | cons_cons a as b bs ih =>
    intro depth
    rw [digitPairs_cons_cons, none_turn, ih,
      saturates_step (fun i => (a :: as).getD i 0) fun i => (b :: bs).getD i 0xFFFF]
    simp

/-- A key that is allocated is beyond the left one. -/
theorem allocateDigitsChecked_left (seed : Bytes) (left right : List UInt16) :
    ∀ depth ds, allocateDigitsChecked seed depth (digitPairs left right) = some (.ok ds) →
      nats left < nats ds := by
  induction left, right using digits_induction with
  | nil =>
    intro depth ds h
    obtain ⟨x, -, hx⟩ := allocateDigitsChecked_nil seed depth
    rw [digitPairs_nil_nil, hx] at h
    cases h
    exact List.nil_lt_cons _ _
  | cons_nil a as ih =>
    intro depth ds h
    rw [digitPairs_cons_nil] at h
    exact checked_left_turn (fun ds' => ih _ ds') h
  | nil_cons b bs ih =>
    intro depth ds h
    rw [digitPairs_nil_cons] at h
    exact (List.nil_lt_cons _ _).trans (checked_left_turn (fun ds' => ih _ ds') h)
  | cons_cons a as b bs ih =>
    intro depth ds h
    rw [digitPairs_cons_cons] at h
    exact checked_left_turn (fun ds' => ih _ ds') h

/-- The right key is the left one with digits `0` behind it. -/
def Padded (left right : List UInt16) : Prop :=
  ∃ m, 0 < m ∧ right = left ++ List.replicate m 0

/-- It is before the right one, unless that is the left one padded. -/
theorem allocateDigitsChecked_right (seed : Bytes) (left right : List UInt16) :
    ∀ depth ds, nats left < nats right →
      allocateDigitsChecked seed depth (digitPairs left right) = some (.ok ds) →
        (nats ds < nats right ↔ ¬ Padded left right) := by
  induction left, right using digits_induction with
  | nil => exact fun _ _ hlt => absurd hlt (lt_irrefl _)
  | cons_nil a as _ => exact fun _ _ hlt => absurd hlt (by simp [nats])
  | nil_cons b bs ih =>
    intro depth ds _ h
    rw [digitPairs_nil_cons] at h
    obtain ⟨hne, hlt⟩ | ⟨rfl, ds', hds', hiff⟩ := checked_right_turn bs h
    · refine iff_of_true hlt ?_
      rintro ⟨_ | m, hm, hb⟩
      · exact absurd hm (lt_irrefl _)
      · exact hne (List.cons.inj hb).1.symm
    · rw [hiff]
      rcases bs with _ | ⟨c, cs⟩
      · exact iff_of_false (by simp [nats]) fun h => h ⟨1, Nat.one_pos, rfl⟩
      · rw [ih _ _ (List.nil_lt_cons _ _) hds', not_iff_not]
        constructor
        · rintro ⟨m, -, hm⟩
          exact ⟨m + 1, Nat.succ_pos m, by rw [hm]; rfl⟩
        · rintro ⟨m, -, hm⟩
          rcases m with _ | _ | m
          · cases hm
          · cases hm
          · exact ⟨m + 1, Nat.succ_pos m, (List.cons.inj hm).2⟩
  | cons_cons a as b bs ih =>
    intro depth ds hlt h
    rw [digitPairs_cons_cons] at h
    obtain ⟨hne, hlt'⟩ | ⟨rfl, ds', hds', hiff⟩ := checked_right_turn bs h
    · refine iff_of_true hlt' ?_
      rintro ⟨m, -, hb⟩
      exact hne (List.cons.inj hb).1.symm
    · have hrest : nats as < nats bs := by simpa [nats] using hlt
      rw [hiff, ih _ _ hrest hds', Padded, Padded]
      simp

private theorem error_turn {seed : Bytes} {depth : ℕ} {l : UInt16} {rest : List (UInt16 × UInt16)}
    (ih : ∀ e, allocateDigitsChecked seed (depth + 1) rest ≠ some (.error e)) (e : Error) :
    allocateDigitsChecked seed depth ((l, l) :: rest) ≠ some (.error e) := by
  intro h
  rcases allocateDigitsChecked_cons seed depth l l rest with
    ⟨hlt, -⟩ | ⟨-, -, hnone⟩ | ⟨x, h1, h2, -⟩ | ⟨-, -, -, hgo⟩
  · exact lt_irrefl _ hlt
  · rw [hnone] at h
    cases h
  · omega
  · rw [hgo] at h
    obtain ⟨y, hy, h⟩ := Option.map_eq_some_iff.mp h
    rcases y with e' | ds
    · exact ih e' hy
    · cases h

/-- Between a key and the same key padded the loop finds no digit in the wrong order. -/
theorem allocateDigitsChecked_padded (seed : Bytes) (left right : List UInt16) :
    ∀ depth m, right = left ++ List.replicate m 0 →
      ∀ e, allocateDigitsChecked seed depth (digitPairs left right) ≠ some (.error e) := by
  induction left, right using digits_induction with
  | nil =>
    intro depth m _ e h
    obtain ⟨x, -, hx⟩ := allocateDigitsChecked_nil seed depth
    rw [digitPairs_nil_nil, hx] at h
    cases h
  | cons_nil a as _ => exact fun _ _ he => nomatch he
  | nil_cons b bs ih =>
    intro depth m he
    rcases m with _ | m
    · cases he
    obtain ⟨rfl, hbs⟩ := List.cons.inj he
    rw [digitPairs_nil_cons]
    exact error_turn (ih _ m hbs)
  | cons_cons a as b bs ih =>
    intro depth m he
    obtain ⟨rfl, hbs⟩ := List.cons.inj he
    rw [digitPairs_cons_cons]
    exact error_turn (ih _ m hbs)

/-! ## Bytes -/

theorem encodeDigits_digitsOf : ∀ {key : Bytes}, key.length % 2 = 0 →
    encodeDigits (digitsOf key) = key
  | [], _ => rfl
  | [_], h => absurd h (by simp)
  | hi :: lo :: rest, h => by
    have hhi := UInt8.toNat_lt hi
    have hlo := UInt8.toNat_lt lo
    have hrest : rest.length % 2 = 0 := by
      simp only [List.length_cons] at h
      omega
    have hdigit : (UInt16.ofNat hi.toNat * 256 + UInt16.ofNat lo.toNat).toNat =
        hi.toNat * 256 + lo.toNat := by
      simp only [UInt16.toNat_add, UInt16.toNat_mul, UInt16.toNat_ofNat',
        show (256 : UInt16).toNat = 256 from rfl]
      omega
    rw [digitsOf, encodeDigits_cons, encodeDigits_digitsOf hrest, hdigit]
    congr 1
    · refine UInt8.toNat_inj.mp ?_
      rw [UInt8.toNat_ofNat']
      omega
    · congr 1
      refine UInt8.toNat_inj.mp ?_
      rw [UInt8.toNat_ofNat']
      omega

theorem nats_lt_iff {a b : Bytes} (ha : a.length % 2 = 0) (hb : b.length % 2 = 0) :
    a.nats < b.nats ↔ nats (digitsOf a) < nats (digitsOf b) := by
  rw [← encodeDigits_lt_iff, encodeDigits_digitsOf ha, encodeDigits_digitsOf hb]

theorem nats_lt_append (ds : List UInt16) (d : UInt16) (ds' : List UInt16) :
    nats ds < nats (ds ++ d :: ds') := by
  induction ds with
  | nil => exact List.nil_lt_cons _ _
  | cons a ds ih => exact List.cons_lt_cons_iff.mpr (Or.inr ⟨rfl, ih⟩)

/-- The call does not overflow, and a key that it returns for bounds in order is between them. -/
structure WellAllocated (left right seed : Bytes) : Prop where
  fits : ∃ x, allocateBetweenChecked (some left) (some right) seed = some x
  between : ∀ k, allocateBetween (some left) (some right) seed = .ok k → left.nats < right.nats →
    left.nats < k.nats ∧ k.nats < right.nats

theorem allocateBetweenChecked_eq {left right : Bytes} (hl : left.length % 2 = 0)
    (hr : right.length % 2 = 0) (seed : Bytes) :
    allocateBetweenChecked (some left) (some right) seed =
        (allocateDigitsChecked seed 0 (digitPairs (digitsOf left) (digitsOf right))).map
          (·.map encodeDigits) ∧
      allocateBetween (some left) (some right) seed =
        (allocateDigits seed 0 (digitPairs (digitsOf left) (digitsOf right))).map encodeDigits := by
  have hdecode : ∀ {key : Bytes}, key.length % 2 = 0 → decodeDigits key = .ok (digitsOf key) :=
    fun h => if_neg (not_not.mpr h)
  unfold allocateBetweenChecked allocateBetween
  simp only [Option.getD_some, hdecode hl, hdecode hr]
  constructor
  · cases allocateDigitsChecked seed 0 (digitPairs (digitsOf left) (digitsOf right)) <;> rfl
  · show (allocateDigits seed 0 (digitPairs (digitsOf left) (digitsOf right)) >>= _) = _
    cases allocateDigits seed 0 (digitPairs (digitsOf left) (digitsOf right)) <;> rfl

/-- A key that does not decode is refused. -/
theorem wellAllocated_of_odd {left right : Bytes} (seed : Bytes)
    (h : ¬ (left.length % 2 = 0 ∧ right.length % 2 = 0)) : WellAllocated left right seed := by
  have hodd : ∀ {key : Bytes}, key.length % 2 ≠ 0 → ∃ e, decodeDigits key = .error e :=
    fun h => ⟨_, if_pos h⟩
  by_cases hl : left.length % 2 = 0
  · obtain ⟨e, he⟩ := hodd fun hr => h ⟨hl, hr⟩
    have hdecode : decodeDigits left = .ok (digitsOf left) := if_neg (not_not.mpr hl)
    constructor
    · exact ⟨.error e, by simp only [allocateBetweenChecked, Option.getD_some, hdecode, he]⟩
    · intro k hk
      simp only [allocateBetween, Option.getD_some, hdecode, he] at hk
      cases hk
  · obtain ⟨e, he⟩ := hodd hl
    constructor
    · exact ⟨.error e, by simp only [allocateBetweenChecked, Option.getD_some, he]⟩
    · intro k hk
      simp only [allocateBetween, Option.getD_some, he] at hk
      cases hk

/-- **Allocation between any keys.** It is well behaved exactly if one of the keys does not decode,
or the walk does not come to `u16::MAX` in both and the right key is not the left one padded. -/
theorem wellAllocated_iff (left right seed : Bytes) :
    WellAllocated left right seed ↔ (left.length % 2 = 0 → right.length % 2 = 0 →
      ¬ Saturates (digitsOf left) (digitsOf right) ∧ ¬ Padded (digitsOf left) (digitsOf right)) := by
  by_cases heven : left.length % 2 = 0 ∧ right.length % 2 = 0
  swap
  · exact iff_of_true (wellAllocated_of_odd seed heven) fun hl hr => absurd ⟨hl, hr⟩ heven
  obtain ⟨hl, hr⟩ := heven
  obtain ⟨hchecked, hplain⟩ := allocateBetweenChecked_eq hl hr seed
  have hnone := allocateDigitsChecked_eq_none_iff seed (digitsOf left) (digitsOf right) 0
  constructor
  · rintro ⟨⟨x, hx⟩, hbetween⟩ - -
    rw [hchecked] at hx
    obtain ⟨y, hy, -⟩ := Option.map_eq_some_iff.mp hx
    refine ⟨fun hsat => ?_, fun hpad => ?_⟩
    · rw [hnone.mpr hsat] at hy
      cases hy
    · obtain ⟨m, hm, hright⟩ := id hpad
      have hlt : nats (digitsOf left) < nats (digitsOf right) := by
        obtain ⟨m, rfl⟩ := Nat.exists_eq_succ_of_ne_zero (by omega : m ≠ 0)
        rw [hright]
        exact nats_lt_append _ 0 (List.replicate m 0)
      rcases y with e | ds
      · exact allocateDigitsChecked_padded seed _ _ 0 m hright e hy
      · rw [allocateDigits_of_checked seed hy] at hplain
        have hk := (hbetween _ hplain ((nats_lt_iff hl hr).mpr hlt)).2
        rw [← encodeDigits_digitsOf hr, encodeDigits_lt_iff,
          allocateDigitsChecked_right seed _ _ 0 ds hlt hy] at hk
        exact hk hpad
  · intro h
    obtain ⟨hsat, hpad⟩ := h hl hr
    obtain ⟨x, hx⟩ := Option.ne_none_iff_exists'.mp fun hn => hsat (hnone.mp hn)
    refine ⟨⟨_, by rw [hchecked, hx]; rfl⟩, fun k hk hlt => ?_⟩
    rw [hplain, allocateDigits_of_checked seed hx] at hk
    rcases x with e | ds
    · cases hk
    · cases hk
      rw [nats_lt_iff hl hr] at hlt
      constructor
      · rw [← encodeDigits_digitsOf hl, encodeDigits_lt_iff]
        exact allocateDigitsChecked_left seed _ _ 0 ds hx
      · rw [← encodeDigits_digitsOf hr, encodeDigits_lt_iff]
        exact (allocateDigitsChecked_right seed _ _ 0 ds hlt hx).mpr hpad

/-- A key that ends in `u16::MAX` on both sides overflows, and a padded right bound is missed. -/
theorem not_wellAllocated_foreign :
    ¬ WellAllocated [0xFF, 0xFF] [0xFF, 0xFF, 0, 1] [] ∧ ¬ WellAllocated [0, 1] [0, 1, 0, 0] [] := by
  constructor
  · rintro ⟨⟨x, hx⟩, -⟩
    have hnone : allocateBetweenChecked (some [0xFF, 0xFF]) (some [0xFF, 0xFF, 0, 1]) [] = none := by
      rfl
    rw [hnone] at hx
    cases hx
  · rintro ⟨-, hbetween⟩
    obtain ⟨k, hk, hnot⟩ : ∃ k, allocateBetween (some [0, 1]) (some [0, 1, 0, 0]) [] = .ok k ∧
        ¬ k.nats < Bytes.nats [0, 1, 0, 0] := ⟨_, rfl, by decide⟩
    exact hnot (hbetween k hk (by decide)).2

end OrderKey

end Treecrdt
