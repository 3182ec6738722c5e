import TreecrdtLean.Core.OrderKey

/-!
# Keys between two keys

`allocateBetween` returns a key strictly between its bounds whenever it returns one. It fails on
some bounds with `left < right`: once the digits of the two keys have parted, the deeper digits of
`right` play no part in the order, but the loop still compares them with those of `left`.

* `Roomy`: where a digit of `right` is below the one of `left`, there was room at an earlier place.
* `allocateBetween_spec`: the call returns a key between, of the allocator's own form, exactly if
  the bounds are `Roomy`. The seed plays no part.
-/

namespace Treecrdt

namespace OrderKey

/-- The digits of a key that the allocator makes: not empty, the last one not `0`, none of them
`u16::MAX`. -/
structure KeyDigits (ds : List UInt16) : Prop where
  last : ∃ d, ds.getLast? = some d ∧ d ≠ 0
  digit : ∀ d ∈ ds, d ≠ 0xFFFF

/-- A key of the allocator. -/
def IsKey (key : Bytes) : Prop := ∃ ds, KeyDigits ds ∧ key = encodeDigits ds

/-- Every digit of `right` that is below the digit of `left` at its place comes behind a place with
room: one where the digit of `right` is greater by two or more. -/
def Roomy (left right : List UInt16) : Prop :=
  ∀ i, right.getD i 0xFFFF < left.getD i 0 →
    ∃ j < i, (left.getD j 0).toNat + 1 < (right.getD j 0xFFFF).toNat

/-! ## The digit -/

private theorem max_toNat : (0xFFFF : UInt16).toNat = 2 ^ 16 - 1 := rfl

/-- What is added to `lo` stays within the range. -/
theorem sample_le (seed : Bytes) (depth : ℕ) {lo hi : UInt16} (h : lo.toNat ≤ hi.toNat) :
    (sampleU64 seed depth % ((hi - lo).toUInt32 + 1).toUInt64).toUInt16.toNat ≤
      hi.toNat - lo.toNat := by
  have hhi := UInt16.toNat_lt hi
  have hsub : (hi - lo).toNat = hi.toNat - lo.toNat :=
    UInt16.toNat_sub_of_le _ _ (UInt16.le_iff_toNat_le.mpr h)
  have hspan : ((hi - lo).toUInt32 + 1).toUInt64.toNat = hi.toNat - lo.toNat + 1 := by
    rw [UInt32.toNat_toUInt64, UInt32.toNat_add, UInt16.toNat_toUInt32, hsub]
    exact Nat.mod_eq_of_lt (by rw [UInt32.toNat_one]; omega)
  rw [UInt64.toNat_toUInt16, UInt64.toNat_mod, hspan]
  have := Nat.mod_lt (sampleU64 seed depth).toNat
    (show hi.toNat - lo.toNat + 1 > 0 from Nat.succ_pos _)
  exact (Nat.mod_le _ _).trans (by omega)

theorem chooseInRange_mem (seed : Bytes) (depth : ℕ) {lo hi : UInt16} (h : lo.toNat ≤ hi.toNat) :
    lo.toNat ≤ (chooseInRange seed depth lo hi).toNat ∧
      (chooseInRange seed depth lo hi).toNat ≤ hi.toNat := by
  have hhi := UInt16.toNat_lt hi
  unfold chooseInRange
  split_ifs with heq
  · exact ⟨le_refl _, h⟩
  have hn := sample_le seed depth h
  simp only
  rw [UInt16.toNat_add, Nat.mod_eq_of_lt (by omega)]
  omega

section

variable {l r : UInt16} (h : l.toNat + 1 < r.toNat)

include h

theorem diff_toNat : (r - l).toNat = r.toNat - l.toNat :=
  UInt16.toNat_sub_of_le _ _ (UInt16.le_iff_toNat_le.mpr (by omega))

theorem gap_toNat : (r - l - 1).toNat = r.toNat - l.toNat - 1 := by
  rw [UInt16.toNat_sub_of_le _ _ (UInt16.le_iff_toNat_le.mpr ?_), diff_toNat h, UInt16.toNat_one]
  rw [diff_toNat h, UInt16.toNat_one]
  omega

theorem boundary_toNat :
    (min DEFAULT_BOUNDARY (r - l - 1)).toNat = min 10 (r.toNat - l.toNat - 1) := by
  rw [show min DEFAULT_BOUNDARY (r - l - 1) =
    if DEFAULT_BOUNDARY ≤ r - l - 1 then DEFAULT_BOUNDARY else r - l - 1 from rfl]
  have h10 : DEFAULT_BOUNDARY.toNat = 10 := rfl
  split_ifs with hle <;> rw [UInt16.le_iff_toNat_le, gap_toNat h, h10] at hle <;>
    have := gap_toNat h <;> omega

end

/-- The chosen digit is between the two. -/
theorem chooseDigit_between (seed : Bytes) (depth : ℕ) {l r : UInt16}
    (h : l.toNat + 1 < r.toNat) :
    l.toNat < (chooseDigit seed depth l r).toNat ∧
      (chooseDigit seed depth l r).toNat < r.toNat := by
  have hr' := UInt16.toNat_lt r
  have hgap := gap_toNat h
  have hbound := boundary_toNat h
  have hlow : (l + 1).toNat = l.toNat + 1 := by
    rw [UInt16.toNat_add]
    exact Nat.mod_eq_of_lt (by rw [UInt16.toNat_one]; omega)
  have hhigh : (r - 1).toNat = r.toNat - 1 :=
    UInt16.toNat_sub_of_le _ _ (UInt16.le_iff_toNat_le.mpr (by rw [UInt16.toNat_one]; omega))
  -- Whatever side is chosen, the range is within `l + 1` and `r - 1`.
  have hrange : ∀ lo hi : UInt16, l.toNat + 1 ≤ lo.toNat → lo.toNat ≤ hi.toNat →
      hi.toNat ≤ r.toNat - 1 → l.toNat < (chooseInRange seed depth lo hi).toNat ∧
        (chooseInRange seed depth lo hi).toNat < r.toNat := fun lo hi h1 h2 h3 => by
    have := chooseInRange_mem seed depth h2
    omega
  unfold chooseDigit
  simp only [gt_iff_lt, UInt16.lt_iff_toNat_lt, hbound, hgap]
  split_ifs with hroom hside
  · have hhi : (l + min DEFAULT_BOUNDARY (r - l - 1)).toNat =
        l.toNat + min 10 (r.toNat - l.toNat - 1) := by
      rw [UInt16.toNat_add, hbound]
      exact Nat.mod_eq_of_lt (by omega)
    exact hrange _ _ hlow.ge (by rw [hlow, hhi]; omega) (by rw [hhi]; omega)
  · have hlo : (r - min DEFAULT_BOUNDARY (r - l - 1)).toNat =
        r.toNat - min 10 (r.toNat - l.toNat - 1) := by
      rw [UInt16.toNat_sub_of_le _ _ (UInt16.le_iff_toNat_le.mpr (by rw [hbound]; omega)), hbound]
    exact hrange _ _ (by rw [hlo]; omega) (by rw [hlo, hhigh]; omega) hhigh.le
  · exact hrange _ _ hlow.ge (by rw [hlow, hhigh]; omega) hhigh.le

/-! ## The loop -/

theorem digitPairs_nil_nil : digitPairs [] [] = [] := rfl

theorem digitPairs_cons_nil (a : UInt16) (as : List UInt16) :
    digitPairs (a :: as) [] = (a, 0xFFFF) :: digitPairs as [] := by
  simp [digitPairs, List.range_succ_eq_map]

theorem digitPairs_nil_cons (b : UInt16) (bs : List UInt16) :
    digitPairs [] (b :: bs) = (0, b) :: digitPairs [] bs := by
  simp [digitPairs, List.range_succ_eq_map]

theorem digitPairs_cons_cons (a b : UInt16) (as bs : List UInt16) :
    digitPairs (a :: as) (b :: bs) = (a, b) :: digitPairs as bs := by
  simp [digitPairs, List.range_succ_eq_map, Nat.add_max_add_right]

/-- Digit by digit along both keys, until both have ended. -/
theorem digits_induction {motive : List UInt16 → List UInt16 → Prop} (nil : motive [] [])
    (cons_nil : ∀ a as, motive as [] → motive (a :: as) [])
    (nil_cons : ∀ b bs, motive [] bs → motive [] (b :: bs))
    (cons_cons : ∀ a as b bs, motive as bs → motive (a :: as) (b :: bs)) :
    ∀ left right, motive left right
  | [], [] => nil
  | a :: as, [] => cons_nil a as (digits_induction nil cons_nil nil_cons cons_cons as [])
  | [], b :: bs => nil_cons b bs (digits_induction nil cons_nil nil_cons cons_cons [] bs)
  | a :: as, b :: bs =>
    cons_cons a as b bs (digits_induction nil cons_nil nil_cons cons_cons as bs)

theorem succ_toNat {d : UInt16} (h : d ≠ 0xFFFF) : (d + 1).toNat = d.toNat + 1 := by
  have hd := UInt16.toNat_lt d
  have hne : d.toNat ≠ 2 ^ 16 - 1 := fun he => h (UInt16.toNat_inj.mp he)
  rw [UInt16.toNat_add]
  exact Nat.mod_eq_of_lt (by rw [UInt16.toNat_one]; omega)

/-- What one turn of the loop can do. -/
theorem allocateDigits_cons (seed : Bytes) (depth : ℕ) {l r : UInt16}
    (rest : List (UInt16 × UInt16)) (hl : l ≠ 0xFFFF) :
    (r.toNat < l.toNat ∧ ∃ e, allocateDigits seed depth ((l, r) :: rest) = .error e) ∨
    (∃ x, l.toNat < x.toNat ∧ x.toNat < r.toNat ∧
      allocateDigits seed depth ((l, r) :: rest) = .ok [x]) ∨
    (l.toNat ≤ r.toNat ∧ r.toNat ≤ l.toNat + 1 ∧
      allocateDigits seed depth ((l, r) :: rest) =
        (allocateDigits seed (depth + 1) rest).map (l :: ·)) := by
  rw [allocateDigits]
  simp only [gt_iff_lt, UInt16.lt_iff_toNat_lt, succ_toNat hl]
  split_ifs with hlt hroom
  · exact Or.inl ⟨hlt, _, rfl⟩
  · obtain ⟨h1, h2⟩ := chooseDigit_between seed depth hroom
    exact Or.inr (Or.inl ⟨_, h1, h2, rfl⟩)
  · refine Or.inr (Or.inr ⟨by omega, by omega, ?_⟩)
    cases allocateDigits seed (depth + 1) rest <;> rfl

/-- A digit list as numbers, which compare as the keys do. -/
def nats (ds : List UInt16) : List ℕ := ds.map UInt16.toNat

theorem zero_ne_max : (0 : UInt16) ≠ 0xFFFF := by decide

/-- A digit between two others makes a key. -/
theorem KeyDigits.single {l x r : UInt16} (h1 : l.toNat < x.toNat) (h2 : x.toNat < r.toNat) :
    KeyDigits [x] := by
  refine ⟨⟨x, rfl, ?_⟩, ?_⟩
  · rintro rfl
    exact absurd h1 (Nat.not_lt_zero _)
  · intro d hd
    rw [List.mem_singleton.mp hd]
    rintro rfl
    have := UInt16.toNat_lt r
    rw [max_toNat] at h2
    omega

theorem KeyDigits.cons {d : UInt16} {ds : List UInt16} (hd : d ≠ 0xFFFF) (h : KeyDigits ds) :
    KeyDigits (d :: ds) := by
  obtain ⟨⟨last, hlast, hne⟩, hds⟩ := h
  refine ⟨⟨last, by rw [List.getLast?_cons, hlast]; rfl, hne⟩, ?_⟩
  simpa [hd] using hds

section

variable {seed : Bytes} {depth : ℕ} {ld rd : UInt16} {rest : List (UInt16 × UInt16)}
  {ds tail : List UInt16}

/-- One turn keeps the digits beyond those of `left`, whichever of the keys has ended. -/
private theorem left_turn (hld : ld ≠ 0xFFFF)
    (ih : ∀ ds', allocateDigits seed (depth + 1) rest = .ok ds' →
      nats tail < nats ds' ∧ KeyDigits ds')
    (h : allocateDigits seed depth ((ld, rd) :: rest) = .ok ds) :
    nats (ld :: tail) < nats ds ∧ KeyDigits ds := by
  rcases allocateDigits_cons seed depth rest hld (r := rd) with
    ⟨-, e, he⟩ | ⟨x, h1, h2, hx⟩ | ⟨-, -, hgo⟩
  · rw [he] at h
    cases h
  · rw [hx] at h
    cases h
    exact ⟨List.cons_lt_cons_iff.mpr (Or.inl h1), .single h1 h2⟩
  · rw [hgo] at h
    rcases hr : allocateDigits seed (depth + 1) rest with e | ds' <;> rw [hr] at h <;> cases h
    obtain ⟨hlt, hkey⟩ := ih ds' hr
    exact ⟨List.cons_lt_cons_iff.mpr (Or.inr ⟨rfl, hlt⟩), .cons hld hkey⟩

/-- One turn keeps the digits before those of `right`: they have parted, or go on alike. -/
private theorem right_turn (hld : ld ≠ 0xFFFF)
    (ih : ld = rd → ∀ ds', allocateDigits seed (depth + 1) rest = .ok ds' → nats ds' < nats tail)
    (h : allocateDigits seed depth ((ld, rd) :: rest) = .ok ds) : nats ds < nats (rd :: tail) := by
  rcases allocateDigits_cons seed depth rest hld (r := rd) with
    ⟨-, e, he⟩ | ⟨x, h1, h2, hx⟩ | ⟨hle, -, hgo⟩
  · rw [he] at h
    cases h
  · rw [hx] at h
    cases h
    exact List.cons_lt_cons_iff.mpr (Or.inl h2)
  · rw [hgo] at h
    rcases hr : allocateDigits seed (depth + 1) rest with e | ds' <;> rw [hr] at h <;> cases h
    rcases Nat.lt_or_eq_of_le hle with hlt | heq
    · exact List.cons_lt_cons_iff.mpr (Or.inl hlt)
    · exact List.cons_lt_cons_iff.mpr (Or.inr ⟨heq, ih (UInt16.toNat_inj.mp heq) ds' hr⟩)

/-- One turn fails, ends, or leaves it to the others. -/
private theorem ok_turn (hld : ld ≠ 0xFFFF) :
    (∃ ds, allocateDigits seed depth ((ld, rd) :: rest) = .ok ds) ↔
      ¬ rd < ld ∧ (ld.toNat + 1 < rd.toNat ∨
        ∃ ds, allocateDigits seed (depth + 1) rest = .ok ds) := by
  rw [UInt16.lt_iff_toNat_lt]
  rcases allocateDigits_cons seed depth rest hld (r := rd) with
    ⟨hlt, e, he⟩ | ⟨x, h1, h2, hx⟩ | ⟨hle, hge, hgo⟩
  · simp [he, hlt]
  · refine iff_of_true ⟨_, hx⟩ ⟨by omega, Or.inl (by omega)⟩
  · rw [hgo, and_iff_right (by omega), or_iff_right (by omega)]
    rcases allocateDigits seed (depth + 1) rest with e | ds'
    · simp [Except.map]
    · exact iff_of_true ⟨_, rfl⟩ ⟨_, rfl⟩

end

/-- The digits are beyond those of `left`, and again the digits of a key. -/
theorem allocateDigits_left (seed : Bytes) (left right : List UInt16) :
    ∀ depth ds, (∀ d ∈ left, d ≠ 0xFFFF) →
      allocateDigits seed depth (digitPairs left right) = .ok ds →
        nats left < nats ds ∧ KeyDigits ds := by
  induction left, right using digits_induction with
  | nil =>
    intro depth ds _ h
    rw [digitPairs_nil_nil] at h
    cases h
    obtain ⟨h1, h2⟩ := chooseDigit_between seed depth (l := 0) (r := 0xFFFF) (by decide)
    exact ⟨List.nil_lt_cons _ _, .single h1 h2⟩
  | cons_nil a as ih =>
    intro depth ds hd h
    rw [digitPairs_cons_nil] at h
    exact left_turn (hd a (by simp)) (fun ds' => ih _ _ fun d hm => hd d (by simp [hm])) h
  | nil_cons b bs ih =>
    intro depth ds hd h
    rw [digitPairs_nil_cons] at h
    obtain ⟨hlt, hkey⟩ := left_turn zero_ne_max (fun ds' => ih _ _ hd) h
    exact ⟨(List.nil_lt_cons _ _).trans hlt, hkey⟩
  | cons_cons a as b bs ih =>
    intro depth ds hd h
    rw [digitPairs_cons_cons] at h
    exact left_turn (hd a (by simp)) (fun ds' => ih _ _ fun d hm => hd d (by simp [hm])) h

/-- The digits are before those of `right`. -/
theorem allocateDigits_right (seed : Bytes) (left right : List UInt16) :
    ∀ depth ds, (∀ d ∈ left, d ≠ 0xFFFF) → (∃ d, right.getLast? = some d ∧ d ≠ 0) →
      nats left < nats right → allocateDigits seed depth (digitPairs left right) = .ok ds →
        nats ds < nats right := by
  -- The last digit of a longer key is the last digit behind the first one.
  have hlast : ∀ {b : UInt16} {bs : List UInt16}, bs ≠ [] →
      (∃ d, (b :: bs).getLast? = some d ∧ d ≠ 0) → ∃ d, bs.getLast? = some d ∧ d ≠ 0 := by
    rintro b bs hne ⟨d, hd, h0⟩
    exact ⟨d, by rwa [List.getLast?_cons_of_ne_nil hne] at hd, h0⟩
  induction left, right using digits_induction with
  | nil => exact fun _ _ _ _ hlt => absurd hlt (lt_irrefl _)
  | cons_nil a as ih => exact fun _ _ _ _ hlt => absurd hlt (by simp [nats])
  | nil_cons b bs ih =>
    intro depth ds hd hb _ h
    rw [digitPairs_nil_cons] at h
    refine right_turn zero_ne_max (fun h0 ds' h' => ?_) h
    have hne : bs ≠ [] := by
      rintro rfl
      obtain ⟨d, hd, hd0⟩ := hb
      cases hd
      exact hd0 h0.symm
    obtain ⟨c, cs, rfl⟩ := List.exists_cons_of_ne_nil hne
    exact ih _ _ hd (hlast hne hb) (List.nil_lt_cons _ _) h'
  | cons_cons a as b bs ih =>
    intro depth ds hd hb hlt h
    rw [digitPairs_cons_cons] at h
    refine right_turn (hd a (by simp)) (fun hab ds' h' => ?_) h
    have hlt' : nats as < nats bs := by
      rcases List.cons_lt_cons_iff.mp hlt with hlt | ⟨-, hlt⟩
      · exact absurd hlt (by rw [hab]; exact lt_irrefl _)
      · exact hlt
    have hne : bs ≠ [] := by
      rintro rfl
      exact absurd hlt' (by simp [nats])
    exact ih _ _ (fun d hm => hd d (by simp [hm])) (hlast hne hb) hlt' h'

/-! ## Room -/

theorem roomy_step (l r : ℕ → UInt16) :
    (∀ i, r i < l i → ∃ j < i, (l j).toNat + 1 < (r j).toNat) ↔
      ¬ r 0 < l 0 ∧ ((l 0).toNat + 1 < (r 0).toNat ∨
        ∀ i, r (i + 1) < l (i + 1) → ∃ j < i, (l (j + 1)).toNat + 1 < (r (j + 1)).toNat) := by
  constructor
  · intro h
    refine ⟨fun h0 => ?_, or_iff_not_imp_left.mpr fun hroom i hi => ?_⟩
    · obtain ⟨j, hj, -⟩ := h 0 h0
      omega
    · obtain ⟨j, hj, hjr⟩ := h (i + 1) hi
      rcases j with _ | j
      · exact absurd hjr hroom
      · exact ⟨j, by omega, hjr⟩
  · rintro ⟨h0, hrest⟩ i hi
    rcases i with _ | i
    · exact absurd hi h0
    rcases hrest with hroom | hrest
    · exact ⟨0, by omega, hroom⟩
    · obtain ⟨j, hj, hjr⟩ := hrest i hi
      exact ⟨j + 1, by omega, hjr⟩

/-- The loop finds a place exactly if there is room. -/
theorem allocateDigits_ok_iff (seed : Bytes) (left right : List UInt16) :
    ∀ depth, (∀ d ∈ left, d ≠ 0xFFFF) →
      ((∃ ds, allocateDigits seed depth (digitPairs left right) = .ok ds) ↔ Roomy left right) := by
  unfold Roomy
  induction left, right using digits_induction with
  | nil =>
    refine fun depth _ => iff_of_true ⟨_, rfl⟩ fun i hi => ?_
    simp only [List.getD_nil] at hi
    exact absurd hi (by decide)
  | cons_nil a as ih =>
    intro depth hd
    rw [digitPairs_cons_nil, ok_turn (hd a (by simp)), ih _ fun d hm => hd d (by simp [hm]),
      roomy_step (fun i => (a :: as).getD i 0) fun i => List.getD [] i 0xFFFF]
    simp
  | nil_cons b bs ih =>
    intro depth hd
    rw [digitPairs_nil_cons, ok_turn zero_ne_max, ih _ hd,
      roomy_step (fun i => List.getD [] i 0) fun i => (b :: bs).getD i 0xFFFF]
    simp
  | cons_cons a as b bs ih =>
    intro depth hd
    rw [digitPairs_cons_cons, ok_turn (hd a (by simp)), ih _ fun d hm => hd d (by simp [hm]),
      roomy_step (fun i => (a :: as).getD i 0) fun i => (b :: bs).getD i 0xFFFF]
    simp

/-! ## Bytes -/

theorem encodeDigits_cons (d : UInt16) (ds : List UInt16) :
    encodeDigits (d :: ds) =
      UInt8.ofNat (d.toNat / 256) :: UInt8.ofNat d.toNat :: encodeDigits ds := by
  simp [encodeDigits, beBytes]

/-- Keys compare as their digits. -/
theorem encodeDigits_lt_iff (as bs : List UInt16) :
    (encodeDigits as).nats < (encodeDigits bs).nats ↔ nats as < nats bs := by
  induction as, bs using digits_induction with
  | nil => simp [encodeDigits, nats, Bytes.nats]
  | cons_nil a as _ => simp [nats, Bytes.nats, encodeDigits]
  | nil_cons b bs _ =>
    rw [encodeDigits_cons]
    exact iff_of_true (List.nil_lt_cons _ _) (List.nil_lt_cons _ _)
  | cons_cons a as b bs ih =>
    have ha := UInt16.toNat_lt a
    have hb := UInt16.toNat_lt b
    simp only [Bytes.nats, nats] at ih
    simp only [encodeDigits_cons, nats, Bytes.nats, List.map_cons, List.cons_lt_cons_iff, ih,
      UInt8.toNat_ofNat']
    by_cases hlt : as.map UInt16.toNat < bs.map UInt16.toNat <;>
      simp only [hlt, and_true, and_false, or_false] <;> omega

theorem digitsOf_encodeDigits (ds : List UInt16) : digitsOf (encodeDigits ds) = ds := by
  induction ds with
  | nil => rfl
  | cons d ds ih =>
    have hd := UInt16.toNat_lt d
    rw [encodeDigits_cons, digitsOf, ih]
    congr 1
    apply UInt16.toNat_inj.mp
    simp only [UInt16.toNat_add, UInt16.toNat_mul, UInt16.toNat_ofNat', UInt8.toNat_ofNat',
      show (256 : UInt16).toNat = 256 from rfl]
    omega

theorem decodeDigits_encodeDigits (ds : List UInt16) :
    decodeDigits (encodeDigits ds) = .ok ds := by
  have hlen : (encodeDigits ds).length = 2 * ds.length := by
    induction ds with
    | nil => rfl
    | cons d ds ih =>
      rw [encodeDigits_cons, List.length_cons, List.length_cons, ih, List.length_cons]
      omega
  rw [decodeDigits, if_neg (by omega), digitsOf_encodeDigits]

/-- **Order-key allocation.** With bounds that are absent or keys of the allocator, in order, the
call returns a key of the allocator strictly between them exactly if they are roomy; otherwise it
fails. -/
theorem allocateBetween_spec {left right : Option Bytes} (hl : ∀ k ∈ left, IsKey k)
    (hr : ∀ k ∈ right, IsKey k) (hlt : ∀ l ∈ left, ∀ r ∈ right, l.nats < r.nats) (seed : Bytes) :
    (∃ k, allocateBetween left right seed = .ok k ∧ IsKey k ∧
      (∀ l ∈ left, l.nats < k.nats) ∧ ∀ r ∈ right, k.nats < r.nats) ↔
      Roomy (digitsOf (left.getD [])) (digitsOf (right.getD [])) := by
  -- An absent bound is the key without digits.
  have hdigits : ∀ {key : Option Bytes}, (∀ k ∈ key, IsKey k) →
      ∃ ds, key.getD [] = encodeDigits ds ∧ (∀ k ∈ key, KeyDigits ds) ∧
        ∀ d ∈ ds, d ≠ 0xFFFF := by
    intro key hk
    rcases key with _ | k
    · exact ⟨[], rfl, by simp, by simp⟩
    · obtain ⟨ds, hds, rfl⟩ := hk k rfl
      exact ⟨ds, rfl, fun _ _ => hds, hds.digit⟩
  obtain ⟨ls, hls, -, hlmax⟩ := hdigits hl
  obtain ⟨rs, hrs, hrkey, -⟩ := hdigits hr
  have hcall : allocateBetween left right seed =
      (allocateDigits seed 0 (digitPairs ls rs)).map encodeDigits := by
    unfold allocateBetween
    rw [hls, hrs, decodeDigits_encodeDigits, decodeDigits_encodeDigits]
    cases h : allocateDigits seed 0 (digitPairs ls rs) <;> simp [Bind.bind, Except.bind, h] <;> rfl
  rw [hls, hrs, digitsOf_encodeDigits, digitsOf_encodeDigits,
    ← allocateDigits_ok_iff seed ls rs 0 hlmax, hcall]
  constructor
  · rintro ⟨k, hk, -⟩
    rcases h : allocateDigits seed 0 (digitPairs ls rs) with e | ds
    · rw [h] at hk
      cases hk
    · exact ⟨ds, rfl⟩
  · rintro ⟨ds, h⟩
    obtain ⟨hleft, hkey⟩ := allocateDigits_left seed ls rs 0 ds hlmax h
    refine ⟨encodeDigits ds, by rw [h]; rfl, ⟨ds, hkey, rfl⟩, fun l hlm => ?_, fun r hrm => ?_⟩
    · have : l = encodeDigits ls := by rw [← hls, Option.mem_def.mp hlm]; rfl
      rw [this, encodeDigits_lt_iff]
      exact hleft
    · have hrr : r = encodeDigits rs := by rw [← hrs, Option.mem_def.mp hrm]; rfl
      have horder : nats ls < nats rs := by
        rcases left with _ | l
        · have : ls = [] := by
            rw [← digitsOf_encodeDigits ls, ← hls]
            rfl
          rw [this]
          obtain ⟨d, hd, -⟩ := (hrkey r hrm).last
          obtain ⟨c, cs, rfl⟩ : ∃ c cs, rs = c :: cs :=
            List.exists_cons_of_ne_nil (by rintro rfl; cases hd)
          exact List.nil_lt_cons _ _
        · have := hlt l rfl r hrm
          rw [hrr, show l = encodeDigits ls from hls, encodeDigits_lt_iff] at this
          exact this
      rw [hrr, encodeDigits_lt_iff]
      exact allocateDigits_right seed ls rs 0 ds hlmax (hrkey r hrm).last horder h

/-- Room at the first digit. -/
theorem allocateBetween_spec_room :
    ∃ k, allocateBetween (some [0, 1]) (some [0, 3]) [] = .ok k ∧ IsKey k ∧
      (∀ l ∈ some [0, 1], Bytes.nats l < k.nats) ∧ ∀ r ∈ some [0, 3], k.nats < Bytes.nats r := by
  refine (@allocateBetween_spec (some [0, 1]) (some [0, 3]) ?_ ?_ ?_ []).mpr ?_
  · rintro k ⟨⟩
    exact ⟨[1], ⟨⟨1, rfl, by decide⟩, by simp⟩, rfl⟩
  · rintro k ⟨⟩
    exact ⟨[3], ⟨⟨3, rfl, by decide⟩, by simp⟩, rfl⟩
  · rintro l ⟨⟩ r ⟨⟩
    decide
  · rintro (_ | i) hi
    · exact absurd hi (by decide)
    · exact absurd (show (0xFFFF : UInt16) < 0 from hi) (by decide)

/-- The keys `[1, 5]` and `[2, 3]` part at their first digits without room, and then `3 < 5`. -/
theorem allocateBetween_stuck :
    IsKey [0, 1, 0, 5] ∧ IsKey [0, 2, 0, 3] ∧
      Bytes.nats [0, 1, 0, 5] < Bytes.nats [0, 2, 0, 3] ∧
      allocateBetween (some [0, 1, 0, 5]) (some [0, 2, 0, 3]) [] =
        .error (.invalidOperation "cannot allocate order_key: right < left") :=
  ⟨⟨[1, 5], ⟨⟨5, rfl, by decide⟩, by simp⟩, rfl⟩,
    ⟨[2, 3], ⟨⟨3, rfl, by decide⟩, by simp⟩, rfl⟩, by decide, rfl⟩

end OrderKey

end Treecrdt
