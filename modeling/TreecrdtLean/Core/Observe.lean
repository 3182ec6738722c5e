import TreecrdtLean.Core.Dots

/-!
# Vectors that only `observe` built

`Canonical` is the invariant of the source's comment: the ranges are sorted and apart, and start
beyond the frontier. `observe` keeps it and adds its counter to the dots, for every counter: a range
that ends at `u64::MAX` is the last one, so no `+ 1` of the loop wraps on the way. The maximum that
`get` returns bounds every dot.
-/

namespace Treecrdt

namespace ReplicaVersion

theorem toNat_succ {a : UInt64} (h : a.toNat + 1 < 2 ^ 64) :
    (a + 1).toNat = a.toNat + 1 := by
  rw [UInt64.toNat_add]
  exact Nat.mod_eq_of_lt h

private theorem toNat_pred {a : UInt64} (h : 0 < a.toNat) : (a - 1).toNat = a.toNat - 1 :=
  UInt64.toNat_sub_of_le _ _ (UInt64.le_iff_toNat_le.mpr h)

/-- Sorted ranges that start beyond `f + 1` and are apart. -/
def Chain : ℕ → List (UInt64 × UInt64) → Prop
  | _, [] => True
  | f, (s, e) :: rest => f + 1 < s.toNat ∧ s.toNat ≤ e.toNat ∧ Chain e.toNat rest

def Canonical (v : ReplicaVersion) : Prop := Chain v.frontier.toNat v.ranges

theorem Canonical.default : Canonical {} := trivial

/-- A single point in a chain; the list that `observeRange` computes by indices. -/
def insertPoint (c : UInt64) : List (UInt64 × UInt64) → List (UInt64 × UInt64)
  | [] => [(c, c)]
  | (s, e) :: rest =>
    if c < s then if c = s - 1 then (c, e) :: rest else (c, c) :: (s, e) :: rest
    else if c ≤ e then (s, e) :: rest
    else if c = e + 1 then mergeWithNext ((s, c) :: rest) 0
    else (s, e) :: insertPoint c rest

theorem Chain.mono {f g : ℕ} {rs : List (UInt64 × UInt64)} (h : Chain f rs) (hg : g ≤ f) :
    Chain g rs := by
  cases rs with
  | nil => trivial
  | cons r rs =>
    obtain ⟨h1, h2⟩ := h
    exact ⟨by omega, h2⟩

theorem Chain.start_gt {f : ℕ} {rs : List (UInt64 × UInt64)} (h : Chain f rs) :
    ∀ r ∈ rs, f + 1 < r.1.toNat ∧ r.1.toNat ≤ r.2.toNat := by
  induction rs generalizing f with
  | nil => simp
  | cons r rs ih =>
    obtain ⟨h1, h2, h3⟩ := h
    intro x hx
    rcases List.mem_cons.mp hx with rfl | hx
    · exact ⟨h1, h2⟩
    · have := ih h3 x hx
      omega

/-! ## The loop by indices -/

theorem mergeWithNext_succ (x : UInt64 × UInt64) (rs : List (UInt64 × UInt64)) (i : ℕ) :
    mergeWithNext (x :: rs) (i + 1) = x :: mergeWithNext rs i := by
  unfold mergeWithNext
  simp only [List.getElem?_cons_succ]
  split
  · split
    · rw [List.set_cons_succ, List.eraseIdx_cons_succ]
    · rfl
  · rfl

theorem observeNext_succ_succ (x : UInt64 × UInt64) (rs : List (UInt64 × UInt64)) (i : ℕ)
    (c : UInt64) : observeNext (x :: rs) (i + 2) c = x :: observeNext rs (i + 1) c := by
  unfold observeNext
  rw [List.getElem?_cons_succ]
  rcases rs[i + 1]? with _ | ⟨s, e⟩
  · rfl
  simp only
  by_cases h : c = if s = 0 then 0 else s - 1
  · rw [if_pos h, if_pos h]
    exact mergeWithNext_succ x _ i
  · rw [if_neg h, if_neg h]
    split <;> rfl

/-- A range before the next one, with which it does not merge. -/
theorem observeNext_one {s e c : UInt64} (rs : List (UInt64 × UInt64)) (h : ¬ c ≤ e + 1) :
    observeNext ((s, e) :: rs) 1 c = (s, e) :: observeNext rs 0 c := by
  unfold observeNext
  rw [List.getElem?_cons_succ]
  rcases hr : rs[0]? with _ | ⟨s', e'⟩
  · rfl
  obtain ⟨r, rest⟩ := rs
  · simp at hr
  simp only
  by_cases h' : c = if s' = 0 then 0 else s' - 1
  · rw [if_pos h', if_pos h']
    simp [mergeWithNext, h]
  · rw [if_neg h', if_neg h']
    split <;> rfl

/-- Behind a range that is neither hit nor extended the loop goes on alike. -/
theorem observeAt_succ {s e c : UInt64} (rs : List (UInt64 × UInt64)) (idx : ℕ)
    (he : ¬ c ≤ e + 1) (hc : ¬ (s ≤ c ∧ c ≤ e)) :
    observeAt ((s, e) :: rs) (idx + 1) c = (s, e) :: observeAt rs idx c := by
  have hne : c ≠ e + 1 := fun h => he (by rw [h]; exact UInt64.le_refl _)
  rcases idx with _ | k
  · simp only [observeAt, Nat.zero_add, Nat.zero_lt_one, if_true, Nat.sub_self,
      List.getElem?_cons_zero, hc, hne, if_false, Nat.lt_irrefl]
    exact observeNext_one rs he
  · simp only [observeAt, Nat.zero_lt_succ, if_true, Nat.add_sub_cancel, List.getElem?_cons_succ]
    rcases rs[k]? with _ | ⟨ps, pe⟩
    · exact observeNext_succ_succ (s, e) rs k c
    · simp only
      split
      · rfl
      · split
        · exact mergeWithNext_succ (s, e) _ k
        · exact observeNext_succ_succ (s, e) rs k c

/-- The indices of `observe` find the place of the point in the chain. -/
theorem observeRange_eq {f : ℕ} {rs : List (UInt64 × UInt64)} (h : Chain f rs) (c : UInt64) :
    observeRange rs c = insertPoint c rs := by
  induction rs generalizing f with
  | nil => rfl
  | cons r rs ih =>
    obtain ⟨s, e⟩ := r
    obtain ⟨h1, h2, h3⟩ := h
    have hs0 : s ≠ 0 := fun hz => by rw [hz] at h1; simp at h1
    have hsearch : ∀ {p : Bool}, decide (s < c) = p →
        observeRange ((s, e) :: rs) c =
          observeAt ((s, e) :: rs)
            (bif p then (rs.takeWhile fun r => decide (r.1 < c)).length + 1 else 0) c := by
      rintro p rfl
      unfold observeRange
      rw [List.takeWhile_cons]
      by_cases h : s < c <;> simp [h]
    unfold insertPoint
    by_cases hsc : c < s
    · have hge : ¬ s < c := UInt64.not_lt.mpr (UInt64.le_of_lt hsc)
      have hnot : ¬ (s ≤ c ∧ c ≤ e) := fun h => UInt64.not_lt.mpr h.1 hsc
      rw [if_pos hsc, hsearch (decide_eq_false hge)]
      simp only [cond_false, observeAt, Nat.lt_irrefl, if_false, observeNext,
        List.getElem?_cons_zero, hs0, hnot]
      split <;> rfl
    rw [if_neg hsc]
    have hsN := UInt64.lt_iff_toNat_lt.not.mp hsc
    have hcN := UInt64.toNat_lt c
    by_cases hlt : s < c
    · rw [hsearch (decide_eq_true hlt), cond_true]
      -- The ranges behind start beyond `e + 1`.
      have hbehind : c.toNat ≤ e.toNat + 1 →
          (rs.takeWhile fun r => decide (r.1 < c)) = [] := by
        intro hce
        rcases rs with _ | ⟨⟨s', e'⟩, rs⟩
        · rfl
        · obtain ⟨h3, -⟩ := h3
          rw [List.takeWhile_cons, if_neg]
          simp only [decide_eq_true_eq, UInt64.lt_iff_toNat_lt]
          omega
      by_cases hce : c ≤ e
      · have hceN := UInt64.le_iff_toNat_le.mp hce
        rw [hbehind (by omega), if_pos hce]
        simp [observeAt, hce, UInt64.not_lt.mp hsc]
      · have hceN := UInt64.le_iff_toNat_le.not.mp hce
        have hsucc := toNat_succ (a := e) (by omega)
        rw [if_neg hce]
        by_cases hadj : c = e + 1
        · rw [hbehind (by rw [hadj, hsucc]), if_pos hadj]
          simp [observeAt, hce, ← hadj]
        · have hadjN : c.toNat ≠ e.toNat + 1 := fun h => hadj (UInt64.toNat_inj.mp (h.trans hsucc.symm))
          rw [if_neg hadj, observeAt_succ rs _ ?_ fun h => hce h.2, ← ih h3]
          · rfl
          · rw [UInt64.le_iff_toNat_le, hsucc]
            omega
    · have hcs : c = s := UInt64.toNat_inj.mp (by
        have := UInt64.lt_iff_toNat_lt.not.mp hlt
        omega)
      have hce : c ≤ e := by rw [hcs, UInt64.le_iff_toNat_le]; exact h2
      have hpred : c ≠ s - 1 := fun h => by
        have := congrArg UInt64.toNat h
        rw [toNat_pred (by omega), hcs] at this
        omega
      rw [hsearch (decide_eq_false hlt), cond_false, if_pos hce]
      simp [observeAt, observeNext, hs0, hpred, hce, UInt64.not_lt.mp hsc]

/-! ## Canonical vectors -/

/-- A range that was extended by its next point merges with the range that starts there. -/
theorem Chain.merge {f : ℕ} {s e c : UInt64} {rest : List (UInt64 × UInt64)}
    (h : Chain f ((s, e) :: rest)) (hc : c.toNat = e.toNat + 1) :
    Chain f (mergeWithNext ((s, c) :: rest) 0) ∧
      ∀ d, d ∈ rangeDots (mergeWithNext ((s, c) :: rest) 0) ↔
        d ∈ rangeDots ((s, e) :: rest) ∨ d = c.toNat := by
  obtain ⟨h1, h2, h3⟩ := h
  rcases rest with _ | ⟨⟨s', e'⟩, rest⟩
  · refine ⟨⟨h1, by omega, trivial⟩, fun d => ?_⟩
    simp only [mergeWithNext, List.getElem?_cons_zero, List.getElem?_cons_succ, List.getElem?_nil,
      mem_rangeDots_cons, rangeDots_nil, Set.mem_empty_iff_false, or_false]
    omega
  obtain ⟨h3, h4, h5⟩ := h3
  have hs' := UInt64.toNat_lt s'
  have hmerge : s' ≤ c + 1 ↔ s'.toNat = c.toNat + 1 := by
    rw [UInt64.le_iff_toNat_le, toNat_succ (by omega)]
    omega
  simp only [mergeWithNext, List.getElem?_cons_zero, List.getElem?_cons_succ, hmerge]
  split_ifs with hadj
  · have hmax : (max c e').toNat = e'.toNat := by
      rw [show max c e' = if c ≤ e' then e' else c from rfl, if_pos]
      rw [UInt64.le_iff_toNat_le]
      omega
    simp only [List.set_cons_zero, List.eraseIdx_cons_succ, List.eraseIdx_cons_zero]
    refine ⟨⟨h1, by rw [hmax]; omega, by rw [hmax]; exact h5⟩, fun d => ?_⟩
    simp only [mem_rangeDots_cons, hmax]
    by_cases hd : d ∈ rangeDots rest <;> simp only [hd, or_true, or_false, true_or]
    omega
  · refine ⟨⟨h1, by omega, by omega, h4, h5⟩, fun d => ?_⟩
    simp only [mem_rangeDots_cons]
    by_cases hd : d ∈ rangeDots rest <;> simp only [hd, or_true, or_false, true_or]
    omega

theorem Chain.insertPoint {f : ℕ} {rs : List (UInt64 × UInt64)} (h : Chain f rs) {c : UInt64}
    (hc : f + 1 < c.toNat) :
    Chain f (insertPoint c rs) ∧
      ∀ d, d ∈ rangeDots (ReplicaVersion.insertPoint c rs) ↔ d ∈ rangeDots rs ∨ d = c.toNat := by
  induction rs generalizing f with
  | nil =>
    refine ⟨⟨hc, le_rfl, trivial⟩, fun d => ?_⟩
    simp only [ReplicaVersion.insertPoint, mem_rangeDots_cons, rangeDots_nil,
      Set.mem_empty_iff_false, or_false, false_or]
    omega
  | cons r rs ih =>
    obtain ⟨s, e⟩ := r
    have hchain := h
    obtain ⟨h1, h2, h3⟩ := h
    have he := UInt64.toNat_lt e
    have hcN := UInt64.toNat_lt c
    unfold ReplicaVersion.insertPoint
    simp only [UInt64.lt_iff_toNat_lt, UInt64.le_iff_toNat_le]
    split_ifs with hlt hpred hle hadj
    · have hs : c.toNat = s.toNat - 1 := by rw [hpred, toNat_pred (by omega)]
      refine ⟨⟨hc, by omega, h3⟩, fun d => ?_⟩
      simp only [mem_rangeDots_cons]
      by_cases hd : d ∈ rangeDots rs <;> simp only [hd, or_true, or_false, true_or]
      omega
    · have hs : c.toNat ≠ s.toNat - 1 := fun h =>
        hpred (UInt64.toNat_inj.mp (by rw [h, toNat_pred (by omega)]))
      refine ⟨⟨hc, le_rfl, by omega, h2, h3⟩, fun d => ?_⟩
      simp only [mem_rangeDots_cons]
      by_cases hd : d ∈ rangeDots rs <;> simp only [hd, or_true, or_false, true_or]
      omega
    · refine ⟨hchain, fun d => ?_⟩
      simp only [mem_rangeDots_cons]
      by_cases hd : d ∈ rangeDots rs <;> simp only [hd, or_true, or_false, true_or]
      omega
    · refine hchain.merge ?_
      rw [hadj, toNat_succ]
      by_contra hwrap
      have : e = 0xFFFFFFFFFFFFFFFF := UInt64.toNat_inj.mp (by
        rw [show (0xFFFFFFFFFFFFFFFF : UInt64).toNat = 2 ^ 64 - 1 from rfl]
        omega)
      rw [hadj, this] at hc
      simp at hc
    · have hne : c.toNat ≠ e.toNat + 1 := fun h =>
        hadj (UInt64.toNat_inj.mp (by rw [h, toNat_succ (by omega)]))
      obtain ⟨hch, hd⟩ := ih h3 (by omega)
      refine ⟨⟨h1, h2, hch⟩, fun d => ?_⟩
      rw [mem_rangeDots_cons, hd, mem_rangeDots_cons, or_assoc]

/-- The frontier swallows the ranges that it reaches. -/
theorem Chain.absorb {f : ℕ} {rs : List (UInt64 × UInt64)} (h : Chain f rs) {c : UInt64}
    (hc : c.toNat = f + 1) :
    Canonical (absorbFrontierRanges c rs) ∧
      ∀ d, d ∈ (absorbFrontierRanges c rs).dots ↔
        (1 ≤ d ∧ d ≤ c.toNat) ∨ d ∈ rangeDots rs := by
  rcases rs with _ | ⟨⟨s, e⟩, rs⟩
  · exact ⟨trivial, fun d => by simp [absorbFrontierRanges, mem_dots]⟩
  obtain ⟨h1, h2, h3⟩ := h
  have hs := UInt64.toNat_lt s
  have hsucc := toNat_succ (a := c) (by omega)
  unfold absorbFrontierRanges
  split_ifs with hadj
  · have hsN : s.toNat = c.toNat + 1 := by rw [hadj, hsucc]
    -- The range behind does not follow at once.
    have hstop : absorbFrontierRanges e rs = ⟨e, rs⟩ := by
      rcases rs with _ | ⟨⟨s', e'⟩, rs⟩
      · rfl
      · obtain ⟨h3, -⟩ := h3
        have hs' := UInt64.toNat_lt s'
        have hsucc' := toNat_succ (a := e) (by omega)
        rw [absorbFrontierRanges, if_neg]
        intro he
        rw [he, hsucc'] at h3
        omega
    rw [hstop]
    refine ⟨h3, fun d => ?_⟩
    rw [mem_rangeDots_cons]
    show (1 ≤ d ∧ d ≤ e.toNat) ∨ d ∈ rangeDots rs ↔ _
    by_cases hd : d ∈ rangeDots rs <;> simp only [hd, or_true, or_false]
    omega
  · have hsN : s.toNat ≠ c.toNat + 1 := fun h => hadj (UInt64.toNat_inj.mp (by rw [h, hsucc]))
    exact ⟨⟨by simp only; omega, h2, h3⟩, fun d => Iff.rfl⟩

/-- `observe` keeps the documented invariant and adds the counter, for every counter. -/
theorem Canonical.observe {v : ReplicaVersion} (h : Canonical v) (c : UInt64) :
    Canonical (v.observe c) ∧
      ∀ d, d ∈ (v.observe c).dots ↔ d ∈ v.dots ∨ (d = c.toNat ∧ 1 ≤ d) := by
  have hf := UInt64.toNat_lt v.frontier
  have hc := UInt64.toNat_lt c
  have hdots : ∀ d, d ∈ v.dots ↔ (1 ≤ d ∧ d ≤ v.frontier.toNat) ∨ d ∈ rangeDots v.ranges :=
    fun d => Iff.rfl
  unfold ReplicaVersion.observe
  simp only [UInt64.le_iff_toNat_le]
  split_ifs with h0 hle hnext
  · refine ⟨h, fun d => ?_⟩
    rw [h0, UInt64.toNat_zero]
    exact (or_iff_left (by omega)).symm
  · refine ⟨h, fun d => ?_⟩
    rw [hdots]
    by_cases hd : d ∈ rangeDots v.ranges <;> simp only [hd, or_true, or_false, true_or]
    omega
  · have hcN : c.toNat = v.frontier.toNat + 1 := by
      rw [hnext, toNat_succ (by omega)]
    obtain ⟨hcan, hd⟩ := Chain.absorb h hcN
    refine ⟨hcan, fun d => ?_⟩
    rw [hd, hdots]
    by_cases hd : d ∈ rangeDots v.ranges <;> simp only [hd, or_true, or_false, true_or]
    omega
  · have hcN : c.toNat ≠ v.frontier.toNat + 1 := fun he =>
      hnext (UInt64.toNat_inj.mp (by rw [he, toNat_succ (by omega)]))
    have h0N : c.toNat ≠ 0 := fun he => h0 (UInt64.toNat_inj.mp he)
    rw [observeRange_eq h]
    obtain ⟨hch, hd⟩ := Chain.insertPoint h (c := c) (by omega)
    refine ⟨hch, fun d => ?_⟩
    show (1 ≤ d ∧ d ≤ v.frontier.toNat) ∨ d ∈ rangeDots (insertPoint c v.ranges) ↔ _
    rw [hd, hdots]
    by_cases hd : d ∈ rangeDots v.ranges <;> simp only [hd, or_true, or_false, true_or, false_or]
    omega

/-! ## The maximum -/

theorem Chain.le_last {f : ℕ} {rs : List (UInt64 × UInt64)} (h : Chain f rs)
    {last : UInt64 × UInt64} (hl : rs.getLast? = some last) :
    ∀ d ∈ rangeDots rs, d ≤ last.2.toNat := by
  induction rs generalizing f with
  | nil => cases hl
  | cons r rs ih =>
    obtain ⟨s, e⟩ := r
    obtain ⟨-, -, h3⟩ := h
    intro d hd
    rw [mem_rangeDots_cons] at hd
    rcases rs with _ | ⟨r', rs⟩
    · cases hl
      rw [rangeDots_nil, Set.mem_empty_iff_false, or_false] at hd
      exact hd.2.2
    · have hlast : last ∈ r' :: rs := List.mem_of_getLast? hl
      have hbehind := h3.start_gt last hlast
      rcases hd with hd | hd
      · simp only at hd
        omega
      · exact ih h3 hl d hd

theorem Canonical.le_maxSeen {v : ReplicaVersion} (h : Canonical v) :
    ∀ d ∈ v.dots, d ≤ v.maxSeen.toNat := by
  intro d hd
  unfold maxSeen
  rcases hl : v.ranges.getLast? with _ | last
  · rw [List.getLast?_eq_none_iff] at hl
    rcases hd with hd | hd
    · exact hd.2
    · rw [hl, rangeDots_nil] at hd
      exact hd.elim
  · simp only [toNat_max]
    rcases hd with hd | hd
    · exact hd.2.trans (le_max_right _ _)
    · exact (Chain.le_last h hl d hd).trans (le_max_left _ _)

end ReplicaVersion

namespace VersionVector

/-- Every entry was built by `observe`. -/
def Canonical (vv : VersionVector) : Prop := ∀ r, (vv.version r).Canonical

theorem Canonical.new : Canonical new := fun _ => ReplicaVersion.Canonical.default

theorem Canonical.observe {vv : VersionVector} (h : Canonical vv) (r : ReplicaId) (c : UInt64) :
    Canonical (vv.observe r c) := by
  intro r'
  rw [VersionVector.observe, version_update]
  split
  · exact ((h r).observe c).1
  · exact h r'

theorem mem_dots_observe {vv : VersionVector} (h : Canonical vv) (r : ReplicaId) (c : UInt64)
    (d : ReplicaId × ℕ) :
    d ∈ (vv.observe r c).dots ↔ d ∈ vv.dots ∨ (d = (r, c.toNat) ∧ 1 ≤ d.2) := by
  obtain ⟨r', d⟩ := d
  rw [mem_dots, VersionVector.observe, version_update, mem_dots]
  simp only [Prod.mk.injEq]
  split_ifs with hr
  · subst hr
    rw [((h r').observe c).2]
    simp
  · simp [hr]

/-- `get` bounds every counter seen of the replica. -/
theorem Canonical.le_get {vv : VersionVector} (h : Canonical vv) {r : ReplicaId} {d : ℕ}
    (hd : (r, d) ∈ vv.dots) : d ≤ (vv.get r).toNat := by
  have hget : vv.get r = (vv.version r).maxSeen := by
    unfold get version
    cases vv.entries.lookup r <;> rfl
  rw [hget]
  exact (h r).le_maxSeen d hd

end VersionVector

end Treecrdt
