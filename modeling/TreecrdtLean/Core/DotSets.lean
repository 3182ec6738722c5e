import Mathlib.Order.Bounds.Basic
import TreecrdtLean.Core.Observe

/-!
# A version vector is its set of dots

A vector that observes and merges have built stands for the dots that were observed (`Built`). While
no counter is `u64::MAX`, the form that merges leave is the canonical one, and a canonical version
is determined by its dots (`Canonical.eq_of_dots`): its frontier is the last counter up to which
nothing is missing, the next range starts where the next dot is, and so on.
-/

namespace Treecrdt

namespace ReplicaVersion

/-! ## Canonical and normal versions -/

/-- No counter is `u64::MAX`. -/
def Bounded (v : ReplicaVersion) : Prop := ∀ c ∈ v.dots, c + 1 < 2 ^ 64

theorem Chain.valid {f : ℕ} {rs : List (UInt64 × UInt64)} (h : Chain f rs) :
    ∀ r ∈ rs, ValidRange r := by
  intro r hr
  have := h.start_gt r hr
  exact ⟨by omega, this.2⟩

theorem Chain.pairwise {f : ℕ} {rs : List (UInt64 × UInt64)} (h : Chain f rs) :
    rs.Pairwise Apart := by
  induction rs generalizing f with
  | nil => exact List.Pairwise.nil
  | cons r rs ih =>
    obtain ⟨-, hse, hrest⟩ := h
    refine List.pairwise_cons.mpr ⟨fun x hx => ?_, ih hrest⟩
    have := hrest.start_gt x hx
    exact ⟨by omega, Or.inl this.1⟩

theorem Canonical.normal {v : ReplicaVersion} (h : Canonical v) : Normal v where
  valid := Chain.valid h
  apart := Chain.pairwise h
  beyond r hr := Or.inl (Chain.start_gt h r hr).1

/-- Ranges that are apart form a chain, if none ends at `u64::MAX`. -/
theorem chain_of_apart {f : ℕ} {rs : List (UInt64 × UInt64)} (hvalid : ∀ r ∈ rs, ValidRange r)
    (hapart : rs.Pairwise Apart) (hend : ∀ r ∈ rs, r.2.toNat + 1 < 2 ^ 64)
    (hbeyond : ∀ r ∈ rs, f + 1 < r.1.toNat) : Chain f rs := by
  induction rs generalizing f with
  | nil => trivial
  | cons r rs ih =>
    rw [List.forall_mem_cons] at hvalid hend hbeyond
    obtain ⟨hhead, htail⟩ := List.pairwise_cons.mp hapart
    refine ⟨hbeyond.1, hvalid.1.2, ih hvalid.2 htail hend.2 fun x hx => ?_⟩
    obtain ⟨-, hgap | hmax⟩ := hhead x hx
    · exact hgap
    · exact absurd hmax (by omega)

theorem Normal.canonical {v : ReplicaVersion} (h : Normal v) (hb : Bounded v) : Canonical v := by
  have hend : ∀ r ∈ v.ranges, r.2.toNat + 1 < 2 ^ 64 := fun r hr =>
    hb _ (mem_dots.mpr (Or.inr ⟨r, hr, (h.valid r hr).1, (h.valid r hr).2, le_refl _⟩))
  have hfrontier : v.frontier.toNat + 1 < 2 ^ 64 := by
    by_cases h0 : v.frontier.toNat = 0
    · omega
    · exact hb _ (mem_dots.mpr (Or.inl ⟨by omega, le_refl _⟩))
  refine chain_of_apart h.valid h.apart hend fun r hr => ?_
  obtain hgap | hmax := h.beyond r hr
  · exact hgap
  · exact absurd hmax (by omega)

/-! ## What the dots determine -/

/-- Nothing is missing up to the frontier, and the counter behind it is. -/
theorem Canonical.frontier_isGreatest {v : ReplicaVersion} (h : Canonical v) :
    IsGreatest {f | ∀ c, 1 ≤ c → c ≤ f → c ∈ v.dots} v.frontier.toNat := by
  refine ⟨fun c h1 hc => mem_dots.mpr (Or.inl ⟨h1, hc⟩), fun f hf => ?_⟩
  by_contra hlt
  obtain hin | ⟨r, hr, -, hstart, -⟩ := mem_dots.mp (hf (v.frontier.toNat + 1) (by omega) (by omega))
  · omega
  · have := Chain.start_gt h r hr
    omega

/-- The first dot of a chain is the start of its first range. -/
theorem Chain.start_le {f : ℕ} {r : UInt64 × UInt64} {rs : List (UInt64 × UInt64)}
    (h : Chain f (r :: rs)) : ∀ c ∈ rangeDots (r :: rs), r.1.toNat ≤ c := by
  intro c hc
  obtain ⟨-, hse, hrest⟩ := h
  obtain ⟨-, hrc, -⟩ | ⟨x, hx, -, hxc, -⟩ := mem_rangeDots_cons.mp hc
  · exact hrc
  · have := hrest.start_gt x hx
    omega

/-- The dots behind the first range start after a gap. -/
theorem Chain.rest_gt {f : ℕ} {r : UInt64 × UInt64} {rs : List (UInt64 × UInt64)}
    (h : Chain f (r :: rs)) : ∀ c ∈ rangeDots rs, r.2.toNat + 1 < c := by
  rintro c ⟨x, hx, -, hxc, -⟩
  have := h.2.2.start_gt x hx
  omega

theorem Chain.eq_of_dots {f : ℕ} {rs ts : List (UInt64 × UInt64)} (h : Chain f rs)
    (h' : Chain f ts) (hdots : rangeDots rs = rangeDots ts) : rs = ts := by
  induction rs generalizing f ts with
  | nil =>
    cases ts with
    | nil => rfl
    | cons t ts =>
      have hmem : t.1.toNat ∈ rangeDots (t :: ts) := mem_rangeDots_cons.mpr
        (Or.inl ⟨(Chain.valid h' t List.mem_cons_self).1, le_refl _, h'.2.1⟩)
      rw [← hdots] at hmem
      exact absurd hmem (by simp)
  | cons r rs ih =>
    cases ts with
    | nil =>
      have hmem : r.1.toNat ∈ rangeDots (r :: rs) := mem_rangeDots_cons.mpr
        (Or.inl ⟨(Chain.valid h r List.mem_cons_self).1, le_refl _, h.2.1⟩)
      rw [hdots] at hmem
      exact absurd hmem (by simp)
    | cons t ts =>
      have hr := Chain.valid h r List.mem_cons_self
      have ht := Chain.valid h' t List.mem_cons_self
      have hiff : ∀ c, c ∈ rangeDots (r :: rs) ↔ c ∈ rangeDots (t :: ts) := fun c => by rw [hdots]
      have hin : ∀ c, r.1.toNat ≤ c → c ≤ r.2.toNat → c ∈ rangeDots (t :: ts) := fun c h1 h2 =>
        (hiff c).mp (mem_rangeDots_cons.mpr (Or.inl ⟨hr.1, h1, h2⟩))
      have hin' : ∀ c, t.1.toNat ≤ c → c ≤ t.2.toNat → c ∈ rangeDots (r :: rs) := fun c h1 h2 =>
        (hiff c).mpr (mem_rangeDots_cons.mpr (Or.inl ⟨ht.1, h1, h2⟩))
      have hstart : r.1.toNat = t.1.toNat := le_antisymm
        (h.start_le _ (hin' _ (le_refl _) ht.2)) (h'.start_le _ (hin _ (le_refl _) hr.2))
      -- A range cannot go on where the other one has its gap.
      have hend : r.2.toNat = t.2.toNat := by
        by_contra hne
        rcases Nat.lt_or_gt_of_ne hne with hlt | hlt
        · obtain ⟨-, -, hle⟩ | hrest := mem_rangeDots_cons.mp
            (hin' (r.2.toNat + 1) (by have := hr.2; omega) (by omega))
          · omega
          · exact absurd (h.rest_gt _ hrest) (by omega)
        · obtain ⟨-, -, hle⟩ | hrest := mem_rangeDots_cons.mp
            (hin (t.2.toNat + 1) (by have := ht.2; omega) (by omega))
          · omega
          · exact absurd (h'.rest_gt _ hrest) (by omega)
      obtain rfl : r = t := Prod.ext (UInt64.toNat_inj.mp hstart) (UInt64.toNat_inj.mp hend)
      have hrest : rangeDots rs = rangeDots ts := by
        ext c
        have hc := hiff c
        rw [mem_rangeDots_cons, mem_rangeDots_cons] at hc
        constructor
        · intro hmem
          have := h.rest_gt c hmem
          exact (hc.mp (Or.inr hmem)).resolve_left fun hle => by omega
        · intro hmem
          have := h'.rest_gt c hmem
          exact (hc.mpr (Or.inr hmem)).resolve_left fun hle => by omega
      rw [ih h.2.2 h'.2.2 hrest]

/-- The ranges hold the dots beyond the frontier. -/
theorem Canonical.mem_ranges {v : ReplicaVersion} (h : Canonical v) {c : ℕ} :
    c ∈ rangeDots v.ranges ↔ c ∈ v.dots ∧ v.frontier.toNat < c := by
  constructor
  · intro hc
    refine ⟨Or.inr hc, ?_⟩
    obtain ⟨r, hr, -, hrc, -⟩ := hc
    have := Chain.start_gt h r hr
    omega
  · rintro ⟨hc | hc, hlt⟩
    · exact absurd hc.2 (by omega)
    · exact hc

theorem Canonical.eq_of_dots {v w : ReplicaVersion} (hv : Canonical v) (hw : Canonical w)
    (h : v.dots = w.dots) : v = w := by
  have hfrontier : v.frontier = w.frontier := by
    refine UInt64.toNat_inj.mp (hv.frontier_isGreatest.unique ?_)
    rw [h]
    exact hw.frontier_isGreatest
  have hranges : v.ranges = w.ranges := by
    refine Chain.eq_of_dots hv (hfrontier ▸ hw) ?_
    ext c
    rw [hv.mem_ranges, hw.mem_ranges, h, hfrontier]
  cases v
  cases w
  simp_all

/-- `max_seen` is the greatest dot, or 0 where there is none. -/
theorem Canonical.maxSeen_isGreatest {v : ReplicaVersion} (h : Canonical v) :
    IsGreatest (insert 0 v.dots) v.maxSeen.toNat := by
  refine ⟨?_, fun c hc => ?_⟩
  · unfold maxSeen
    rcases hl : v.ranges.getLast? with _ | last
    · by_cases h0 : v.frontier.toNat = 0
      · exact Or.inl h0
      · exact Or.inr (mem_dots.mpr (Or.inl ⟨Nat.pos_of_ne_zero h0, le_refl _⟩))
    · have hmem := List.mem_of_getLast? hl
      obtain ⟨hgt, hle⟩ := Chain.start_gt h last hmem
      simp only [toNat_max]
      rw [max_eq_left (by omega)]
      exact Or.inr (mem_dots.mpr (Or.inr ⟨last, hmem, by omega, hle, le_refl _⟩))
  · obtain rfl | hc := hc
    · exact Nat.zero_le _
    · exact h.le_maxSeen c hc

end ReplicaVersion

namespace VersionVector

/-- `entries.get(replica).frontier`, or 0. -/
def frontier (vv : VersionVector) (replica : ReplicaId) : UInt64 :=
  ((vv.entries.lookup replica).map ReplicaVersion.frontier).getD 0

/-- `==` of the maps: every replica has the same entry. -/
def eq (vv other : VersionVector) : Prop :=
  ∀ replica, vv.entries.lookup replica = other.entries.lookup replica

/-- The two mention the same replicas. -/
def SameReplicas (vv other : VersionVector) : Prop :=
  ∀ replica, replica ∈ vv.entries ↔ replica ∈ other.entries

/-- What observes, merges and clones build, with the dots that were observed on the way. A clone is
one vector that is used again. -/
inductive Built : VersionVector → Set (ReplicaId × ℕ) → Prop where
  | new : Built .new ∅
  | observe {vv : VersionVector} {D : Set (ReplicaId × ℕ)} (h : Built vv D) (replica : ReplicaId)
      (counter : UInt64) (pos : 1 ≤ counter.toNat) (below : counter.toNat + 1 < 2 ^ 64) :
      Built (vv.observe replica counter) (insert (replica, counter.toNat) D)
  | merge {vv other : VersionVector} {D E : Set (ReplicaId × ℕ)} (h : Built vv D)
      (h' : Built other E) : Built (vv.merge other) (D ∪ E)

theorem Canonical.normal {vv : VersionVector} (h : Canonical vv) : Normal vv := fun r =>
  (h r).normal

theorem Built.spec {vv : VersionVector} {D : Set (ReplicaId × ℕ)} (h : Built vv D) :
    Canonical vv ∧ vv.dots = D ∧ ∀ d ∈ D, d.2 + 1 < 2 ^ 64 := by
  induction h with
  | new => exact ⟨Canonical.new, dots_new, fun d hd => hd.elim⟩
  | @observe vv D h replica counter pos below ih =>
    obtain ⟨hcanon, hdots, hbound⟩ := ih
    refine ⟨hcanon.observe replica counter, ?_, fun d hd => ?_⟩
    · ext d
      rw [mem_dots_observe hcanon, hdots, Set.mem_insert_iff, or_comm]
      refine or_congr_left ⟨fun hd => hd.1, ?_⟩
      rintro rfl
      exact ⟨rfl, pos⟩
    · obtain rfl | hd := hd
      · exact below
      · exact hbound d hd
  | @merge vv other D E h h' ih ih' =>
    obtain ⟨hcanon, hdots, hbound⟩ := ih
    obtain ⟨hcanon', hdots', hbound'⟩ := ih'
    have hunion : (vv.merge other).dots = D ∪ E := by rw [dots_merge hcanon.normal, hdots, hdots']
    have hall : ∀ d ∈ D ∪ E, d.2 + 1 < 2 ^ 64 := fun d hd => hd.elim (hbound d) (hbound' d)
    refine ⟨fun r => (hcanon.normal.merge other r).canonical fun c hc => ?_, hunion, hall⟩
    exact hall (r, c) (hunion ▸ hc)

theorem version_eq_of_lookup {vv other : VersionVector} (h : vv.eq other) (r : ReplicaId) :
    vv.version r = other.version r := by
  rw [version, version, h r]

/-- Vectors over the same replicas are equal if their dots are. -/
theorem eq_iff_dots {vv other : VersionVector} (hv : Canonical vv) (ho : Canonical other)
    (hsame : vv.SameReplicas other) : vv.eq other ↔ vv.dots = other.dots := by
  constructor
  · intro heq
    ext d
    rw [mem_dots, mem_dots, version_eq_of_lookup heq]
  · intro hdots r
    have hversion : vv.version r = other.version r := (hv r).eq_of_dots (ho r) (by
      ext c
      exact Set.ext_iff.mp hdots (r, c))
    by_cases hr : r ∈ vv.entries
    · obtain ⟨v, hl⟩ := Option.isSome_iff_exists.mp (AList.lookup_isSome.mpr hr)
      obtain ⟨w, hl'⟩ := Option.isSome_iff_exists.mp (AList.lookup_isSome.mpr ((hsame r).mp hr))
      rw [version, version, hl, hl'] at hversion
      rw [hl, hl']
      exact congrArg some hversion
    · rw [AList.lookup_eq_none.mpr hr, AList.lookup_eq_none.mpr fun h => hr ((hsame r).mpr h)]

theorem get_eq (vv : VersionVector) (r : ReplicaId) : vv.get r = (vv.version r).maxSeen := by
  unfold get version
  cases vv.entries.lookup r <;> rfl

theorem frontier_eq (vv : VersionVector) (r : ReplicaId) :
    vv.frontier r = (vv.version r).frontier := by
  unfold frontier version
  cases vv.entries.lookup r <;> rfl

/-- A vector that was built stands for the dots that were observed: its form is canonical, equality,
awareness, `get` and `frontier` are those of the set. -/
theorem built_is_dots (vv other : VersionVector) (D E : Set (ReplicaId × ℕ)) (h : Built vv D)
    (h' : Built other E) :
    vv.dots = D ∧ Canonical vv ∧ (vv.SameReplicas other → (vv.eq other ↔ D = E)) ∧
      (vv.isAwareOf other = true ↔ E ⊆ D) ∧
      ∀ r, IsGreatest (insert 0 {c | (r, c) ∈ D}) (vv.get r).toNat ∧
        IsGreatest {f | ∀ c, 1 ≤ c → c ≤ f → (r, c) ∈ D} (vv.frontier r).toNat := by
  obtain ⟨hcanon, rfl, -⟩ := h.spec
  obtain ⟨hcanon', rfl, -⟩ := h'.spec
  refine ⟨rfl, hcanon, eq_iff_dots hcanon hcanon', isAwareOf_iff hcanon.normal hcanon'.normal,
    fun r => ?_⟩
  rw [get_eq, frontier_eq]
  exact ⟨(hcanon r).maxSeen_isGreatest, (hcanon r).frontier_isGreatest⟩

/-- The witness: a vector that observed `1` and `3` of a replica, and one that observed `2`. -/
theorem built_is_dots_gap :
    (((new.observe ⟨[7]⟩ 1).observe ⟨[7]⟩ 3).isAwareOf (new.observe ⟨[7]⟩ 2) = true ↔
      (insert (⟨[7]⟩, 2) ∅ : Set (ReplicaId × ℕ)) ⊆ insert (⟨[7]⟩, 3) (insert (⟨[7]⟩, 1) ∅)) :=
  (built_is_dots _ _ _ _
    ((Built.new.observe ⟨[7]⟩ 1 (by decide) (by decide)).observe ⟨[7]⟩ 3 (by decide) (by decide))
    (Built.new.observe ⟨[7]⟩ 2 (by decide) (by decide))).2.2.2.1

end VersionVector

end Treecrdt
