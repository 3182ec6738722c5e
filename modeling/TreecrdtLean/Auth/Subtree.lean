import TreecrdtLean.Auth.Sqlite

/-!
# The scope evaluator on a complete tree (`sqlite.ts`)

In a store where every node but the reserved ones has the row of its parent, and none is deeper than
the evaluator walks, the walk is never cut short: it answers `allow` exactly when a path of nodes
that are not excluded leads up to the root of the scope and its length does not exceed the depth
(`scopeWalk_allow_iff`). A depth of `NaN` is exceeded by no length, and no length is at most `NaN`
(`allow_iff_inSubtree_iff`).
-/

namespace Treecrdt

namespace Auth

open Forest

/-! ## Depths -/

namespace JsNumber

theorem not_lt_iff_nan_or_le {a b : JsNumber} (ha : a ≠ nan) :
    b.lt a = false ↔ b = nan ∨ a.le b = true := by
  by_cases hb : b = nan
  · simp [hb, nan_lt]
  · simp [le, ha, hb]

theorem ofInt_ne_nan (n : ℤ) : ofInt n ≠ nan := nofun

/-- A length beyond the limit stays beyond it. -/
theorem lt_ofInt_mono {a : JsNumber} {m n : ℤ} (h : a.lt (ofInt m) = true) (hmn : m ≤ n) :
    a.lt (ofInt n) = true := by
  have hq : (m : Rat) ≤ (n : Rat) := Rat.intCast_le_intCast.mpr hmn
  cases a with
  | finite q =>
    simp only [lt, ofInt, decide_eq_true_eq] at h ⊢
    grind
  | negInfinity => rfl
  | nan | infinity => cases h

/-- A limit that is reached is exceeded by the next length. -/
theorem lt_succ_of_le {a : JsNumber} {n : ℤ} (h : a.le (ofInt n) = true) :
    a.lt (ofInt (n + 1)) = true := by
  have hq : (n : Rat) < ((n + 1 : ℤ) : Rat) := Rat.intCast_lt_intCast.mpr (by omega)
  cases a with
  | finite q =>
    simp only [le, lt, ofInt, ne_eq, reduceCtorEq, not_false_eq_true, decide_true, Bool.true_and,
      Bool.not_eq_true', decide_eq_false_iff_not, Rat.not_lt] at h
    simp only [lt, ofInt, decide_eq_true_eq]
    grind
  | negInfinity => rfl
  | nan | infinity => simp [le, lt, ofInt] at h

end JsNumber

/-! ## The walk -/

variable {rows : Rows} {scope : SubtreeScope} {cur node : Bytes} {distance hops : ℕ}

/-- A path up to the root of the scope, without excluded nodes. -/
abbrev PathUp (rows : Rows) (scope : SubtreeScope) (length : ℕ) (node : Bytes) : Prop :=
  Climb rows.parents (· ∉ scope.excluded) length node scope.root

/-- The depth of the scope is not exceeded. -/
def Admits (scope : SubtreeScope) (length : ℕ) : Prop :=
  ∀ maxDepth ∈ scope.maxDepth, maxDepth.lt (.ofInt length) = false

theorem Admits.mono {m n : ℕ} (h : Admits scope n) (hmn : m ≤ n) : Admits scope m := by
  intro maxDepth hmax
  by_contra hlt
  have hbeyond := JsNumber.lt_ofInt_mono (by simpa using hlt) (Int.ofNat_le.mpr hmn)
  cases (h maxDepth hmax).symm.trans hbeyond

theorem admits_iff {length : ℕ} :
    Admits scope length ↔
      ¬ (scope.maxDepth.any fun maxDepth => maxDepth.lt (.ofInt length)) = true := by
  cases hmax : scope.maxDepth <;> simp [Admits, hmax]

/-- A walk with a hop to go has not reached the depth. -/
theorem Admits.not_tooDeep {length : ℕ} (h : Admits scope (length + 1)) :
    tooDeep scope length = false := by
  by_contra hdeep
  have hdeep : tooDeep scope length = true := by simpa using hdeep
  obtain ⟨maxDepth, hmax, hle⟩ := Option.any_eq_true _ _ |>.mp hdeep
  have hbeyond := JsNumber.lt_succ_of_le hle
  rw [← Nat.cast_succ] at hbeyond
  cases (h maxDepth hmax).symm.trans hbeyond

/-- The walk allows what a path leads up from. -/
theorem scopeWalk_allow_iff :
    scopeWalk rows scope hops cur distance = .allow ↔
      ∃ length < hops, PathUp rows scope length cur ∧ Admits scope (distance + length) := by
  constructor
  · intro h
    induction hops generalizing cur distance with
    | zero => cases h
    | succ hops ih =>
      unfold scopeWalk at h
      split at h
      · cases h
      rename_i hexcl
      split at h
      · rename_i hroot
        subst hroot
        split at h
        · cases h
        · rename_i hdepth
          exact ⟨0, Nat.succ_pos _, .here hexcl, admits_iff.mpr hdepth⟩
      split at h
      · cases h
      rename_i hend
      split at h
      · cases h
      split at h
      · cases h
      · cases h
      · rename_i parent hparent
        obtain ⟨hr, ht⟩ := not_or.mp hend
        obtain ⟨length, hlt, hpath, hadmits⟩ := ih h
        refine ⟨length + 1, by omega, .step hexcl ((parentSql_parent hr ht).mp hparent) hpath, ?_⟩
        rwa [← Nat.add_assoc, Nat.add_right_comm]
  · rintro ⟨length, hlt, hpath, hadmits⟩
    induction hops generalizing cur distance length with
    | zero => omega
    | succ hops ih =>
      unfold scopeWalk
      cases hpath with
      | here hexcl =>
        rw [Nat.add_zero] at hadmits
        rw [if_neg hexcl, if_pos rfl, if_neg (admits_iff.mp hadmits)]
      | @step length _ parent _ hexcl hup hpath =>
        rw [if_neg hexcl]
        split
        · rw [if_neg (admits_iff.mp (hadmits.mono (by omega)))]
        have hend : ¬ (cur = ROOT_NODE_ID ∨ cur = TRASH_NODE_ID) := fun h => by
          rw [parents_special h] at hup
          cases hup
        obtain ⟨hr, ht⟩ := not_or.mp hend
        rw [if_neg hend, (hadmits.mono (by omega : distance + 1 ≤ _)).not_tooDeep,
          if_neg Bool.false_ne_true, (parentSql_parent hr ht).mpr hup]
        exact ih length (by omega) hpath (by rwa [← Nat.add_assoc, Nat.add_right_comm] at hadmits)

/-! ## Complete trees -/

/-- A finite tree in which every node but the reserved ones has the row of its parent, and which is
less deep than the evaluator walks. -/
structure CompleteStore (rows : Rows) : Prop where
  finite : {n | rows n ≠ none}.Finite
  acyclic : Acyclic rows.parents
  parents : ∀ n row, rows n = some row → ¬ n.special →
    ∃ parent, row.parent = some parent ∧ rows parent ≠ none
  shallow : ∀ depth a b, Climb rows.parents (fun _ => True) depth a b → depth < maxHops

/-- The node lies below the root of the scope, at a distance that is at most the depth, and no node
on the path is excluded. -/
def InSubtree (rows : Rows) (scope : SubtreeScope) (node : Bytes) : Prop :=
  ∃ distance : ℕ, PathUp rows scope distance node ∧
    ∀ maxDepth ∈ scope.maxDepth, (JsNumber.ofInt distance).le maxDepth = true

theorem evaluator_allow_iff (h : CompleteStore rows) {docId : String} :
    createTreecrdtSqliteSubtreeScopeEvaluator rows docId node scope = .ok .allow ↔
      ∃ length, PathUp rows scope length node ∧ Admits scope length := by
  rw [createTreecrdtSqliteSubtreeScopeEvaluator, Except.ok.injEq, scopeWalk_allow_iff]
  simp only [Nat.zero_add]
  constructor
  · rintro ⟨length, -, hpath, hadmits⟩
    exact ⟨length, hpath, hadmits⟩
  · rintro ⟨length, hpath, hadmits⟩
    exact ⟨length, h.shallow _ _ _ (hpath.imp fun _ _ => trivial), hpath, hadmits⟩

theorem admits_iff_of_ne_nan (h : scope.maxDepth ≠ some .nan) {length : ℕ} :
    Admits scope length ↔
      ∀ maxDepth ∈ scope.maxDepth, (JsNumber.ofInt length).le maxDepth = true := by
  refine forall_congr' fun maxDepth => forall_congr' fun hmax => ?_
  rw [JsNumber.not_lt_iff_nan_or_le (JsNumber.ofInt_ne_nan _)]
  have hne : maxDepth ≠ .nan := by
    rintro rfl
    exact h hmax
  simp [hne]

/-- On a complete tree the evaluator comes to an answer, and allows exactly the nodes of the
subtree, unless the depth is `NaN` and a path leads up from the node. -/
theorem allow_iff_inSubtree_iff (rows : Rows) (h : CompleteStore rows) (docId : String)
    (node : Bytes) (scope : SubtreeScope) :
    (∃ answer, createTreecrdtSqliteSubtreeScopeEvaluator rows docId node scope = .ok answer) ∧
      ((createTreecrdtSqliteSubtreeScopeEvaluator rows docId node scope = .ok .allow ↔
          InSubtree rows scope node) ↔
        ¬ (scope.maxDepth = some .nan ∧ ∃ length, PathUp rows scope length node)) := by
  refine ⟨⟨_, rfl⟩, ?_⟩
  rw [evaluator_allow_iff h]
  constructor
  · rintro hiff ⟨hnan, length, hpath⟩
    have hadmits : Admits scope length := by
      intro maxDepth hmax
      cases hnan.symm.trans hmax
      rfl
    obtain ⟨distance, -, hdepth⟩ := hiff.mp ⟨length, hpath, hadmits⟩
    have hle := hdepth .nan hnan
    simp [JsNumber.le] at hle
  · intro hnot
    by_cases hnan : scope.maxDepth = some .nan
    · have hnone : ∀ length, ¬ PathUp rows scope length node := fun length hpath =>
        hnot ⟨hnan, length, hpath⟩
      constructor
      · rintro ⟨length, hpath, -⟩
        exact absurd hpath (hnone length)
      · rintro ⟨distance, hpath, -⟩
        exact absurd hpath (hnone distance)
    · exact exists_congr fun length => and_congr_right fun _ => admits_iff_of_ne_nan hnan

/-! A document with one node under its root. -/

def oneNode : NodeId := ⟨7⟩

def oneNodeRows : Rows := fun n =>
  if n = NodeId.ROOT then some (Row.blank NodeId.ROOT)
  else if n = oneNode then some { Row.blank oneNode with parent := some NodeId.ROOT }
  else none

/-- `ROOT` is the parent of the node, and of no other. -/
theorem oneNodeRows_parents {a b : Bytes} (h : oneNodeRows.parents a = some b) :
    a = nodeToBlob oneNode ∧ b = ROOT_NODE_ID := by
  obtain ⟨n, hn, h⟩ := Option.bind_eq_some_iff.mp h
  obtain ⟨parent, hup, rfl⟩ := Option.map_eq_some_iff.mp h
  have hroot : n ≠ NodeId.ROOT := by
    rintro rfl
    rw [Rows.up, if_pos (by decide)] at hup
    cases hup
  have hone : n = oneNode := by
    by_contra hne
    rw [Rows.up] at hup
    split at hup
    · cases hup
    · simp [Rows.parent, oneNodeRows, hroot, hne] at hup
  subst hone
  refine ⟨(nodeToBlob_of_blobToNode hn).symm, ?_⟩
  rw [Rows.up, if_neg (by decide)] at hup
  simp only [Rows.parent, oneNodeRows, if_neg hroot, if_pos, Option.bind_some] at hup
  cases hup
  exact nodeToBlob_root

theorem oneNodeRows_root : oneNodeRows.parents ROOT_NODE_ID = none := parents_special (.inl rfl)

theorem oneNodeRows_complete : CompleteStore oneNodeRows where
  finite := by
    refine Set.Finite.subset (Set.toFinite {NodeId.ROOT, oneNode}) fun n hn => ?_
    by_contra hnot
    obtain ⟨hroot, hone⟩ := not_or.mp hnot
    have hone : n ≠ oneNode := by simpa using hone
    exact hn (by rw [oneNodeRows, if_neg hroot, if_neg hone])
  acyclic := by
    intro a hcycle
    obtain ⟨b, hab, hba⟩ := Relation.TransGen.head'_iff.mp hcycle
    obtain ⟨rfl, rfl⟩ := oneNodeRows_parents hab
    rcases Relation.ReflTransGen.cases_head hba with heq | ⟨c, hc, -⟩
    · exact absurd heq (by decide)
    · rw [oneNodeRows_root] at hc
      cases hc
  parents := by
    intro n row hrow hspecial
    unfold oneNodeRows at hrow
    split at hrow
    · rename_i hroot
      subst hroot
      exact absurd (by decide) hspecial
    split at hrow
    · cases hrow
      exact ⟨NodeId.ROOT, rfl, by decide⟩
    · cases hrow
  shallow := by
    intro depth a b hclimb
    cases hclimb with
    | here => decide
    | step _ hab hrest =>
      obtain ⟨rfl, rfl⟩ := oneNodeRows_parents hab
      cases hrest with
      | here => decide
      | step _ hc =>
        rw [oneNodeRows_root] at hc
        cases hc

/-- A distance of one, and a depth of one. -/
theorem allow_iff_inSubtree_iff_oneNode :
    createTreecrdtSqliteSubtreeScopeEvaluator oneNodeRows "d" (nodeToBlob oneNode)
        ⟨ROOT_NODE_ID, some (.ofInt 1), none⟩ = .ok .allow ∧
      InSubtree oneNodeRows ⟨ROOT_NODE_ID, some (.ofInt 1), none⟩ (nodeToBlob oneNode) := by
  have hallow : createTreecrdtSqliteSubtreeScopeEvaluator oneNodeRows "d" (nodeToBlob oneNode)
      ⟨ROOT_NODE_ID, some (.ofInt 1), none⟩ = .ok .allow := by decide +kernel
  have hiff := (allow_iff_inSubtree_iff oneNodeRows oneNodeRows_complete "d" (nodeToBlob oneNode)
    ⟨ROOT_NODE_ID, some (.ofInt 1), none⟩).2.mpr fun h => by cases h.1
  exact ⟨hallow, hiff.mp hallow⟩

/-- The node is at a distance of one, which is not at most `NaN`. -/
theorem nanDepth_allowed : ¬ ∀ (rows : Rows), CompleteStore rows →
    ∀ (docId : String) (node : Bytes) (scope : SubtreeScope),
      createTreecrdtSqliteSubtreeScopeEvaluator rows docId node scope = .ok .allow ↔
        InSubtree rows scope node := by
  intro hclaim
  have hallow : createTreecrdtSqliteSubtreeScopeEvaluator oneNodeRows "d" (nodeToBlob oneNode)
      ⟨ROOT_NODE_ID, some .nan, none⟩ = .ok .allow := by decide +kernel
  obtain ⟨distance, -, hdepth⟩ := (hclaim oneNodeRows oneNodeRows_complete "d" _ _).mp hallow
  have hle := hdepth .nan rfl
  simp [JsNumber.le] at hle

end Auth

end Treecrdt
