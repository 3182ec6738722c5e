import TreecrdtLean.Auth.Materialized

/-!
# The scope evaluator over SQLite (`sqlite.ts`)

The evaluator walks up `tree_nodes`, one query a hop, and tells apart a node without a row and a
node without a parent. The second is also what the core leaves for a node that it has only heard of
(a placeholder): there the evaluator answers `deny`, as if the walk had come to an end of the tree
(`knownOutside_iff_not_endsAtPlaceholder`).
-/

namespace Treecrdt

namespace Auth

open Forest

/-! ## The evaluator -/

/-- The column `parent_hex`. -/
inductive ParentHex where
  | missing
  | null
  | parent (node : Bytes)
  deriving DecidableEq

/-- The query `parentSql`. -/
def parentSql (rows : Rows) (node : Bytes) : ParentHex :=
  match (blobToNode node).bind rows with
  | none => .missing
  | some row =>
    match row.parent with
    | none => .null
    | some parent => .parent (nodeToBlob parent)

def maxHops : ℕ := 100000

/-- `maxDepth !== undefined && distance >= maxDepth`. -/
def tooDeep (scope : SubtreeScope) (distance : ℕ) : Bool :=
  scope.maxDepth.any fun maxDepth => maxDepth.le (.ofInt distance)

/-- The loop, with the hops that are left. -/
def scopeWalk (rows : Rows) (scope : SubtreeScope) : ℕ → Bytes → ℕ → ScopeTri
  | 0, _, _ => .unknown
  | hops + 1, cur, distance =>
    if cur ∈ scope.excluded then .deny
    else if cur = scope.root then
      if scope.maxDepth.any fun maxDepth => maxDepth.lt (.ofInt distance) then .deny else .allow
    else if cur = ROOT_NODE_ID ∨ cur = TRASH_NODE_ID then .deny
    else if tooDeep scope distance then .deny
    else
      match parentSql rows cur with
      | .missing => .unknown
      | .null => .deny
      | .parent parent => scopeWalk rows scope hops parent (distance + 1)

def createTreecrdtSqliteSubtreeScopeEvaluator (rows : Rows) : ScopeEvaluator :=
  fun _ node scope => .ok (scopeWalk rows scope maxHops node 0)

/-! ## What the answers mean -/

variable {rows : Rows} {scope : SubtreeScope} {cur node : Bytes}

/-- A node that the walk goes on from: neither excluded nor the root of the scope. -/
def Passed (scope : SubtreeScope) (node : Bytes) : Prop := node ∉ scope.excluded ∧ node ≠ scope.root

/-- The chain of known parents shows that the node is outside: it reaches `ROOT` or `TRASH` without
the root of the scope, meets an excluded node, or is longer than the depth. -/
inductive KnownOutside (rows : Rows) (scope : SubtreeScope) (node : Bytes) (distance : ℕ) : Prop
  | root {k : ℕ} (h : Climb rows.parents (· ≠ scope.root) k node ROOT_NODE_ID)
  | trash {k : ℕ} (h : Climb rows.parents (· ≠ scope.root) k node TRASH_NODE_ID)
  | excluded {k : ℕ} {x : Bytes} (h : Climb rows.parents (fun _ => True) k node x)
      (hx : x ∈ scope.excluded)
  | beyond {k : ℕ} {x : Bytes} (h : Climb rows.parents (· ≠ scope.root) k node x)
      (hk : tooDeep scope (distance + k) = true)
  | tooFar {k : ℕ} {maxDepth : JsNumber} (h : Climb rows.parents (fun _ => True) k node scope.root)
      (hmax : scope.maxDepth = some maxDepth)
      (hk : maxDepth.lt (.ofInt ((distance + k : ℕ) : ℤ)) = true)

/-- The chain of known parents ends at `x` before it shows anything. -/
structure EndsAt (rows : Rows) (scope : SubtreeScope) (node : Bytes) (distance k : ℕ)
    (x : Bytes) : Prop where
  climb : Climb rows.parents (Passed scope) k node x
  shallow : tooDeep scope (distance + k) = false
  inner : x ≠ ROOT_NODE_ID ∧ x ≠ TRASH_NODE_ID
  last : rows.parents x = none

/-- A row without a parent. -/
def Placeholder (rows : Rows) (x : Bytes) : Prop :=
  ∃ n row, blobToNode x = some n ∧ rows n = some row ∧ row.parent = none

/-- An answer that denies only what is known to be outside, and is `unknown` where the chain ends
too early. -/
structure DeniesOnlyKnown (rows : Rows) (scope : SubtreeScope) (node : Bytes) (answer : ScopeTri) :
    Prop where
  deny : answer = .deny → KnownOutside rows scope node 0
  unknown : ∀ k x, EndsAt rows scope node 0 k x → answer = .unknown

/-- The chain ends at a placeholder, within the hops of the walk. -/
def EndsAtPlaceholder (rows : Rows) (scope : SubtreeScope) (node : Bytes) : Prop :=
  ∃ k x, k < maxHops ∧ EndsAt rows scope node 0 k x ∧ Placeholder rows x

theorem parentSql_parent (hroot : cur ≠ ROOT_NODE_ID) (htrash : cur ≠ TRASH_NODE_ID)
    {parent : Bytes} : parentSql rows cur = .parent parent ↔ rows.parents cur = some parent := by
  unfold parentSql Rows.parents
  cases hn : blobToNode cur with
  | none => simp
  | some n =>
    have hs : ¬ n.special := fun h => by
      obtain h | h := (special_iff_of_blobToNode hn).mp h
      · exact hroot h
      · exact htrash h
    rw [Option.bind_some, Option.bind_some, Rows.up, if_neg hs, Rows.parent]
    cases hr : rows n with
    | none => simp
    | some row => cases hp : row.parent <;> simp [hp]

theorem parentSql_null : parentSql rows cur = .null ↔ Placeholder rows cur := by
  unfold parentSql Placeholder
  cases hn : blobToNode cur with
  | none => simp
  | some n =>
    rw [Option.bind_some]
    cases hr : rows n with
    | none => simp [hr]
    | some row => cases hp : row.parent <;> simp [hr, hp]

/-- `ROOT` and `TRASH` have no parents. -/
theorem parents_special (h : cur = ROOT_NODE_ID ∨ cur = TRASH_NODE_ID) :
    rows.parents cur = none := by
  unfold Rows.parents
  cases hn : blobToNode cur with
  | none => rfl
  | some n => rw [Option.bind_some, Rows.up_special ((special_iff_of_blobToNode hn).mpr h)]; rfl

/-! ## The walk -/

variable {parent : Bytes} {distance hops k : ℕ} {x : Bytes}

theorem KnownOutside.step (hne : cur ≠ scope.root) (hup : rows.parents cur = some parent)
    (h : KnownOutside rows scope parent (distance + 1)) :
    KnownOutside rows scope cur distance := by
  cases h with
  | root h => exact .root (.step hne hup h)
  | trash h => exact .trash (.step hne hup h)
  | excluded h hx => exact .excluded (.step trivial hup h) hx
  | @beyond k x h hk => exact .beyond (.step hne hup h) (by rwa [← Nat.add_assoc, Nat.add_right_comm])
  | @tooFar k maxDepth h hmax hk =>
    exact .tooFar (.step trivial hup h) hmax (by rwa [← Nat.add_assoc, Nat.add_right_comm])

theorem EndsAt.step (hpass : Passed scope cur) (hup : rows.parents cur = some parent)
    (h : EndsAt rows scope parent (distance + 1) k x) :
    EndsAt rows scope cur distance (k + 1) x :=
  ⟨.step hpass hup h.climb, by rw [← Nat.add_assoc, Nat.add_right_comm]; exact h.shallow, h.inner,
    h.last⟩

/-- Every reason to deny but one is a reason to deny. -/
theorem scopeWalk_deny (h : scopeWalk rows scope hops cur distance = .deny) :
    KnownOutside rows scope cur distance ∨
      ∃ k x, k < hops ∧ EndsAt rows scope cur distance k x ∧ Placeholder rows x := by
  induction hops generalizing cur distance with
  | zero => cases h
  | succ hops ih =>
    unfold scopeWalk at h
    split at h
    · exact Or.inl (.excluded (.here trivial) ‹_›)
    rename_i hexcl
    split at h
    · rename_i hroot
      subst hroot
      split at h
      · rename_i hfar
        obtain ⟨maxDepth, hmax, hlt⟩ := Option.any_eq_true _ _ |>.mp hfar
        exact Or.inl (.tooFar (.here trivial) hmax hlt)
      · cases h
    rename_i hroot
    split at h
    · rename_i hend
      obtain rfl | rfl := hend
      · exact Or.inl (.root (.here hroot))
      · exact Or.inl (.trash (.here hroot))
    rename_i hend
    split at h
    · exact Or.inl (.beyond (.here hroot) ‹_›)
    rename_i hdeep
    have hpass : Passed scope cur := ⟨hexcl, hroot⟩
    obtain ⟨hr, ht⟩ := not_or.mp hend
    split at h
    · cases h
    · rename_i hnull
      have hlast : rows.parents cur = none := by
        by_contra hsome
        obtain ⟨p, hp⟩ := Option.ne_none_iff_exists'.mp hsome
        rw [(parentSql_parent hr ht).mpr hp] at hnull
        cases hnull
      exact Or.inr ⟨0, cur, by omega, ⟨.here hpass, by simpa using hdeep, ⟨hr, ht⟩, hlast⟩,
        parentSql_null.mp hnull⟩
    · rename_i p hp
      have hup := (parentSql_parent hr ht).mp hp
      obtain hknown | ⟨k, x, hk, hends, hplace⟩ := ih h
      · exact Or.inl (hknown.step hroot hup)
      · exact Or.inr ⟨k + 1, x, by omega, hends.step hpass hup, hplace⟩

theorem tooDeep_mono {d d' : ℕ} (h : tooDeep scope d' = false) (hd : d ≤ d') :
    tooDeep scope d = false := by
  unfold tooDeep at h ⊢
  cases hm : scope.maxDepth with
  | none => rfl
  | some maxDepth =>
    rw [hm] at h
    rw [Option.any_some] at h ⊢
    by_contra hle
    rw [JsNumber.le_ofInt_mono (by simpa using hle) (by exact_mod_cast hd)] at h
    cases h

/-- The answer where the chain ends before it shows anything. -/
theorem scopeWalk_endsAt (h : EndsAt rows scope cur distance k x) :
    scopeWalk rows scope hops cur distance =
      if k < hops ∧ parentSql rows x = .null then .deny else .unknown := by
  obtain ⟨hclimb, hdeep, hinner, hlast⟩ := h
  induction hclimb generalizing hops distance with
  | @here cur hpass =>
    cases hops with
    | zero => rw [if_neg (by omega)]; rfl
    | succ hops =>
      unfold scopeWalk
      rw [if_neg hpass.1, if_neg hpass.2, if_neg (not_or.mpr hinner),
        if_neg (by simpa using hdeep)]
      cases hp : parentSql rows cur with
      | missing => simp
      | null => simp
      | parent p =>
        rw [(parentSql_parent hinner.1 hinner.2).mp hp] at hlast
        cases hlast
  | @step k cur parent x hpass hup _ ih =>
    cases hops with
    | zero => rw [if_neg (by omega)]; rfl
    | succ hops =>
      have hend : ¬ (cur = ROOT_NODE_ID ∨ cur = TRASH_NODE_ID) := fun h => by
        rw [parents_special h] at hup
        cases hup
      obtain ⟨hr, ht⟩ := not_or.mp hend
      have hshallow : tooDeep scope distance = false := tooDeep_mono hdeep (by omega)
      unfold scopeWalk
      rw [if_neg hpass.1, if_neg hpass.2, if_neg hend, if_neg (by simp [hshallow]),
        (parentSql_parent hr ht).mpr hup]
      simp only [Nat.add_lt_add_iff_right]
      exact ih (by rwa [← Nat.add_assoc, Nat.add_right_comm] at hdeep) hinner hlast

end Auth

end Treecrdt
