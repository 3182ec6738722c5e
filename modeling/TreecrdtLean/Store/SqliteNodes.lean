import TreecrdtLean.Spec.Flags
import TreecrdtLean.Store.PgNodes
import TreecrdtLean.Store.SqliteExt

/-!
# The node store of the SQLite extension (`treecrdt-sqlite-ext`, `node_store.rs`)

The rows of `tree_nodes`, read and written by a statement each. A blob without bytes reads as
`NULL`, so an empty order key is stored and is not seen again. Otherwise the methods are those of
the Postgres store: `ROOT` is left alone, and no key is kept under `TRASH`.
-/

namespace Treecrdt

/-- A sort by distinct keys is strict. -/
theorem pairwise_lt_mergeSort {α κ : Type} [LinearOrder κ] (K : α → κ) {l : List α}
    (h : l.Pairwise fun a b => K a ≠ K b) :
    (l.mergeSort fun a b => K a ≤ K b).Pairwise fun a b => K a < K b := by
  have hsorted : (l.mergeSort fun a b => K a ≤ K b).Pairwise fun a b => K a ≤ K b := by
    refine (List.pairwise_mergeSort (fun a b c hab hbc => ?_) (fun a b => ?_) _).imp
      fun h => of_decide_eq_true h
    · exact decide_eq_true ((of_decide_eq_true hab).trans (of_decide_eq_true hbc))
    · simpa using le_total _ _
  have hdistinct : (l.mergeSort fun a b => K a ≤ K b).Pairwise fun a b => K a ≠ K b :=
    ((List.mergeSort_perm l _).pairwise_iff fun hab => hab.symm).mpr h
  exact hsorted.imp₂ (fun _ _ hle hne => lt_of_le_of_ne hle hne) hdistinct

namespace SqliteExt

open Exec Postgres Postgres.PgNodeStore

/-- The `tree_nodes` table; its columns are those of `treecrdt_nodes`. -/
structure SqliteNodeStore where
  treeNodes : NodeTable := ∅

namespace SqliteNodeStore

/-- `ORDER BY order_key, node`, keys that are `NULL` first. -/
def sqlKey (node : NodeId) (row : NodeRow) : WithBot (List ℕ) ×ₗ List ℕ :=
  toLex (row.orderKey.elim ⊥ fun key => ((key.nats : List ℕ) : WithBot (List ℕ)),
    (nodeToBytes node).nats)

/-- `SELECT node FROM tree_nodes WHERE .. ORDER BY order_key, node`. -/
def selectChildren (table : NodeTable) (parent : NodeId) : List NodeId :=
  ((table.entries.filter fun e => e.2.parent = some parent).mergeSort fun a b =>
    sqlKey a.1 a.2 ≤ sqlKey b.1 b.2).map Sigma.fst

/-- `SELECT .. FROM tree_nodes WHERE node = ..`. -/
def selectNode (node : NodeId) : Exec Error SqliteNodeStore (Option NodeRow) :=
  gets fun s => s.treeNodes.lookup node

/-- `UPDATE tree_nodes SET .. WHERE node = ..`. -/
def update (node : NodeId) (set : NodeRow → NodeRow) : Exec Error SqliteNodeStore Unit :=
  modify fun s => { s with treeNodes := updateTable node set s.treeNodes }

/-- `INSERT OR IGNORE`. -/
def ensureNode (node : NodeId) : Exec Error SqliteNodeStore Unit := modify fun s =>
  match s.treeNodes.lookup node with
  | some _ => s
  | none => { s with treeNodes := s.treeNodes.insert node {} }

def reset : Exec Error SqliteNodeStore Unit := do
  modify fun s => { s with treeNodes := ∅ }
  ensureNode NodeId.ROOT
  update NodeId.ROOT fun row => { row with parent := none, orderKey := some [] }

def nodeExists (node : NodeId) : Exec Error SqliteNodeStore Bool := do
  return (← selectNode node).isSome

def parent (node : NodeId) : Exec Error SqliteNodeStore (Option NodeId) := do
  return (← selectNode node).bind (·.parent)

def orderKey (node : NodeId) : Exec Error SqliteNodeStore (Option Bytes) := do
  return (← selectNode node).bind fun row => blob row.orderKey

def children (parent : NodeId) : Exec Error SqliteNodeStore (List NodeId) :=
  if parent = NodeId.TRASH then return []
  else gets fun s => selectChildren s.treeNodes parent

def detach (node : NodeId) : Exec Error SqliteNodeStore Unit := do
  if node = NodeId.ROOT then
    return
  ensureNode node
  update node fun row => { row with parent := none, orderKey := none }

def attach (node parent : NodeId) (orderKey : Bytes) : Exec Error SqliteNodeStore Unit := do
  if node = NodeId.ROOT then
    return
  ensureNode node
  ensureNode parent
  if parent = NodeId.TRASH then
    update node fun row => { row with parent := some parent, orderKey := none }
  else
    update node fun row => { row with parent := some parent, orderKey := some orderKey }

def tombstone (node : NodeId) : Exec Error SqliteNodeStore Bool := do
  return ((← selectNode node).map (·.tombstone)).getD false

def setTombstone (node : NodeId) (tombstone : Bool) : Exec Error SqliteNodeStore Unit := do
  ensureNode node
  update node fun row => { row with tombstone }

def lastChange (node : NodeId) : Exec Error SqliteNodeStore VersionVector := do
  match ← selectNode node with
  | some row => return row.lastChange.getD .new
  | none => throw (.storage "select_node last_change failed (rc=101)")

def mergeLastChange (node : NodeId) (delta : VersionVector) :
    Exec Error SqliteNodeStore Unit := do
  ensureNode node
  let vv ← lastChange node
  update node fun row => { row with lastChange := some (vv.merge delta) }

def deletedAt (node : NodeId) : Exec Error SqliteNodeStore (Option VersionVector) := do
  return (← selectNode node).bind (·.deletedAt)

def mergeDeletedAt (node : NodeId) (delta : VersionVector) :
    Exec Error SqliteNodeStore Unit := do
  ensureNode node
  let vv := (← deletedAt node).getD .new
  update node fun row => { row with deletedAt := some (vv.merge delta) }

def hasDeletedAt (node : NodeId) : Exec Error SqliteNodeStore Bool := do
  return ((← selectNode node).bind (·.deletedAt)).isSome

/-- One statement for both. -/
def parentAndHasDeletedAt (node : NodeId) :
    Exec Error SqliteNodeStore (Option (Option NodeId × Bool)) := do
  return (← selectNode node).map fun row => (row.parent, row.deletedAt.isSome)

instance : NodeStore SqliteNodeStore where
  reset := reset
  ensureNode := ensureNode
  nodeExists := nodeExists
  parent := parent
  orderKey := orderKey
  children := children
  detach := detach
  attach := attach
  tombstone := tombstone
  setTombstone := setTombstone
  lastChange := lastChange
  mergeLastChange := mergeLastChange
  deletedAt := deletedAt
  mergeDeletedAt := mergeDeletedAt
  hasDeletedAt := hasDeletedAt
  parentAndHasDeletedAt := parentAndHasDeletedAt
  allNodes := gets fun s => s.treeNodes.keys

/-! ## What a store stands for -/

/-- The key of `ROOT` is never read. -/
def viewRow (n : NodeId) (row : NodeRow) : Row :=
  { parent := row.parent
    orderKey := if n = NodeId.ROOT then some [] else blob row.orderKey
    lastChange := row.lastChange.getD .new
    deletedAt := row.deletedAt }

def view (s : SqliteNodeStore) : Rows := fun n => (s.treeNodes.lookup n).map (viewRow n)

def flags (s : SqliteNodeStore) : NodeId → Bool :=
  fun n => ((s.treeNodes.lookup n).map (·.tombstone)).getD false

/-- `ROOT` has no parent, a node under another one than `TRASH` has a key, and a parent a row. -/
def Placed (s : SqliteNodeStore) : Prop :=
  ∀ n row p, s.treeNodes.lookup n = some row → row.parent = some p →
    n ≠ NodeId.ROOT ∧ (p ≠ NodeId.TRASH → row.orderKey.isSome) ∧ (s.treeNodes.lookup p).isSome

def Models (s : SqliteNodeStore) (a : Rows × (NodeId → Bool)) : Prop :=
  s.view = a.1 ∧ s.flags = a.2 ∧ s.Placed

variable {s s' : SqliteNodeStore} {r : Rows} {f : NodeId → Bool} {n p : NodeId} {row : NodeRow}

theorem parent_view : s.view.parent n = (s.treeNodes.lookup n).bind (·.parent) := by
  unfold Rows.parent view
  cases s.treeNodes.lookup n <;> rfl

theorem orderKey_view (hn : n ≠ NodeId.ROOT) :
    s.view.orderKey n = (s.treeNodes.lookup n).bind fun row => blob row.orderKey := by
  unfold Rows.orderKey view
  cases s.treeNodes.lookup n with
  | none => rfl
  | some row => exact if_neg hn

theorem Models.view_some (h : Models s (r, f)) (hn : (r n).isSome) :
    ∃ row, s.treeNodes.lookup n = some row ∧ r n = some (viewRow n row) ∧
      f n = row.tombstone := by
  obtain ⟨rfl, rfl, -⟩ := h
  rw [view, Option.isSome_map] at hn
  obtain ⟨row, hrow⟩ := Option.isSome_iff_exists.mp hn
  exact ⟨row, hrow, by rw [view, hrow]; rfl, by rw [flags, hrow]; rfl⟩

/-- A store with another row of one node. -/
theorem Models.set (h : Models s (r, f))
    (hrows : ∀ m, s'.treeNodes.lookup m = if m = n then some row else s.treeNodes.lookup m)
    (hplaced : ∀ p, row.parent = some p → n ≠ NodeId.ROOT ∧
      (p ≠ NodeId.TRASH → row.orderKey.isSome) ∧ (s.treeNodes.lookup p).isSome) :
    Models s' (Function.update r n (some (viewRow n row)),
      Function.update f n row.tombstone) := by
  obtain ⟨rfl, rfl, hinv⟩ := h
  have hsome : ∀ p, (s.treeNodes.lookup p).isSome → (s'.treeNodes.lookup p).isSome := by
    intro p hp
    rw [hrows p]
    split
    · rfl
    · exact hp
  refine ⟨?_, ?_, fun m other p hm hp => ?_⟩
  · funext m
    rw [view, hrows m]
    rcases eq_or_ne m n with rfl | hne
    · simp
    · simp [view, hne]
  · funext m
    rw [flags, hrows m]
    rcases eq_or_ne m n with rfl | hne
    · simp
    · simp [flags, hne]
  · rw [hrows m] at hm
    split at hm
    · rename_i he
      cases hm
      obtain ⟨hroot, hkey, hparent⟩ := hplaced p hp
      exact ⟨he ▸ hroot, hkey, hsome p hparent⟩
    · obtain ⟨hroot, hkey, hparent⟩ := hinv m other p hm hp
      exact ⟨hroot, hkey, hsome p hparent⟩

/-! ## Reads -/

theorem selectNode_runs (r : Rows) (f : NodeId → Bool) (n : NodeId) :
    Runs Models (r, f) (selectNode n)
      (fun row => row.map (viewRow n) = r n ∧ (row.map (·.tombstone)).getD false = f n)
      (r, f) :=
  Runs.gets fun s hs => by
    obtain ⟨rfl, rfl, -⟩ := hs
    exact ⟨rfl, rfl⟩

/-- A read of columns. -/
theorem column_runs {α : Type} (column : Option NodeRow → α) {value : α}
    (h : ∀ row : Option NodeRow, row.map (viewRow n) = r n →
      (row.map (·.tombstone)).getD false = f n → column row = value) :
    Runs Models (r, f) (do return column (← selectNode n)) (· = value) (r, f) :=
  (selectNode_runs r f n).bind fun row hrow => Runs.pure (h row hrow.1 hrow.2)

theorem nodeExists_runs (r : Rows) (f : NodeId → Bool) (n : NodeId) :
    Runs Models (r, f) (nodeExists n)
      (fun b => (b = true → (r n).isSome) ∧
        (b = false → r.row n = .blank n ∧ ∀ c, r.parent c ≠ some n)) (r, f) := by
  intro s hs
  refine ⟨(s.treeNodes.lookup n).isSome, s, rfl, ⟨fun h => ?_, fun h => ?_⟩, hs⟩
  · obtain ⟨rfl, -, -⟩ := hs
    rwa [view, Option.isSome_map]
  · rw [Option.isSome_eq_false_iff, Option.isNone_iff_eq_none] at h
    obtain ⟨rfl, -, hinv⟩ := hs
    have hnone : s.view n = none := by rw [view, h]; rfl
    refine ⟨by rw [Rows.row, hnone]; rfl, fun c hc => ?_⟩
    rw [parent_view] at hc
    obtain ⟨row, hrow, hparent⟩ := Option.bind_eq_some_iff.mp hc
    have hsome := (hinv c row n hrow hparent).2.2
    rw [h] at hsome
    cases hsome

theorem parent_runs (r : Rows) (f : NodeId → Bool) (n : NodeId) :
    Runs Models (r, f) (parent n) (· = r.parent n) (r, f) :=
  column_runs (fun row => row.bind (·.parent)) fun row hrow _ => by
    rw [Rows.parent, ← hrow]
    cases row <;> rfl

theorem orderKey_runs (r : Rows) (f : NodeId → Bool) (n : NodeId) :
    Runs Models (r, f) (orderKey n) (fun key => n ≠ NodeId.ROOT → key = r.orderKey n) (r, f) :=
  (selectNode_runs r f n).bind fun row hrow => Runs.pure fun hroot => by
    rw [Rows.orderKey, ← hrow.1]
    cases row with
    | none => rfl
    | some row => exact (if_neg hroot).symm

theorem deletedAt_runs (r : Rows) (f : NodeId → Bool) (n : NodeId) :
    Runs Models (r, f) (deletedAt n) (· = (r.row n).deletedAt) (r, f) :=
  column_runs (fun row => row.bind (·.deletedAt)) fun row hrow _ => by
    rw [Rows.row, ← hrow]
    cases row <;> rfl

theorem lastChange_runs (f : NodeId → Bool) (hn : (r n).isSome) :
    Runs Models (r, f) (lastChange n) (· = (r.row n).lastChange) (r, f) := by
  refine (selectNode_runs r f n).bind fun row hrow => ?_
  cases row with
  | none =>
    rw [← hrow.1] at hn
    cases hn
  | some row =>
    refine Runs.pure ?_
    rw [Rows.row, ← hrow.1]
    rfl

theorem parentAndHasDeletedAt_runs (r : Rows) (f : NodeId → Bool) (n : NodeId) :
    Runs Models (r, f) (parentAndHasDeletedAt n)
      (fun o => (o.isSome → (r n).isSome ∧ o = some (r.parent n, (r.row n).deletedAt.isSome)) ∧
        (o = none → r.row n = .blank n)) (r, f) :=
  (selectNode_runs r f n).bind fun row hrow => Runs.pure <| by
    rw [Rows.parent, Rows.row, ← hrow.1]
    cases row with
    | none =>
      refine ⟨fun hsome => ?_, fun _ => rfl⟩
      cases hsome
    | some row =>
      refine ⟨fun _ => ⟨rfl, rfl⟩, fun hnone => ?_⟩
      cases hnone

theorem allNodes_runs (r : Rows) (f : NodeId → Bool) :
    Runs Models (r, f) (gets fun s => s.treeNodes.keys : Exec Error SqliteNodeStore _)
      (fun nodes => ∀ n, n ∈ nodes ↔ (r n).isSome) (r, f) := by
  refine Runs.gets fun s => ?_
  rintro ⟨rfl, -, -⟩ n
  rw [view, Option.isSome_map, AList.lookup_isSome, AList.mem_keys]

/-- The query for children is in their order. -/
theorem children_runs (r : Rows) (f : NodeId → Bool) (n : NodeId) :
    Runs Models (r, f) (children n) (r.IsChildren n) (r, f) := by
  unfold children
  split
  · rename_i htrash
    exact Runs.pure ⟨fun c => by simp [htrash], .nil⟩
  rename_i htrash
  refine Runs.gets fun s hs => ?_
  obtain ⟨rfl, -, hinv⟩ := hs
  refine ⟨fun c => ?_, ?_⟩
  · rw [and_iff_right htrash, parent_view, Option.bind_eq_some_iff, selectChildren, List.mem_map]
    simp only [(List.mergeSort_perm _ _).mem_iff, List.mem_filter, decide_eq_true_eq]
    constructor
    · rintro ⟨e, ⟨he, hparent⟩, rfl⟩
      exact ⟨e.2, AList.mem_lookup_iff.mpr he, hparent⟩
    · rintro ⟨row, hrow, hparent⟩
      exact ⟨⟨c, row⟩, ⟨AList.mem_lookup_iff.mp hrow, hparent⟩, rfl⟩
  · have hnodes : (s.treeNodes.entries.filter fun e => e.2.parent = some n).Pairwise
        fun a b => a.1 ≠ b.1 :=
      List.pairwise_map.mp (s.treeNodes.nodupKeys.sublist List.filter_sublist)
    have hsorted := pairwise_lt_mergeSort (fun e : Σ _ : NodeId, NodeRow => sqlKey e.1 e.2)
      (hnodes.imp fun hne he => hne (nodeToBytes_injective
        (Bytes.nats_injective (congrArg (fun key => (ofLex key).2) he))))
    rw [selectChildren, List.pairwise_map]
    refine hsorted.imp_of_mem fun {a b} ha hb hlt => ?_
    have hkey : ∀ e ∈ (s.treeNodes.entries.filter fun e => e.2.parent = some n).mergeSort
        (fun a b => sqlKey a.1 a.2 ≤ sqlKey b.1 b.2),
        ∃ key, e.2.orderKey = some key ∧ (s.view.orderKey e.1).getD [] = key := by
      intro e he
      rw [(List.mergeSort_perm _ _).mem_iff, List.mem_filter, decide_eq_true_eq] at he
      have hrow := AList.mem_lookup_iff.mpr he.1
      obtain ⟨hroot, hkey, -⟩ := hinv e.1 e.2 n hrow he.2
      obtain ⟨key, hkey⟩ := Option.isSome_iff_exists.mp (hkey htrash)
      refine ⟨key, hkey, ?_⟩
      rw [orderKey_view hroot, hrow, Option.bind_some, hkey]
      cases key <;> rfl
    obtain ⟨x, hx, hxs⟩ := hkey a ha
    obtain ⟨y, hy, hys⟩ := hkey b hb
    rw [hxs, hys]
    simpa only [sqlKey, hx, hy, Option.elim_some, Prod.Lex.toLex_lt_toLex, WithBot.coe_lt_coe,
      WithBot.coe_inj, nodeToBytes_lt_iff] using hlt

/-! ## Writes -/

/-- An update of columns is an update of a row and of its flag. -/
theorem update_runs (set : NodeRow → NodeRow) (G : Row → Row) (F : Bool → Bool)
    (hn : (r n).isSome) (hG : ∀ row, viewRow n (set row) = G (viewRow n row))
    (hF : ∀ row, (set row).tombstone = F row.tombstone)
    (hplaced : ∀ row p, (set row).parent = some p →
      (row.parent = some p ∧ (set row).orderKey = row.orderKey) ∨
        n ≠ NodeId.ROOT ∧ (p ≠ NodeId.TRASH → (set row).orderKey.isSome) ∧ (r p).isSome) :
    Runs Models (r, f) (update n set) (fun _ => True)
      (r.modify n G, Function.update f n (F (f n))) := by
  refine Runs.modify fun s hs => ?_
  obtain ⟨row, hrow, hview, hflag⟩ := hs.view_some hn
  rw [Rows.modify, hview, Option.map_some, ← hG, hflag, ← hF]
  refine hs.set (fun m => ?_) fun p hp => ?_
  · rw [lookup_updateTable, hrow]
    rfl
  · obtain ⟨hold, hkey⟩ | ⟨hroot, hkey, hparent⟩ := hplaced row p hp
    · rw [hkey]
      exact hs.2.2 n row p hrow hold
    · obtain ⟨rfl, -, -⟩ := hs
      rw [view, Option.isSome_map] at hparent
      exact ⟨hroot, hkey, hparent⟩

theorem ensureNode_runs (r : Rows) (f : NodeId → Bool) (n : NodeId) :
    Runs Models (r, f) (ensureNode n) (fun _ => True) (r.ensure n, f) := by
  refine Runs.modify fun s hs => ?_
  have hview : r n = (s.treeNodes.lookup n).map (viewRow n) := by
    obtain ⟨rfl, -, -⟩ := hs
    rfl
  cases hrow : s.treeNodes.lookup n with
  | some row =>
    rw [Rows.ensure_of_isSome (by rw [hview, hrow]; rfl)]
    exact hs
  | none =>
    have hflag : f n = false := by
      obtain ⟨-, rfl, -⟩ := hs
      rw [flags, hrow]
      rfl
    have hset : Models { s with treeNodes := s.treeNodes.insert n {} }
        (Function.update r n (some (viewRow n {})),
          Function.update f n ({} : NodeRow).tombstone) := by
      refine hs.set (fun m => ?_) fun p hp => by cases hp
      rcases eq_or_ne m n with rfl | hne
      · rw [if_pos rfl, AList.lookup_insert]
      · rw [if_neg hne, AList.lookup_insert_ne hne]
    rw [Rows.ensure_of_none (by rw [hview, hrow]; rfl)]
    rwa [show ({} : NodeRow).tombstone = f n from hflag.symm, Function.update_eq_self] at hset

/-- Behind `ensure_node` there is a row. -/
theorem ensured_runs {α : Type} {c : Exec Error SqliteNodeStore α} {Q : α → Prop}
    {a' : Rows × (NodeId → Bool)} (hn : (r n).isSome) (hc : Runs Models (r, f) c Q a') :
    Runs Models (r, f) (do ensureNode n; c) Q a' := by
  have hensure := ensureNode_runs r f n
  rw [Rows.ensure_of_isSome hn] at hensure
  exact hensure.bind fun _ _ => hc

theorem empty_models : Models {} (fun _ => none, fun _ => false) :=
  ⟨rfl, rfl, fun _ _ _ h => by cases h⟩

/-- A table with the row of `ROOT` alone. -/
theorem initial_models (hrow : ∀ m, s.treeNodes.lookup m =
    if m = NodeId.ROOT then some { orderKey := some [] } else none) :
    Models s (Rows.initial, fun _ => false) := by
  refine ⟨?_, ?_, fun m row p hm hp => ?_⟩
  · funext m
    rw [view, hrow]
    rcases eq_or_ne m NodeId.ROOT with rfl | hne
    · rfl
    · have hinitial : Rows.initial m = none := Function.update_of_ne hne _ _
      rw [if_neg hne]
      exact hinitial.symm
  · funext m
    rw [flags, hrow]
    split <;> rfl
  · rw [hrow] at hm
    split at hm
    · cases hm
      cases hp
    · cases hm

theorem reset_runs (a : Rows × (NodeId → Bool)) :
    Runs Models a reset (fun _ => True) (Rows.initial, fun _ => false) := by
  intro s _
  obtain ⟨s', hrun, hrow⟩ : ∃ s', reset s = some (.ok (), s') ∧ ∀ m, s'.treeNodes.lookup m =
      if m = NodeId.ROOT then some { orderKey := some [] } else none := by
    refine ⟨_, rfl, fun m => (lookup_updateTable _ _ _ m).trans ?_⟩
    rcases eq_or_ne m NodeId.ROOT with rfl | hne
    · rfl
    · rw [if_neg hne, if_neg hne]
      exact (AList.lookup_insert_ne hne).trans (AList.lookup_empty m)
  exact ⟨(), s', hrun, trivial, initial_models hrow⟩

/-- The table of a new database: the schema puts `ROOT` into it. -/
def new : SqliteNodeStore where
  treeNodes := AList.insert NodeId.ROOT { orderKey := some [] } ∅

theorem new_models : Models new (Rows.initial, fun _ => false) := by
  have hrow : ∀ m, new.treeNodes.lookup m =
      if m = NodeId.ROOT then some { orderKey := some [] } else none := fun m => by
    rcases eq_or_ne m NodeId.ROOT with rfl | hne
    · exact AList.lookup_insert _
    · rw [if_neg hne]
      exact (AList.lookup_insert_ne hne).trans (AList.lookup_empty m)
  exact initial_models hrow

/-! ## The instance -/

/-- `ROOT` is not hung anywhere; no key is kept under `TRASH`, and no empty one is read. -/
def backend : Backend where
  pinned n := n = NodeId.ROOT
  keyUnder p key := if p = NodeId.TRASH then none else blob (some key)
  firstDelete := VersionVector.new.merge

theorem pinned_iff : backend.pinned n = true ↔ n = NodeId.ROOT := decide_eq_true_iff

theorem keyUnder_trash (key : Bytes) : backend.keyUnder NodeId.TRASH key = none := by
  simp [backend]

theorem keyUnder_of_ne {key : Bytes} (hp : p ≠ NodeId.TRASH) :
    backend.keyUnder p key = blob (some key) := if_neg hp

/-- A row is hung somewhere, or nowhere. -/
theorem place_runs (parent : Option NodeId) (stored : Option Bytes) (hn : (r n).isSome)
    (hroot : n ≠ NodeId.ROOT)
    (hp : ∀ p, parent = some p → (p ≠ NodeId.TRASH → stored.isSome) ∧ (r p).isSome) :
    Runs Models (r, f) (update n fun row => { row with parent, orderKey := stored })
      (fun _ => True) (r.modify n fun row => { row with parent, orderKey := blob stored }, f) := by
  have hupdate := update_runs (f := f) (fun row => { row with parent, orderKey := stored })
    (fun row => { row with parent, orderKey := blob stored }) id hn
    (fun row => by rw [viewRow, viewRow, if_neg hroot]) (fun _ => rfl)
    fun row p h => .inr ⟨hroot, hp p h⟩
  rwa [id, Function.update_eq_self] at hupdate

theorem detachAttach_runs (r : Rows) (f : NodeId → Bool) (n p : NodeId) (key : Bytes)
    (hn : (r n).isSome) (hp : (r p).isSome) :
    Runs Models (r, f) (do detach n; attach n p key) (fun _ => True)
      (r.reparent backend n p key, f) := by
  by_cases hroot : n = NodeId.ROOT
  · rw [Rows.reparent, if_pos (pinned_iff.mpr hroot)]
    unfold detach attach
    rw [if_pos hroot, if_pos hroot]
    exact (Runs.pure (Q := fun _ => True) trivial).bind fun _ _ => Runs.pure trivial
  rw [Rows.reparent, if_neg fun hpin => hroot (pinned_iff.mp hpin)]
  have hdetach : Runs Models (r, f) (detach n) (fun _ => True)
      (r.modify n fun row => { row with parent := none, orderKey := none }, f) := by
    unfold detach
    rw [if_neg hroot]
    exact ensured_runs hn (place_runs none none hn hroot fun p h => by cases h)
  refine hdetach.bind fun _ _ => ?_
  have hn' : (r.modify n (fun row => { row with parent := none, orderKey := none }) n).isSome :=
    Rows.isSome_modify.mpr hn
  have hp' : (r.modify n (fun row => { row with parent := none, orderKey := none }) p).isSome :=
    Rows.isSome_modify.mpr hp
  unfold attach
  rw [if_neg hroot]
  refine ensured_runs hn' (ensured_runs hp' ?_)
  split
  · rename_i htrash
    have hplace := place_runs (f := f) (some p) none hn' hroot fun q h => by
      cases h
      exact ⟨fun hne => absurd htrash hne, hp'⟩
    rw [Rows.modify_modify] at hplace
    rw [htrash, keyUnder_trash]
    rw [htrash] at hplace
    exact hplace
  · rename_i htrash
    have hplace := place_runs (f := f) (some p) (some key) hn' hroot fun q h => by
      cases h
      exact ⟨fun _ => rfl, hp'⟩
    rw [Rows.modify_modify] at hplace
    rw [keyUnder_of_ne htrash]
    exact hplace

theorem setTombstone_runs (b : Bool) (hn : (r n).isSome) :
    Runs Models (r, f) (setTombstone n b) (fun _ => True) (r, Function.update f n b) := by
  refine ensured_runs hn ?_
  have hupdate := update_runs (f := f) (fun row => { row with tombstone := b }) id (fun _ => b) hn
    (fun _ => rfl) (fun _ => rfl) fun row p hp => .inl ⟨hp, rfl⟩
  have hid : r.modify n id = r := by simp [Rows.modify]
  rwa [hid] at hupdate

theorem mergeLastChange_runs (delta : VersionVector) (hn : (r n).isSome) :
    Runs Models (r, f) (mergeLastChange n delta) (fun _ => True)
      (r.modify n fun row => { row with lastChange := row.lastChange.merge delta }, f) := by
  refine ensured_runs hn ((lastChange_runs f hn).bind fun vv hvv => ?_)
  subst hvv
  obtain ⟨row, hrow⟩ := Option.isSome_iff_exists.mp hn
  set vv := (r.row n).lastChange.merge delta with hvv
  have hupdate := update_runs (f := f) (fun row => { row with lastChange := some vv })
    (fun row => { row with lastChange := vv }) id hn (fun _ => rfl) (fun _ => rfl)
    fun row p hp => .inl ⟨hp, rfl⟩
  rw [id, Function.update_eq_self] at hupdate
  have hmerge : (r.modify n fun row => { row with lastChange := row.lastChange.merge delta }) =
      r.modify n fun row => { row with lastChange := vv } := by
    rw [Rows.modify, Rows.modify, hvv, Rows.row, hrow]
    rfl
  rw [hmerge]
  exact hupdate

theorem mergeDeletedAt_runs (delta : VersionVector) (hn : (r n).isSome) :
    Runs Models (r, f) (mergeDeletedAt n delta) (fun _ => True)
      (r.mergeDeletedAt backend n delta, f) := by
  refine ensured_runs hn ((deletedAt_runs r f n).bind fun deleted hdeleted => ?_)
  subst hdeleted
  obtain ⟨row, hrow⟩ := Option.isSome_iff_exists.mp hn
  set vv := ((r.row n).deletedAt.getD .new).merge delta with hvv
  have hupdate := update_runs (f := f) (fun row => { row with deletedAt := some vv })
    (fun row => { row with deletedAt := some vv }) id hn (fun _ => rfl) (fun _ => rfl)
    fun row p hp => .inl ⟨hp, rfl⟩
  rw [id, Function.update_eq_self] at hupdate
  have hmerge : r.mergeDeletedAt backend n delta =
      r.modify n fun row => { row with deletedAt := some vv } := by
    rw [Rows.mergeDeletedAt, Rows.modify, Rows.modify, hvv, Rows.row, hrow]
    cases hdeleted : row.deletedAt <;> simp [hdeleted, backend]
  rw [hmerge]
  exact hupdate

instance : LawfulNodeStore SqliteNodeStore where
  backend := backend
  Models := Models
  reset := reset_runs
  ensureNode := ensureNode_runs
  nodeExists := nodeExists_runs
  parent := parent_runs
  orderKey := orderKey_runs
  children r f n _ := children_runs r f n
  detachAttach r f n p key hn hp _ := detachAttach_runs r f n p key hn hp
  tombstone r f n _ := column_runs (fun row => (row.map (·.tombstone)).getD false)
    fun row _ hflag => hflag
  setTombstone r f n b hn := setTombstone_runs b hn
  lastChange r f n hn := lastChange_runs f hn
  mergeLastChange r f n delta hn := mergeLastChange_runs delta hn
  deletedAt r f n _ := deletedAt_runs r f n
  mergeDeletedAt r f n delta hn := mergeDeletedAt_runs delta hn
  parentAndHasDeletedAt r f n := (parentAndHasDeletedAt_runs r f n).imp fun _ h => h.1
  parent_isSome s r f hs n p h := by
    obtain ⟨rfl, -, hinv⟩ := hs
    rw [parent_view] at h
    obtain ⟨row, hrow, hparent⟩ := Option.bind_eq_some_iff.mp h
    rw [view, Option.isSome_map]
    exact (hinv n row p hrow hparent).2.2

instance : CompleteNodeStore SqliteNodeStore where
  parentAndHasDeletedAt := parentAndHasDeletedAt_runs
  allNodes := allNodes_runs

end SqliteNodeStore

end SqliteExt

end Treecrdt
