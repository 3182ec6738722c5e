import Mathlib.Data.List.AList
import TreecrdtLean.Spec.Alike
import TreecrdtLean.Store.Postgres

/-!
# The node store in Postgres (`treecrdt-postgres-rs`, `store.rs`, `PgNodeStore`)

The rows of a document in `treecrdt_nodes`, behind a cache of rows. All columns are written through,
but for `last_change`, whose writes wait for `flushLastChange`.

What a store stands for are the cached rows and, where nothing is cached, those of the table
(`PgNodeStore.row`). Seen so, its methods are the operations on rows of a backend that leaves `ROOT`
alone and keeps no key under `TRASH`.
-/

namespace Treecrdt

theorem Rows.ensure_of_isSome {r : Rows} {n : NodeId} (h : (r n).isSome) : r.ensure n = r := by
  obtain ⟨row, hrow⟩ := Option.isSome_iff_exists.mp h
  rw [Rows.ensure, Rows.row, hrow, Option.getD_some, ← hrow, Function.update_eq_self]

theorem Rows.ensure_of_none {r : Rows} {n : NodeId} (h : r n = none) :
    r.ensure n = Function.update r n (some (.blank n)) := by
  rw [Rows.ensure, Rows.row, h]
  rfl

namespace Postgres

open Exec

/-- A row of `treecrdt_nodes`. The JSON in a column of a vector is the vector. -/
structure NodeRow where
  parent : Option NodeId := none
  orderKey : Option Bytes := none
  tombstone : Bool := false
  lastChange : Option VersionVector := none
  deletedAt : Option VersionVector := none
  deriving DecidableEq

/-- The rows of a document in `treecrdt_nodes`; its key is the node. -/
abbrev NodeTable := AList fun _ : NodeId => NodeRow

structure PgNodeStore where
  table : NodeTable := ∅
  /-- What is known of the rows: a row, or that there is none. -/
  cache : AList fun _ : NodeId => Option NodeRow := ∅
  pendingLastChange : List NodeId := []

namespace PgNodeStore

/-- `ORDER BY order_key, node`, keys that are `NULL` last. -/
def sqlKey (node : NodeId) (row : NodeRow) : WithTop (List ℕ) ×ₗ List ℕ :=
  toLex (row.orderKey.elim ⊤ fun key => ((key.nats : List ℕ) : WithTop (List ℕ)),
    (nodeToBytes node).nats)

/-- `SELECT .. WHERE .. ORDER BY order_key, node`. -/
def selectRows (table : NodeTable) (condition : NodeId → NodeRow → Bool) :
    List (Σ _ : NodeId, NodeRow) :=
  (table.entries.filter fun e => condition e.1 e.2).mergeSort fun a b =>
    sqlKey a.1 a.2 ≤ sqlKey b.1 b.2

/-- `SELECT node ..`. -/
def select (table : NodeTable) (condition : NodeRow → Bool) : List NodeId :=
  (selectRows table fun _ => condition).map Sigma.fst

/-- `UPDATE treecrdt_nodes SET .. WHERE node = ..`. -/
def updateTable (node : NodeId) (set : NodeRow → NodeRow) (table : NodeTable) : NodeTable :=
  match table.lookup node with
  | some row => table.insert node (set row)
  | none => table

/-- The update of a row in the cache, where there is one. -/
def updateCache (node : NodeId) (set : NodeRow → NodeRow)
    (cache : AList fun _ : NodeId => Option NodeRow) : AList fun _ : NodeId => Option NodeRow :=
  match cache.lookup node with
  | some (some row) => cache.insert node (some (set row))
  | _ => cache

def nodeRow (node : NodeId) : Exec Error PgNodeStore (Option NodeRow) := fun s =>
  match s.cache.lookup node with
  | some cached => some (.ok cached, s)
  | none =>
    let loaded := s.table.lookup node
    some (.ok loaded, { s with cache := s.cache.insert node loaded })

def reset : Exec Error PgNodeStore Unit := modify fun _ =>
  { table := AList.singleton NodeId.ROOT { orderKey := some [] }
    cache := AList.singleton NodeId.ROOT (some { orderKey := some [] })
    pendingLastChange := [] }

def ensureNode (node : NodeId) : Exec Error PgNodeStore Unit := modify fun s =>
  match s.cache.lookup node with
  | some (some _) => s
  | _ =>
    -- `INSERT .. ON CONFLICT DO NOTHING`
    match s.table.lookup node with
    | some _ => s
    | none => { s with table := s.table.insert node {}, cache := s.cache.insert node (some {}) }

/-- A write of columns, through the cache. -/
def write (node : NodeId) (set : NodeRow → NodeRow) : Exec Error PgNodeStore Unit :=
  modify fun s => { s with
    table := updateTable node set s.table
    cache := updateCache node set s.cache }

def children (parent : NodeId) : Exec Error PgNodeStore (List NodeId) :=
  if parent = NodeId.TRASH then return []
  else gets fun s => select s.table fun row => row.parent = some parent

def detach (node : NodeId) : Exec Error PgNodeStore Unit := do
  if node = NodeId.ROOT then
    return
  ensureNode node
  write node fun row => { row with parent := none, orderKey := none }

def attach (node parent : NodeId) (orderKey : Bytes) : Exec Error PgNodeStore Unit := do
  if node = NodeId.ROOT then
    return
  ensureNode node
  ensureNode parent
  if parent = NodeId.TRASH then
    write node fun row => { row with parent := some parent, orderKey := none }
  else
    write node fun row => { row with parent := some parent, orderKey := some orderKey }

def setTombstone (node : NodeId) (tombstone : Bool) : Exec Error PgNodeStore Unit := do
  ensureNode node
  write node fun row => { row with tombstone }

def lastChange (node : NodeId) : Exec Error PgNodeStore VersionVector := do
  return ((← nodeRow node).bind (·.lastChange)).getD .new

def mergeLastChange (node : NodeId) (delta : VersionVector) : Exec Error PgNodeStore Unit := do
  ensureNode node
  let vv ← lastChange node
  modify fun s => { s with
    cache := updateCache node (fun row => { row with lastChange := some (vv.merge delta) }) s.cache
    pendingLastChange := node :: s.pendingLastChange }

def deletedAt (node : NodeId) : Exec Error PgNodeStore (Option VersionVector) := do
  return (← nodeRow node).bind (·.deletedAt)

def mergeDeletedAt (node : NodeId) (delta : VersionVector) : Exec Error PgNodeStore Unit := do
  ensureNode node
  let vv := (← deletedAt node).getD .new
  write node fun row => { row with deletedAt := some (vv.merge delta) }

instance : NodeStore PgNodeStore where
  reset := reset
  ensureNode := ensureNode
  nodeExists node := do return (← nodeRow node).isSome
  parent node := do return (← nodeRow node).bind (·.parent)
  orderKey node := do return (← nodeRow node).bind (·.orderKey)
  children := children
  detach := detach
  attach := attach
  tombstone node := do return ((← nodeRow node).map (·.tombstone)).getD false
  setTombstone := setTombstone
  lastChange := lastChange
  mergeLastChange := mergeLastChange
  deletedAt := deletedAt
  mergeDeletedAt := mergeDeletedAt
  allNodes := gets fun s => s.table.keys

/-- The flush of a node: what the cache has of it goes to the table. -/
def flushNode (cache : AList fun _ : NodeId => Option NodeRow) (table : NodeTable)
    (node : NodeId) : NodeTable :=
  match (cache.lookup node).join.bind (·.lastChange) with
  | some vv => updateTable node (fun row => { row with lastChange := some vv }) table
  | none => table

def flushLastChange : Exec Error PgNodeStore Unit := modify fun s =>
  { s with
    table := s.pendingLastChange.foldl (flushNode s.cache) s.table
    pendingLastChange := [] }

/-! ## What a store stands for -/

/-- The row of a node: what is cached, and else what is in the table. -/
def rowAt (s : PgNodeStore) (n : NodeId) : Option NodeRow :=
  match s.cache.lookup n with
  | some cached => cached
  | none => s.table.lookup n

/-- The row but for the column that is written later. -/
def settled (row : NodeRow) : NodeRow := { row with lastChange := none }

/-- What the cache has of a row is what the table has, but for changes that are pending. -/
structure Coherent (s : PgNodeStore) : Prop where
  settled : ∀ n cached, s.cache.lookup n = some cached →
    cached.map settled = (s.table.lookup n).map settled
  written : ∀ n cached, s.cache.lookup n = some cached → n ∉ s.pendingLastChange →
    cached = s.table.lookup n
  pending : ∀ n ∈ s.pendingLastChange, ∃ row, s.cache.lookup n = some (some row) ∧
    row.lastChange.isSome

/-- The key of `ROOT` is never read. -/
def viewRow (n : NodeId) (row : NodeRow) : Row :=
  { parent := row.parent
    orderKey := if n = NodeId.ROOT then some [] else row.orderKey
    lastChange := row.lastChange.getD .new
    deletedAt := row.deletedAt }

def view (s : PgNodeStore) : Rows := fun n => (s.rowAt n).map (viewRow n)

def flags (s : PgNodeStore) : NodeId → Bool := fun n => ((s.rowAt n).map (·.tombstone)).getD false

structure Inv (s : PgNodeStore) : Prop where
  coherent : s.Coherent
  /-- `ROOT` has no parent, and a node under another one than `TRASH` has a key. -/
  placed : ∀ n row p, s.rowAt n = some row → row.parent = some p →
    n ≠ NodeId.ROOT ∧ (p ≠ NodeId.TRASH → row.orderKey.isSome) ∧ (s.rowAt p).isSome

def Models (s : PgNodeStore) (a : Rows × (NodeId → Bool)) : Prop :=
  s.view = a.1 ∧ s.flags = a.2 ∧ s.Inv

variable {s s' : PgNodeStore} {r : Rows} {f : NodeId → Bool} {n p : NodeId} {row : NodeRow}

theorem Coherent.rowAt (h : s.Coherent) (n : NodeId) :
    (s.rowAt n).map PgNodeStore.settled = (s.table.lookup n).map PgNodeStore.settled := by
  unfold PgNodeStore.rowAt
  cases hcache : s.cache.lookup n with
  | none => rfl
  | some cached => exact h.settled n cached hcache

/-- The table has a row of a node that there is, as far as it is settled. -/
theorem Coherent.table (h : s.Coherent) (hrow : s.rowAt n = some row) :
    ∃ stored, s.table.lookup n = some stored ∧ stored.parent = row.parent ∧
      stored.orderKey = row.orderKey ∧ stored.tombstone = row.tombstone := by
  have hsettled := h.rowAt n
  rw [hrow] at hsettled
  cases hstored : s.table.lookup n with
  | none =>
    rw [hstored] at hsettled
    cases hsettled
  | some stored =>
    rw [hstored] at hsettled
    have hsame := Option.some.inj hsettled
    exact ⟨stored, rfl, (congrArg NodeRow.parent hsame).symm,
      (congrArg NodeRow.orderKey hsame).symm, (congrArg NodeRow.tombstone hsame).symm⟩

theorem Coherent.table_none (h : s.Coherent) :
    s.table.lookup n = none ↔ s.rowAt n = none := by
  rw [← Option.map_eq_none_iff (f := PgNodeStore.settled), ← h.rowAt n, Option.map_eq_none_iff]

theorem view_isSome (h : (s.view n).isSome) : ∃ row, s.rowAt n = some row := by
  rw [view, Option.isSome_map] at h
  exact Option.isSome_iff_exists.mp h

theorem parent_view : s.view.parent n = (s.rowAt n).bind (·.parent) := by
  unfold Rows.parent view
  cases s.rowAt n <;> rfl

theorem orderKey_view (hn : n ≠ NodeId.ROOT) :
    s.view.orderKey n = (s.rowAt n).bind (·.orderKey) := by
  unfold Rows.orderKey view
  cases s.rowAt n with
  | none => rfl
  | some row => exact if_neg hn

theorem row_view (hrow : s.rowAt n = some row) : s.view.row n = viewRow n row := by
  rw [Rows.row, view, hrow]
  rfl

theorem flags_eq (hrow : s.rowAt n = some row) : s.flags n = row.tombstone := by
  rw [flags, hrow]
  rfl

/-- A store with the same rows. -/
theorem Models.of_rows (h : Models s (r, f)) (hrows : ∀ m, s'.rowAt m = s.rowAt m)
    (hcoherent : s'.Coherent) : Models s' (r, f) := by
  obtain ⟨rfl, rfl, hinv⟩ := h
  have heq : s'.rowAt = s.rowAt := funext hrows
  refine ⟨by unfold view; rw [heq], by unfold flags; rw [heq], hcoherent, ?_⟩
  rw [heq]
  exact hinv.placed

/-- A store with another row of one node. -/
theorem Models.set (h : Models s (r, f)) (s' : PgNodeStore) (hrow : s'.rowAt n = some row)
    (hrows : ∀ m, m ≠ n → s'.rowAt m = s.rowAt m) (hcoherent : s'.Coherent)
    (hplaced : ∀ p, row.parent = some p → n ≠ NodeId.ROOT ∧
      (p ≠ NodeId.TRASH → row.orderKey.isSome) ∧ (s.rowAt p).isSome) :
    Models s' (Function.update r n (some (viewRow n row)),
      Function.update f n row.tombstone) := by
  obtain ⟨rfl, rfl, hinv⟩ := h
  have hsome : ∀ p, (s.rowAt p).isSome → (s'.rowAt p).isSome := by
    intro p hp
    rcases eq_or_ne p n with rfl | hne
    · rw [hrow]
      rfl
    · rwa [hrows p hne]
  refine ⟨?_, ?_, hcoherent, fun m other p hm hp => ?_⟩
  · funext m
    rcases eq_or_ne m n with rfl | hne
    · rw [view, hrow]
      simp
    · rw [view, hrows m hne]
      simp [view, hne]
  · funext m
    rcases eq_or_ne m n with rfl | hne
    · rw [flags, hrow]
      simp
    · rw [flags, hrows m hne]
      simp [flags, hne]
  · rcases eq_or_ne m n with rfl | hne
    · cases hrow.symm.trans hm
      obtain ⟨hroot, hkey, hparent⟩ := hplaced p hp
      exact ⟨hroot, hkey, hsome p hparent⟩
    · rw [hrows m hne] at hm
      obtain ⟨hroot, hkey, hparent⟩ := hinv.placed m other p hm hp
      exact ⟨hroot, hkey, hsome p hparent⟩

/-! ## Reads -/

theorem Models.view_some (h : Models s (r, f)) (hn : (r n).isSome) :
    ∃ row, s.rowAt n = some row ∧ r n = some (viewRow n row) := by
  obtain ⟨rfl, -, -⟩ := h
  obtain ⟨row, hrow⟩ := view_isSome hn
  exact ⟨row, hrow, by rw [view, hrow]; rfl⟩

/-- A read of a row caches it. -/
theorem nodeRow_run (hs : Models s (r, f)) (n : NodeId) :
    ∃ s', nodeRow n s = some (.ok (s.rowAt n), s') ∧ Models s' (r, f) ∧
      s'.cache.lookup n = some (s.rowAt n) := by
  have hrow : s.rowAt n = match s.cache.lookup n with
    | some cached => cached
    | none => s.table.lookup n := rfl
  unfold nodeRow
  cases hcache : s.cache.lookup n with
  | some cached =>
    rw [hcache] at hrow
    exact ⟨s, by rw [hrow], hs, by rw [hcache, hrow]⟩
  | none =>
    rw [hcache] at hrow
    refine ⟨_, by rw [hrow], hs.of_rows (fun m => ?_) ⟨fun m cached hm => ?_,
      fun m cached hm hpending => ?_, fun m hm => ?_⟩, by rw [AList.lookup_insert, hrow]⟩
    · rcases eq_or_ne m n with rfl | hne
      · rw [hrow]
        unfold rowAt
        rw [AList.lookup_insert]
      · unfold rowAt
        rw [AList.lookup_insert_ne hne]
    · rcases eq_or_ne m n with rfl | hne
      · rw [AList.lookup_insert] at hm
        rw [Option.some.inj hm]
      · rw [AList.lookup_insert_ne hne] at hm
        exact hs.2.2.coherent.settled m cached hm
    · rcases eq_or_ne m n with rfl | hne
      · rw [AList.lookup_insert] at hm
        exact (Option.some.inj hm).symm
      · rw [AList.lookup_insert_ne hne] at hm
        exact hs.2.2.coherent.written m cached hm hpending
    · obtain ⟨row, hcached, hlast⟩ := hs.2.2.coherent.pending m hm
      have hne : m ≠ n := by
        rintro rfl
        rw [hcache] at hcached
        cases hcached
      exact ⟨row, by rw [AList.lookup_insert_ne hne, hcached], hlast⟩

theorem nodeRow_runs (r : Rows) (f : NodeId → Bool) (n : NodeId) :
    Runs Models (r, f) (nodeRow n)
      (fun row => row.map (viewRow n) = r n ∧ (row.map (·.tombstone)).getD false = f n)
      (r, f) := by
  intro s hs
  obtain ⟨s', hrun, hs', -⟩ := nodeRow_run hs n
  refine ⟨_, s', hrun, ?_, hs'⟩
  obtain ⟨rfl, rfl, -⟩ := hs
  exact ⟨rfl, rfl⟩

/-- A read of a column. -/
theorem column_runs {α : Type} (column : Option NodeRow → α) {value : α}
    (h : ∀ row : Option NodeRow, row.map (viewRow n) = r n →
      (row.map (·.tombstone)).getD false = f n → column row = value) :
    Runs Models (r, f) (do return column (← nodeRow n)) (· = value) (r, f) :=
  (nodeRow_runs r f n).bind fun row hrow => Runs.pure (h row hrow.1 hrow.2)

/-! ## Writes -/

theorem lookup_updateTable (table : NodeTable) (set : NodeRow → NodeRow) (n m : NodeId) :
    (updateTable n set table).lookup m =
      if m = n then (table.lookup n).map set else table.lookup m := by
  unfold updateTable
  rcases eq_or_ne m n with rfl | hne
  · cases hrow : table.lookup m <;> simp [hrow]
  · cases hrow : table.lookup n <;> simp [hne]

theorem lookup_updateCache (cache : AList fun _ : NodeId => Option NodeRow)
    (set : NodeRow → NodeRow) (n m : NodeId) :
    (updateCache n set cache).lookup m =
      if m = n then (cache.lookup n).map (Option.map set) else cache.lookup m := by
  unfold updateCache
  rcases eq_or_ne m n with rfl | hne
  · split
    · rename_i row hrow
      simp [hrow]
    · rename_i hnone
      rw [if_pos rfl]
      rcases hrow : cache.lookup m with _ | _ | row
      · rfl
      · rfl
      · exact absurd hrow (hnone row)
  · rw [if_neg hne]
    split
    · rw [AList.lookup_insert_ne hne]
    · rfl

/-- The store behind a write of columns. -/
def wrote (n : NodeId) (set : NodeRow → NodeRow) (s : PgNodeStore) : PgNodeStore :=
  { s with table := updateTable n set s.table, cache := updateCache n set s.cache }

theorem rowAt_wrote (set : NodeRow → NodeRow) (m : NodeId) :
    (wrote n set s).rowAt m = if m = n then (s.rowAt n).map set else s.rowAt m := by
  unfold rowAt wrote
  simp only [lookup_updateTable, lookup_updateCache]
  rcases eq_or_ne m n with rfl | hne
  · simp only [if_true]
    cases s.cache.lookup m <;> rfl
  · simp only [if_neg hne]

/-- A write that has nothing to do with the column that is written later. -/
def Writes (set : NodeRow → NodeRow) : Prop :=
  ∀ row vv, set { row with lastChange := vv } = { set row with lastChange := vv }

theorem Writes.settled_comp {set : NodeRow → NodeRow} (h : Writes set) :
    settled ∘ set = set ∘ settled :=
  funext fun row => (h row none).symm

theorem Writes.lastChange_eq {set : NodeRow → NodeRow} (h : Writes set) (row : NodeRow) :
    (set row).lastChange = row.lastChange := by
  rw [show set row = { set row with lastChange := row.lastChange } from h row row.lastChange]

theorem Coherent.write {set : NodeRow → NodeRow} (h : s.Coherent) (hset : Writes set) :
    (wrote n set s).Coherent where
  settled m cached hm := by
    simp only [wrote, lookup_updateTable, lookup_updateCache] at hm ⊢
    rcases eq_or_ne m n with rfl | hne
    · rw [if_pos rfl] at hm ⊢
      obtain ⟨old, hold, rfl⟩ := Option.map_eq_some_iff.mp hm
      have hsame := congrArg (Option.map set) (h.settled m old hold)
      simp only [Option.map_map] at hsame ⊢
      rwa [hset.settled_comp]
    · rw [if_neg hne] at hm ⊢
      exact h.settled m cached hm
  written m cached hm hpending := by
    simp only [wrote, lookup_updateTable, lookup_updateCache] at hm hpending ⊢
    rcases eq_or_ne m n with rfl | hne
    · rw [if_pos rfl] at hm ⊢
      obtain ⟨old, hold, rfl⟩ := Option.map_eq_some_iff.mp hm
      rw [h.written m old hold hpending]
    · rw [if_neg hne] at hm ⊢
      exact h.written m cached hm hpending
  pending m hm := by
    obtain ⟨row, hrow, hlast⟩ := h.pending m hm
    simp only [wrote, lookup_updateCache]
    rcases eq_or_ne m n with rfl | hne
    · exact ⟨set row, by rw [if_pos rfl, hrow]; rfl, by rwa [hset.lastChange_eq]⟩
    · exact ⟨row, by rw [if_neg hne, hrow], hlast⟩

/-- A write of columns is an update of a row and of its flag. -/
theorem write_runs (set : NodeRow → NodeRow) (G : Row → Row) (F : Bool → Bool)
    (hn : (r n).isSome) (hset : Writes set) (hG : ∀ row, viewRow n (set row) = G (viewRow n row))
    (hF : ∀ row, (set row).tombstone = F row.tombstone)
    (hplaced : ∀ row p, (set row).parent = some p →
      (row.parent = some p ∧ (set row).orderKey = row.orderKey) ∨
        n ≠ NodeId.ROOT ∧ (p ≠ NodeId.TRASH → (set row).orderKey.isSome) ∧ (r p).isSome) :
    Runs Models (r, f) (write n set) (fun _ => True)
      (r.modify n G, Function.update f n (F (f n))) := by
  refine Runs.modify fun s hs => ?_
  obtain ⟨row, hrow, hview⟩ := hs.view_some hn
  have hset' : (wrote n set s).rowAt n = some (set row) := by
    rw [rowAt_wrote, if_pos rfl, hrow]
    rfl
  have hflag : f n = row.tombstone := by
    obtain ⟨-, rfl, -⟩ := hs
    exact flags_eq hrow
  rw [Rows.modify, hview, Option.map_some, ← hG, hflag, ← hF]
  refine hs.set _ hset' (fun m hm => ?_) (hs.2.2.coherent.write hset) fun p hp => ?_
  · exact (rowAt_wrote set m).trans (if_neg hm)
  · obtain ⟨hold, hkey⟩ | ⟨hroot, hkey, hparent⟩ := hplaced row p hp
    · rw [hkey]
      exact hs.2.2.placed n row p hrow hold
    · obtain ⟨rfl, -, -⟩ := hs
      exact ⟨hroot, hkey, Option.isSome_iff_exists.mpr (view_isSome hparent)⟩

theorem lookup_singleton {α : Type} (row : α) (n m : NodeId) :
    (AList.singleton (β := fun _ => α) n row).lookup m = if m = n then some row else none := by
  rcases eq_or_ne m n with rfl | hne
  · rw [if_pos rfl]
    exact AList.mem_lookup_iff.mpr (List.mem_singleton_self _)
  · rw [if_neg hne]
    exact AList.lookup_eq_none.mpr fun hmem => hne (List.mem_singleton.mp hmem)

theorem reset_runs (a : Rows × (NodeId → Bool)) :
    Runs Models a reset (fun _ => True) (Rows.initial, fun _ => false) := by
  refine Runs.modify fun s _ => ?_
  have hrow : ∀ m, rowAt
      { table := AList.singleton NodeId.ROOT { orderKey := some [] }
        cache := AList.singleton NodeId.ROOT (some { orderKey := some [] }) } m =
      if m = NodeId.ROOT then some { orderKey := some [] } else none := by
    intro m
    unfold rowAt
    simp only [lookup_singleton]
    split <;> simp_all
  refine ⟨?_, ?_, ⟨⟨fun m cached hm => ?_, fun m cached hm _ => ?_, fun m hm => by cases hm⟩,
    fun m row p hm hp => ?_⟩⟩
  · funext m
    rw [view, hrow]
    rcases eq_or_ne m NodeId.ROOT with rfl | hne
    · rfl
    · have hinitial : Rows.initial m = none := Function.update_of_ne hne _ _
      rw [if_neg hne]
      exact hinitial.symm
  · funext m
    rw [flags, hrow]
    split <;> rfl
  · rw [lookup_singleton] at hm ⊢
    split at hm
    · cases hm
      rw [if_pos ‹_›]
    · cases hm
  · rw [lookup_singleton] at hm ⊢
    split at hm
    · cases hm
      rw [if_pos ‹_›]
    · cases hm
  · rw [hrow] at hm
    split at hm
    · cases hm
      cases hp
    · cases hm

theorem ensureNode_runs (r : Rows) (f : NodeId → Bool) (n : NodeId) :
    Runs Models (r, f) (ensureNode n) (fun _ => True) (r.ensure n, f) := by
  refine Runs.modify fun s hs => ?_
  have hview : r n = (s.rowAt n).map (viewRow n) := by
    obtain ⟨rfl, -, -⟩ := hs
    rfl
  cases hstored : s.table.lookup n with
  | some stored =>
    have hsame : (match s.cache.lookup n with
        | some (some _) => s
        | _ => s) = s := by split <;> rfl
    have hsome : (r n).isSome := by
      rw [hview, Option.isSome_map]
      by_contra hnone
      rw [Bool.not_eq_true, Option.isSome_eq_false_iff, Option.isNone_iff_eq_none] at hnone
      rw [hs.2.2.coherent.table_none.mpr hnone] at hstored
      cases hstored
    rwa [Rows.ensure_of_isSome hsome, hsame]
  | none =>
    have hnone : s.rowAt n = none := hs.2.2.coherent.table_none.mp hstored
    have hcache : ∀ row, s.cache.lookup n ≠ some (some row) := by
      intro row hrow
      rw [rowAt, hrow] at hnone
      cases hnone
    have hnew : (match s.cache.lookup n with
        | some (some _) => s
        | _ => { s with table := s.table.insert n {}, cache := s.cache.insert n (some {}) }) =
        { s with table := s.table.insert n {}, cache := s.cache.insert n (some {}) } := by
      split
      · exact absurd ‹_› (hcache _)
      · rfl
    have hflag : f n = false := by
      obtain ⟨-, rfl, -⟩ := hs
      rw [flags, hnone]
      rfl
    rw [hnew, Rows.ensure_of_none (by rw [hview, hnone]; rfl)]
    have hset := hs.set
      { s with table := s.table.insert n {}, cache := s.cache.insert n (some {}) }
      (show rowAt _ n = some {} by rw [rowAt, AList.lookup_insert])
      (fun m hm => by rw [rowAt, rowAt, AList.lookup_insert_ne hm, AList.lookup_insert_ne hm])
      ⟨fun m cached hm => ?_, fun m cached hm hpending => ?_, fun m hm => ?_⟩
      (fun p hp => by cases hp)
    · rwa [show ({} : NodeRow).tombstone = f n from hflag.symm, Function.update_eq_self] at hset
    · rcases eq_or_ne m n with rfl | hne
      · rw [AList.lookup_insert] at hm ⊢
        rw [← Option.some.inj hm]
      · rw [AList.lookup_insert_ne hne] at hm ⊢
        exact hs.2.2.coherent.settled m cached hm
    · rcases eq_or_ne m n with rfl | hne
      · rw [AList.lookup_insert] at hm ⊢
        exact (Option.some.inj hm).symm
      · rw [AList.lookup_insert_ne hne] at hm ⊢
        exact hs.2.2.coherent.written m cached hm hpending
    · obtain ⟨row, hrow, hlast⟩ := hs.2.2.coherent.pending m hm
      have hne : m ≠ n := by
        rintro rfl
        exact hcache row hrow
      exact ⟨row, by rw [AList.lookup_insert_ne hne, hrow], hlast⟩

/-- Behind `ensure_node` there is a row. -/
theorem ensured_runs {α : Type} {c : Exec Error PgNodeStore α} {Q : α → Prop}
    {a' : Rows × (NodeId → Bool)} (hn : (r n).isSome) (hc : Runs Models (r, f) c Q a') :
    Runs Models (r, f) (do ensureNode n; c) Q a' := by
  have hensure := ensureNode_runs r f n
  rw [Rows.ensure_of_isSome hn] at hensure
  exact hensure.bind fun _ _ => hc

/-! ## Queries -/

theorem mem_selectRows {table : NodeTable} {condition : NodeId → NodeRow → Bool}
    {e : Σ _ : NodeId, NodeRow} : e ∈ selectRows table condition ↔
      table.lookup e.1 = some e.2 ∧ condition e.1 e.2 = true := by
  rw [selectRows, (List.mergeSort_perm _ _).mem_iff, List.mem_filter, ← AList.mem_lookup_iff]
  rfl

theorem mem_select {table : NodeTable} {condition : NodeRow → Bool} :
    n ∈ select table condition ↔ ∃ row, table.lookup n = some row ∧ condition row = true := by
  rw [select, List.mem_map]
  constructor
  · rintro ⟨e, he, rfl⟩
    exact ⟨e.2, mem_selectRows.mp he⟩
  · rintro ⟨row, hrow⟩
    exact ⟨⟨n, row⟩, mem_selectRows.mpr hrow, rfl⟩

/-- The rows of a query are in the order of their keys. -/
theorem selectRows_sorted (table : NodeTable) (condition : NodeId → NodeRow → Bool) :
    (selectRows table condition).Pairwise fun a b => sqlKey a.1 a.2 < sqlKey b.1 b.2 := by
  have hsorted : (selectRows table condition).Pairwise fun a b =>
      sqlKey a.1 a.2 ≤ sqlKey b.1 b.2 := by
    refine (List.pairwise_mergeSort (fun a b c hab hbc => ?_) (fun a b => ?_) _).imp
      fun h => of_decide_eq_true h
    · exact decide_eq_true ((of_decide_eq_true hab).trans (of_decide_eq_true hbc))
    · simpa using le_total _ _
  have hnodup : ((selectRows table condition).map Sigma.fst).Nodup := by
    have hperm := (List.mergeSort_perm (table.entries.filter fun e => condition e.1 e.2)
      fun a b => decide (sqlKey a.1 a.2 ≤ sqlKey b.1 b.2)).map Sigma.fst
    exact hperm.nodup_iff.mpr (table.nodupKeys.sublist List.filter_sublist)
  refine (hsorted.and (List.pairwise_map.mp hnodup)).imp fun {a b} hab => ?_
  refine lt_of_le_of_ne hab.1 fun heq => hab.2 (nodeToBytes_injective ?_)
  exact Bytes.nats_injective (congrArg (fun key => (ofLex key).2) heq)

/-- The keys of a query are those of the children of a node. -/
theorem sqlKey_lt_iff {a b : NodeId} {x y : NodeRow} (hx : x.orderKey.isSome)
    (hy : y.orderKey.isSome) : sqlKey a x < sqlKey b y ↔
      toLex ((x.orderKey.getD []).nats, a) < toLex ((y.orderKey.getD []).nats, b) := by
  obtain ⟨j, hj⟩ := Option.isSome_iff_exists.mp hx
  obtain ⟨k, hk⟩ := Option.isSome_iff_exists.mp hy
  simp only [sqlKey, hj, hk, Option.elim_some, Option.getD_some, Prod.Lex.toLex_lt_toLex,
    WithTop.coe_lt_coe, WithTop.coe_inj, nodeToBytes_lt_iff]

/-- The row of a node that is hung somewhere. -/
theorem Models.hung (h : Models s (r, f)) (hp : r.parent n = some p) :
    ∃ row, s.rowAt n = some row ∧ row.parent = some p ∧ n ≠ NodeId.ROOT ∧
      (p ≠ NodeId.TRASH → row.orderKey.isSome) ∧ r.orderKey n = row.orderKey := by
  obtain ⟨rfl, -, hinv⟩ := h
  have hbind := parent_view.symm.trans hp
  obtain ⟨row, hrow, hparent⟩ := Option.bind_eq_some_iff.mp hbind
  obtain ⟨hroot, hkey, -⟩ := hinv.placed n row p hrow hparent
  refine ⟨row, hrow, hparent, hroot, hkey, ?_⟩
  rw [orderKey_view hroot, hrow]
  rfl

/-- The rows under a parent, and their keys, are in the table as they are in the cache. -/
theorem Models.lookup_parent (h : Models s (r, f)) :
    (∃ row, s.table.lookup n = some row ∧ row.parent = some p) ↔ r.parent n = some p := by
  constructor
  · rintro ⟨stored, hstored, hparent⟩
    obtain ⟨rfl, -, hinv⟩ := h
    cases hrow : s.rowAt n with
    | none =>
      rw [hinv.coherent.table_none.mpr hrow] at hstored
      cases hstored
    | some row =>
      obtain ⟨stored', hstored', hsame, -⟩ := hinv.coherent.table hrow
      cases hstored.symm.trans hstored'
      rw [parent_view, hrow, Option.bind_some, ← hsame, hparent]
  · intro hp
    obtain ⟨row, hrow, hparent, -⟩ := h.hung hp
    obtain ⟨stored, hstored, hsame, -⟩ := h.2.2.coherent.table hrow
    exact ⟨stored, hstored, hsame.trans hparent⟩

/-- A query for rows under a parent, in the order of the children. -/
theorem Models.select_sorted (h : Models s (r, f)) (hp : p ≠ NodeId.TRASH)
    {condition : NodeRow → Bool}
    (hcondition : ∀ row, condition row = true → row.parent = some p) :
    (select s.table condition).Pairwise fun a b =>
      toLex (((r.orderKey a).getD []).nats, a) < toLex (((r.orderKey b).getD []).nats, b) := by
  have hkey : ∀ m ∈ select s.table condition, ∃ row, s.table.lookup m = some row ∧
      row.orderKey.isSome ∧ r.orderKey m = row.orderKey := by
    intro m hm
    obtain ⟨stored, hstored, hstored'⟩ := mem_select.mp hm
    obtain ⟨row, hrow, -, -, hkey, heq⟩ :=
      h.hung (h.lookup_parent.mp ⟨stored, hstored, hcondition stored hstored'⟩)
    obtain ⟨stored', hsame, -, hkeys, -⟩ := h.2.2.coherent.table hrow
    cases hstored.symm.trans hsame
    exact ⟨stored, hstored, hkeys ▸ hkey hp, heq.trans hkeys.symm⟩
  unfold select at hkey ⊢
  rw [List.pairwise_map]
  refine (selectRows_sorted s.table _).imp_of_mem fun {a b} ha hb hlt => ?_
  obtain ⟨x, hx, hxs, hxk⟩ := hkey a.1 (List.mem_map_of_mem ha)
  obtain ⟨y, hy, hys, hyk⟩ := hkey b.1 (List.mem_map_of_mem hb)
  cases (mem_selectRows.mp ha).1.symm.trans hx
  cases (mem_selectRows.mp hb).1.symm.trans hy
  rw [hxk, hyk]
  exact (sqlKey_lt_iff hxs hys).mp hlt

theorem children_runs (r : Rows) (f : NodeId → Bool) (n : NodeId) :
    Runs Models (r, f) (children n) (r.IsChildren n) (r, f) := by
  unfold children
  split
  · rename_i htrash
    exact Runs.pure ⟨fun c => by simp [htrash], .nil⟩
  · rename_i htrash
    refine Runs.gets fun s hs => ⟨fun c => ?_, ?_⟩
    · rw [mem_select, and_iff_right htrash, ← hs.lookup_parent]
      simp only [decide_eq_true_eq]
    · exact hs.select_sorted htrash fun row hrow => of_decide_eq_true hrow

/-! ## The instance -/

/-- `ROOT` is not hung anywhere, and no key is kept under `TRASH`. -/
def backend : Backend where
  pinned n := n = NodeId.ROOT
  keyUnder p key := if p = NodeId.TRASH then none else some key
  firstDelete := VersionVector.new.merge

theorem pinned_iff : backend.pinned n = true ↔ n = NodeId.ROOT := decide_eq_true_iff

theorem keyUnder_trash (key : Bytes) : backend.keyUnder NodeId.TRASH key = none := by
  simp [backend]

theorem keyUnder_of_ne {key : Bytes} (hp : p ≠ NodeId.TRASH) :
    backend.keyUnder p key = some key := if_neg hp

theorem backend_faithful : backend.Faithful where
  pinned _ := pinned_iff.mp
  keyUnder _ _ := keyUnder_of_ne
  firstDelete {vv} h := ⟨VersionVector.Normal.new.merge vv, h, by
    rw [backend, VersionVector.dots_merge .new, VersionVector.dots_new, Set.empty_union]⟩

theorem detach_runs (hn : (r n).isSome) (hroot : n ≠ NodeId.ROOT) :
    Runs Models (r, f) (detach n) (fun _ => True)
      (r.modify n fun row => { row with parent := none, orderKey := none }, f) := by
  unfold detach
  rw [if_neg hroot]
  refine ensured_runs hn ?_
  have hwrite := write_runs (f := f) (fun row => { row with parent := none, orderKey := none })
    (fun row => { row with parent := none, orderKey := none }) id hn (fun _ _ => rfl)
    (fun row => by rw [viewRow, viewRow, if_neg hroot]) (fun _ => rfl) fun row p hp => by cases hp
  rwa [id, Function.update_eq_self] at hwrite

theorem attach_runs (key : Bytes) (hn : (r n).isSome) (hp : (r p).isSome)
    (hroot : n ≠ NodeId.ROOT) :
    Runs Models (r, f) (attach n p key) (fun _ => True)
      (r.modify n fun row => { row with parent := some p, orderKey := backend.keyUnder p key },
        f) := by
  have hwrite : ∀ stored : Option Bytes, (p ≠ NodeId.TRASH → stored.isSome) →
      Runs Models (r, f) (write n fun row => { row with parent := some p, orderKey := stored })
        (fun _ => True) (r.modify n fun row => { row with parent := some p, orderKey := stored },
          f) := by
    intro stored hstored
    have hwrite := write_runs (f := f)
      (fun row => { row with parent := some p, orderKey := stored })
      (fun row => { row with parent := some p, orderKey := stored }) id hn (fun _ _ => rfl)
      (fun row => by rw [viewRow, viewRow, if_neg hroot]) (fun _ => rfl) fun row q hq => by
        cases hq
        exact .inr ⟨hroot, hstored, hp⟩
    rwa [id, Function.update_eq_self] at hwrite
  unfold attach
  rw [if_neg hroot]
  refine ensured_runs hn (ensured_runs hp ?_)
  split
  · rename_i htrash
    subst htrash
    rw [keyUnder_trash]
    exact hwrite none fun hne => absurd rfl hne
  · rename_i htrash
    rw [keyUnder_of_ne htrash]
    exact hwrite (some key) fun _ => rfl

theorem detachAttach_runs (r : Rows) (f : NodeId → Bool) (n p : NodeId) (key : Bytes)
    (hn : (r n).isSome) (hp : (r p).isSome) :
    Runs Models (r, f) (do detach n; attach n p key) (fun _ => True)
      (r.reparent backend n p key, f) := by
  by_cases hroot : n = NodeId.ROOT
  · rw [Rows.reparent, if_pos (pinned_iff.mpr hroot)]
    unfold detach attach
    rw [if_pos hroot, if_pos hroot]
    exact (Runs.pure (Q := fun _ => True) trivial).bind fun _ _ => Runs.pure trivial
  · rw [Rows.reparent, if_neg fun hpin => hroot (pinned_iff.mp hpin)]
    refine (detach_runs hn hroot).bind fun _ _ => ?_
    have hattach := attach_runs (f := f) key
      (r := r.modify n fun row => { row with parent := none, orderKey := none })
      (Rows.isSome_modify.mpr hn) (Rows.isSome_modify.mpr hp) hroot
    rwa [Rows.modify_modify] at hattach

theorem setTombstone_runs (b : Bool) (hn : (r n).isSome) :
    Runs Models (r, f) (setTombstone n b) (fun _ => True) (r, Function.update f n b) := by
  refine ensured_runs hn ?_
  have hwrite := write_runs (f := f) (fun row => { row with tombstone := b }) id (fun _ => b) hn
    (fun _ _ => rfl) (fun _ => rfl) (fun _ => rfl) fun row p hp => .inl ⟨hp, rfl⟩
  have hid : r.modify n id = r := by simp [Rows.modify]
  rwa [hid] at hwrite

theorem lastChange_runs (r : Rows) (f : NodeId → Bool) (n : NodeId) :
    Runs Models (r, f) (lastChange n) (· = (r.row n).lastChange) (r, f) := by
  refine column_runs (fun row => (row.bind (·.lastChange)).getD .new) fun row hrow _ => ?_
  rw [Rows.row, ← hrow]
  cases row <;> rfl

theorem deletedAt_runs (r : Rows) (f : NodeId → Bool) (n : NodeId) :
    Runs Models (r, f) (deletedAt n) (· = (r.row n).deletedAt) (r, f) := by
  refine column_runs (fun row => row.bind (·.deletedAt)) fun row hrow _ => ?_
  rw [Rows.row, ← hrow]
  cases row <;> rfl

theorem mergeDeletedAt_runs (delta : VersionVector) (hn : (r n).isSome) :
    Runs Models (r, f) (mergeDeletedAt n delta) (fun _ => True)
      (r.mergeDeletedAt backend n delta, f) := by
  refine ensured_runs hn ((deletedAt_runs r f n).bind fun deleted hdeleted => ?_)
  subst hdeleted
  obtain ⟨row, hrow⟩ := Option.isSome_iff_exists.mp hn
  set vv := ((r.row n).deletedAt.getD .new).merge delta with hvv
  have hwrite := write_runs (f := f) (fun row => { row with deletedAt := some vv })
    (fun row => { row with deletedAt := some vv }) id hn (fun _ _ => rfl) (fun _ => rfl)
    (fun _ => rfl) fun row p hp => .inl ⟨hp, rfl⟩
  rw [id, Function.update_eq_self] at hwrite
  have hmerge : r.mergeDeletedAt backend n delta =
      r.modify n fun row => { row with deletedAt := some vv } := by
    rw [Rows.mergeDeletedAt, Rows.modify, Rows.modify, hvv, Rows.row, hrow]
    cases hdeleted : row.deletedAt <;> simp [hdeleted, backend]
  rw [hmerge]
  exact hwrite

/-- The change waits in the cache. -/
theorem mergeLastChange_runs (delta : VersionVector) (hn : (r n).isSome) :
    Runs Models (r, f) (mergeLastChange n delta) (fun _ => True)
      (r.modify n fun row => { row with lastChange := row.lastChange.merge delta }, f) := by
  refine ensured_runs hn fun s hs => ?_
  obtain ⟨row, hrow, hview⟩ := hs.view_some hn
  obtain ⟨s₁, hrun, hs₁, hcache⟩ := nodeRow_run hs n
  rw [hrow] at hrun hcache
  have hread : lastChange n s = some (.ok ((row.lastChange).getD .new), s₁) := by
    unfold lastChange
    rw [bind_of_ok hrun]
    rfl
  refine ⟨(), _, by rw [bind_of_ok hread]; rfl, trivial, ?_⟩
  set vv := (row.lastChange.getD .new).merge delta with hvv
  set s' : PgNodeStore := { s₁ with
    cache := updateCache n (fun row => { row with lastChange := some vv }) s₁.cache
    pendingLastChange := n :: s₁.pendingLastChange } with hs'
  have hrow₁ : s₁.rowAt n = some row := by rw [rowAt, hcache]
  have hrow' : s'.rowAt n = some { row with lastChange := some vv } := by
    rw [hs', rowAt, lookup_updateCache, if_pos rfl, hcache]
    rfl
  have hset := hs₁.set s' hrow' (fun m hm => by
    rw [hs', rowAt, rowAt, lookup_updateCache, if_neg hm]) ⟨fun m cached hm => ?_,
      fun m cached hm hpending => ?_, fun m hm => ?_⟩ fun p hp => hs₁.2.2.placed n row p hrow₁ hp
  · rw [Rows.modify, hview]
    have hflag : row.tombstone = f n := by
      obtain ⟨-, rfl, -⟩ := hs
      exact (flags_eq hrow).symm
    rwa [show ({ row with lastChange := some vv } : NodeRow).tombstone = f n from hflag,
      Function.update_eq_self] at hset
  · rw [hs', lookup_updateCache] at hm
    split at hm
    · rename_i he
      subst he
      rw [hcache] at hm
      cases hm
      exact hs₁.2.2.coherent.settled m (some row) hcache
    · exact hs₁.2.2.coherent.settled m cached hm
  · rw [hs', List.mem_cons, not_or] at hpending
    rw [hs', lookup_updateCache, if_neg hpending.1] at hm
    exact hs₁.2.2.coherent.written m cached hm hpending.2
  · rw [hs', lookup_updateCache]
    rcases eq_or_ne m n with rfl | hne
    · exact ⟨{ row with lastChange := some vv }, by rw [if_pos rfl, hcache]; rfl, rfl⟩
    · rw [hs', List.mem_cons] at hm
      obtain ⟨other, hother, hlast⟩ := hs₁.2.2.coherent.pending m (hm.resolve_left hne)
      exact ⟨other, by rw [if_neg hne, hother], hlast⟩

theorem nodeExists_runs (r : Rows) (f : NodeId → Bool) (n : NodeId) :
    Runs Models (r, f) (NodeStore.nodeExists n : Exec Error PgNodeStore Bool)
      (fun b => (b = true → (r n).isSome) ∧
        (b = false → r.row n = .blank n ∧ ∀ c, r.parent c ≠ some n)) (r, f) := by
  intro s hs
  obtain ⟨s', hrun, hs', -⟩ := nodeRow_run hs n
  refine ⟨(s.rowAt n).isSome, s', ?_, ⟨fun h => ?_, fun h => ?_⟩, hs'⟩
  · show (nodeRow n >>= _) s = _
    rw [bind_of_ok hrun]
    rfl
  · obtain ⟨rfl, -, -⟩ := hs
    rwa [view, Option.isSome_map]
  · rw [Option.isSome_eq_false_iff, Option.isNone_iff_eq_none] at h
    obtain ⟨rfl, -, hinv⟩ := hs
    have hnone : s.view n = none := by rw [view, h]; rfl
    refine ⟨by rw [Rows.row, hnone]; rfl, fun c hc => ?_⟩
    rw [parent_view] at hc
    obtain ⟨row, hrow, hparent⟩ := Option.bind_eq_some_iff.mp hc
    have hsome := (hinv.placed c row n hrow hparent).2.2
    rw [h] at hsome
    cases hsome

theorem parent_runs (r : Rows) (f : NodeId → Bool) (n : NodeId) :
    Runs Models (r, f) (NodeStore.parent n : Exec Error PgNodeStore _) (· = r.parent n) (r, f) :=
  column_runs (fun row => row.bind (·.parent)) fun row hrow _ => by
    rw [Rows.parent, ← hrow]
    cases row <;> rfl

theorem parentAndHasDeletedAt_runs (r : Rows) (f : NodeId → Bool) (n : NodeId) :
    Runs Models (r, f) (NodeStore.parentAndHasDeletedAt n : Exec Error PgNodeStore _)
      (fun o => o.isSome → (r n).isSome ∧ o = some (r.parent n, (r.row n).deletedAt.isSome))
      (r, f) := by
  refine (nodeExists_runs r f n).bind fun b hb => ?_
  cases b with
  | false => exact Runs.pure fun h => by cases h
  | true =>
    refine (parent_runs r f n).bind fun parent hparent => ?_
    have hdeleted : Runs Models (r, f) (NodeStore.hasDeletedAt n : Exec Error PgNodeStore _)
        (· = (r.row n).deletedAt.isSome) (r, f) :=
      (deletedAt_runs r f n).bind fun deleted hdeleted => Runs.pure (by rw [hdeleted])
    refine hdeleted.bind fun deleted hdeleted => Runs.pure fun _ => ⟨hb.1 rfl, ?_⟩
    rw [hparent, hdeleted]

instance : LawfulNodeStore PgNodeStore where
  backend := backend
  Models := Models
  reset := reset_runs
  ensureNode := ensureNode_runs
  nodeExists := nodeExists_runs
  parent := parent_runs
  orderKey r f n := (nodeRow_runs r f n).bind fun row hrow => Runs.pure fun hroot => by
    rw [Rows.orderKey, ← hrow.1]
    cases row with
    | none => rfl
    | some row => exact (if_neg hroot).symm
  children r f n _ := children_runs r f n
  detachAttach r f n p key hn hp _ := detachAttach_runs r f n p key hn hp
  tombstone r f n _ := column_runs (fun row => (row.map (·.tombstone)).getD false)
    fun row _ hflag => hflag
  setTombstone r f n b hn := setTombstone_runs b hn
  lastChange r f n _ := lastChange_runs r f n
  mergeLastChange r f n delta hn := mergeLastChange_runs delta hn
  deletedAt r f n _ := deletedAt_runs r f n
  mergeDeletedAt r f n delta hn := mergeDeletedAt_runs delta hn
  parentAndHasDeletedAt := parentAndHasDeletedAt_runs
  parent_isSome s r f hs n p h := by
    obtain ⟨rfl, -, hinv⟩ := hs
    rw [parent_view] at h
    obtain ⟨row, hrow, hparent⟩ := Option.bind_eq_some_iff.mp h
    rw [view, Option.isSome_map]
    exact (hinv.placed n row p hrow hparent).2.2

theorem lawful_backend : LawfulNodeStore.backend PgNodeStore = backend := rfl

/-- The table has all nodes. -/
theorem Models.mem_keys (h : Models s (r, f)) : n ∈ s.table.keys ↔ (r n).isSome := by
  obtain ⟨rfl, -, hinv⟩ := h
  rw [view, Option.isSome_map, ← AList.mem_keys, ← AList.lookup_isSome, ← not_iff_not,
    Option.not_isSome_iff_eq_none, Option.not_isSome_iff_eq_none, hinv.coherent.table_none]

theorem allNodes_runs (r : Rows) (f : NodeId → Bool) :
    Runs Models (r, f) (NodeStore.allNodes : Exec Error PgNodeStore _)
      (fun nodes => ∀ n, n ∈ nodes ↔ (r n).isSome) (r, f) :=
  Runs.gets fun _ hs _ => hs.mem_keys

/-! ## The flush -/

/-- The nodes that were flushed have their cached rows, the others what they had. -/
theorem Coherent.lookup_flush (h : s.Coherent) {nodes : List NodeId}
    (hnodes : ∀ n ∈ nodes, n ∈ s.pendingLastChange) {table : NodeTable}
    (htable : ∀ m, (table.lookup m).map PgNodeStore.settled = (s.rowAt m).map PgNodeStore.settled)
    (m : NodeId) :
    (nodes.foldl (flushNode s.cache) table).lookup m =
      if m ∈ nodes then s.rowAt m else table.lookup m := by
  induction nodes generalizing table with
  | nil => rfl
  | cons n nodes ih =>
    rw [List.forall_mem_cons] at hnodes
    obtain ⟨row, hrow, hlast⟩ := h.pending n hnodes.1
    obtain ⟨vv, hvv⟩ := Option.isSome_iff_exists.mp hlast
    have hat : s.rowAt n = some row := by rw [PgNodeStore.rowAt, hrow]
    have hflush : flushNode s.cache table n =
        updateTable n (fun row => { row with lastChange := some vv }) table := by
      rw [flushNode, hrow, Option.join_some, Option.bind_some, hvv]
    have hstored : (flushNode s.cache table n).lookup n = some row := by
      obtain ⟨stored, hstored, hsame⟩ :=
        Option.map_eq_some_iff.mp ((htable n).trans (by rw [hat]; rfl))
      obtain ⟨parent, orderKey, tombstone, lastChange, deletedAt⟩ := stored
      obtain ⟨parent', orderKey', tombstone', lastChange', deletedAt'⟩ := row
      rw [hflush, lookup_updateTable, if_pos rfl, hstored]
      simp_all [PgNodeStore.settled]
    have hother : ∀ m, m ≠ n → (flushNode s.cache table n).lookup m = table.lookup m :=
      fun m hm => by rw [hflush, lookup_updateTable, if_neg hm]
    rw [List.foldl_cons, ih hnodes.2 fun m => ?_]
    · rcases eq_or_ne m n with rfl | hne
      · rw [hstored, hat, ite_self, if_pos List.mem_cons_self]
      · rw [hother m hne]
        simp [hne]
    · rcases eq_or_ne m n with rfl | hne
      · rw [hstored, hat]
      · rw [hother m hne, htable m]

/-- Behind a flush the table has all there is, for a store that knows nothing else. -/
theorem flush_runs {s s' : PgNodeStore} (h : Models s (r, f))
    (hrun : flushLastChange s = some (.ok (), s')) : Models { table := s'.table } (r, f) := by
  cases hrun
  have hlookup : ∀ m, (s.pendingLastChange.foldl (flushNode s.cache) s.table).lookup m =
      s.rowAt m := by
    intro m
    have hcoherent := h.2.2.coherent
    rw [hcoherent.lookup_flush (fun _ hn => hn) fun m => (hcoherent.rowAt m).symm]
    split
    · rfl
    · rename_i hpending
      unfold rowAt
      split
      · rename_i cached hcached
        exact (hcoherent.written m cached hcached hpending).symm
      · rfl
  exact h.of_rows hlookup ⟨by simp, by simp, by simp⟩

end PgNodeStore

end Postgres

end Treecrdt
