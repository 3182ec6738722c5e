import TreecrdtLean.Tree.Converge
import TreecrdtLean.Store.Rows

/-!
# `SqliteStorage` (`treecrdt-sqlite-ext`, `storage.rs`)

A `Storage` over `rusqlite` whose table has no column for the known state: a delete comes back from
the log without what its writer had seen. The logs that come back as they were are those without
known states, and without operations at Lamport time 0 (`keepsLog_iff`). Over these a replay leaves
the tombstones that it leaves over `MemoryStorage`.
-/

namespace Treecrdt

open Exec

/-! ## The storage -/

/-- The `ops` table, with `(replica, counter)` as its key. -/
structure SqliteStorage where
  rows : List OpRow := []
  deriving DecidableEq

namespace SqliteStorage

/-- `value.try_into::<i64>()`. -/
def tryI64 (value : UInt64) (message : String) : Except Error Int64 :=
  if value.toNat < 2 ^ 63 then .ok value.toInt64 else .error (.storage message)

/-- The parameters of the insert; there is no known state among them. -/
def row (op : Operation) (lamport counter : Int64) : OpRow :=
  let params (kind : String) (parent : Option NodeId) (node : NodeId) (newParent : Option NodeId)
      (orderKey payload : Option Bytes) : OpRow :=
    { replica := op.metadata.id.replica.bytes, counter, lamport
      kind, parent := parent.map nodeToBytes, node := nodeToBytes node
      newParent := newParent.map nodeToBytes, orderKey, knownState := none, payload }
  match op.kind with
  | .insert parent node orderKey payload =>
    params "insert" (some parent) node none (some orderKey) payload
  | .move node newParent orderKey => params "move" none node (some newParent) (some orderKey) none
  | .delete node => params "delete" none node none none none
  | .tombstone node => params "tombstone" none node none none none
  | .payload node payload => params "payload" none node none none payload

def invalidColumnType (column : ℕ) (name type : String) : Error :=
  .storage ("Invalid column type " ++ type ++ " at index: " ++ toString column ++ ", name: " ++ name)

/-- `value.ok_or_else(..)`, for a column that the kind needs. -/
def orInvalid (column : ℕ) (name : String) : Option Bytes → Except Error Bytes
  | some value => return value
  | none => throw (invalidColumnType column name "Blob")

def blobToNode (data : Bytes) : Except Error NodeId :=
  if data.length = 16 then return nodeOfBytes data else throw (invalidColumnType 0 "node" "Blob")

def rowKind (row : OpRow) : Except Error OperationKind :=
  match row.kind with
  | "insert" => do
    return .insert (← blobToNode (← orInvalid 4 "parent" row.parent)) (← blobToNode row.node)
      (← orInvalid 7 "order_key" row.orderKey) row.payload
  | "move" => do
    return .move (← blobToNode row.node)
      (← blobToNode (← orInvalid 6 "new_parent" row.newParent))
      (← orInvalid 7 "order_key" row.orderKey)
  | "delete" => do return .delete (← blobToNode row.node)
  | "tombstone" => do return .tombstone (← blobToNode row.node)
  | "payload" => do return .payload (← blobToNode row.node) row.payload
  | other => throw (invalidColumnType 3 other "Text")

def rowToOperation (row : OpRow) : Except Error Operation := do
  let kind ← rowKind row
  return ⟨⟨⟨⟨row.replica⟩, row.counter.toUInt64⟩, row.lamport.toUInt64, none⟩, kind⟩

/-- `MAX(column)`, as `u64::try_from` has it. -/
def maxColumn (values : List Int64) : UInt64 :=
  match values.max? with
  | some value => if 0 ≤ value then value.toUInt64 else 0
  | none => 0

instance : Storage SqliteStorage where
  apply op := fun s =>
    match tryI64 op.metadata.lamport "lamport overflow",
      tryI64 op.metadata.id.counter "counter overflow" with
    | .error e, _ => some (.error e, s)
    | _, .error e => some (.error e, s)
    | .ok lamport, .ok counter =>
      -- `INSERT OR IGNORE`.
      if s.rows.any fun r => r.replica = op.metadata.id.replica.bytes ∧ r.counter = counter then
        some (.ok false, s)
      else some (.ok true, ⟨s.rows ++ [row op lamport counter]⟩)
  loadSince s lamport := do
    scanRows (fun row => some <$> rowToOperation row) s.rows (← tryI64 lamport "lamport overflow")
  latestLamport s := maxColumn (s.rows.map OpRow.lamport)
  latestCounter s replica := .ok <|
    maxColumn ((s.rows.filter fun r => r.replica = replica.bytes).map OpRow.counter)

end SqliteStorage

/-! ## Logs -/

theorem Accepted.memory {ops : List Operation} {m : MemoryStorage}
    (h : Accepted ({} : MemoryStorage) ops m) : m.ops = ops := by
  induction h with
  | start => rfl
  | accept before next ih =>
    simp only [Storage.apply] at next
    split at next
    · cases next
    · cases next
      rw [ih]
  | refuse before next not ih =>
    simp only [Storage.apply] at next
    split at next
    · cases next
      exact ih
    · cases next
      exact absurd rfl not

namespace SqliteStorage

variable {op : Operation} {ops : List Operation} {s : SqliteStorage}

/-- The row of an operation whose numbers fit. -/
def rowOf (op : Operation) : OpRow :=
  row op op.metadata.lamport.toInt64 op.metadata.id.counter.toInt64

theorem rowOf_holds (op : Operation) : (rowOf op).Holds op := by
  unfold rowOf row
  split <;> exact ⟨rfl, rfl, rfl⟩

theorem blobToNode_node (node : NodeId) : blobToNode (nodeToBytes node) = .ok node := by
  simp [blobToNode]
  rfl

/-- The row gives back everything but the known state. -/
theorem rowToOperation_rowOf (op : Operation) :
    rowToOperation (rowOf op) =
      .ok { op with metadata := { op.metadata with knownState := none } } := by
  obtain ⟨⟨⟨⟨replica⟩, counter⟩, lamport, ks⟩, kind⟩ := op
  cases kind <;>
    simp [rowToOperation, rowOf, row, rowKind, orInvalid, blobToNode_node, bind, Except.bind, pure,
      Except.pure]

theorem tryI64_ok {value : UInt64} {message : String} {x : Int64}
    (h : tryI64 value message = .ok x) : value.toNat < 2 ^ 63 ∧ x = value.toInt64 := by
  unfold tryI64 at h
  split at h
  · cases h
    exact ⟨by assumption, rfl⟩
  · cases h

theorem apply_some {s' : SqliteStorage} {r : Except Error Bool}
    (h : Storage.apply op s = some (r, s')) :
    (r = .ok true ∧ op.FitsI64 ∧ s'.rows = s.rows ++ [rowOf op]) ∨ (r ≠ .ok true ∧ s' = s) := by
  simp only [Storage.apply] at h
  split at h
  · cases h
    exact .inr ⟨nofun, rfl⟩
  · cases h
    exact .inr ⟨nofun, rfl⟩
  · rename_i lamport counter hlamport hcounter
    obtain ⟨hl, rfl⟩ := tryI64_ok hlamport
    obtain ⟨hc, rfl⟩ := tryI64_ok hcounter
    split at h
    · cases h
      exact .inr ⟨nofun, rfl⟩
    · cases h
      exact .inl ⟨rfl, ⟨hl, hc⟩, rfl⟩

/-- The rows are those of the operations that were accepted, and their numbers fit. -/
theorem rows_of_accepted (h : Accepted ({} : SqliteStorage) ops s) :
    s.rows = ops.map rowOf ∧ ∀ op ∈ ops, op.FitsI64 := by
  induction h with
  | start => exact ⟨rfl, nofun⟩
  | accept before next ih =>
    obtain ⟨-, hfits, hrows⟩ | ⟨hnot, -⟩ := apply_some next
    · refine ⟨by rw [hrows, ih.1, List.map_append, List.map_singleton], fun op hop => ?_⟩
      obtain hop | hop := List.mem_append.mp hop
      · exact ih.2 op hop
      · rwa [List.mem_singleton.mp hop]
    · exact absurd rfl hnot
  | refuse before next not ih =>
    obtain ⟨hr, -⟩ | ⟨-, rfl⟩ := apply_some next
    · exact absurd hr not
    · exact ih

/-! ## What the log keeps -/

/-- The operation has what a row has room for, and is behind the start of a scan. -/
structure Kept (op : Operation) : Prop where
  lamport : op.metadata.lamport ≠ 0
  knownState : op.metadata.knownState = none

theorem kept_of_loaded (h : Accepted ({} : SqliteStorage) ops s) {loaded : List Operation}
    (hload : Storage.loadSince s 0 = .ok loaded) (hop : op ∈ loaded) : Kept op := by
  obtain ⟨r, hr, hpos, hread⟩ := mem_scanRows hload hop
  rw [(rows_of_accepted h).1] at hr
  obtain ⟨logged, -, rfl⟩ := List.mem_map.mp hr
  rw [rowToOperation_rowOf] at hread
  cases hread
  rw [(rowOf_holds logged).lamport] at hpos
  exact ⟨(toInt64_pos_iff.mp hpos).1, rfl⟩

/-- A log of such operations is read as it was written, in order. -/
theorem loadSince_of_kept (h : Accepted ({} : SqliteStorage) ops s) (hkept : ∀ op ∈ ops, Kept op) :
    Storage.loadSince s 0 = .ok (sortOps ops) := by
  obtain ⟨hrows, hfits⟩ := rows_of_accepted h
  have hscan : ∃ backs, scanRows (fun row => some <$> rowToOperation row) (ops.map rowOf) 0 =
      .ok backs ∧ List.Forall₂ (· = ·) backs (sortOps ops) := by
    refine scanRows_map (fun op _ => rowOf_holds op) hfits (fun op hop => (hkept op hop).lamport)
      fun op hop => ⟨op, ?_, rfl⟩
    rw [rowToOperation_rowOf, ← (hkept op hop).knownState]
    rfl
  obtain ⟨backs, hscan, hsame⟩ := hscan
  rw [List.forall₂_eq_eq_eq] at hsame
  rw [← hsame, ← hscan, ← hrows]
  rfl

/-- The log comes back as it was written, and a replay over it leaves the tombstones that it leaves
over an in-memory log of the same operations. -/
structure KeepsLog (ops : List Operation) (s : SqliteStorage) : Prop where
  unchanged : ∀ op ∈ ops, ∃ loaded, Storage.loadSince s 0 = .ok loaded ∧ op ∈ loaded
  tombstones : ∀ m, Accepted ({} : MemoryStorage) ops m → ∀ {C N P : Type} [Clock C] [NodeStore N]
    [PayloadStore P] (t : TreeCrdt SqliteStorage C N P), t.storage = s → ∀ node,
      ((do TreeCrdt.replayFromStorage; TreeCrdt.onNodes (TreeCrdt.isTombstoned node) :
        Exec Error (TreeCrdt SqliteStorage C N P) Bool) t).map Prod.fst =
      ((do TreeCrdt.replayFromStorage; TreeCrdt.onNodes (TreeCrdt.isTombstoned node) :
        Exec Error (TreeCrdt MemoryStorage C N P) Bool) (t.withStorage m)).map Prod.fst

/-- **Which logs `SqliteStorage` keeps.** Those without known states, and without operations at
Lamport time 0. -/
theorem keepsLog_iff (ops : List Operation) (s : SqliteStorage)
    (h : Accepted ({} : SqliteStorage) ops s) : KeepsLog ops s ↔ ∀ op ∈ ops, Kept op := by
  constructor
  · intro hkeeps op hop
    obtain ⟨loaded, hload, hmem⟩ := hkeeps.unchanged op hop
    exact kept_of_loaded h hload hmem
  · intro hkept
    have hload := loadSince_of_kept h hkept
    refine ⟨fun op hop => ⟨_, hload, (sortOps_perm ops).mem_iff.mpr hop⟩, ?_⟩
    rintro m hm C N P _ _ _ t rfl node
    have hrows : Storage.scanSince m 0 = Storage.scanSince t.storage 0 := by
      have hpos : ∀ op ∈ m.ops, 0 < op.metadata.lamport := by
        rw [hm.memory]
        exact fun op hop => UInt64.pos_iff_ne_zero.mpr (hkept op hop).lamport
      rw [TreeCrdt.scanSince_eq hpos, hm.memory]
      simp only [Storage.scanSince, Storage.loadSince] at hload ⊢
      rw [hload]
      exact congrArg (List.map Except.ok) (sortOps_of_sorted (sortOps_sorted ops)).symm
    have hmirror : Mirrors (TreeCrdt.withStorage (S := SqliteStorage) (C := C) (N := N) (P := P) m)
        (TreeCrdt.onNodes (TreeCrdt.isTombstoned node))
        (TreeCrdt.onNodes (TreeCrdt.isTombstoned node)) := .zoom _ (fun _ => rfl) fun _ _ => rfl
    rw [bind_run, bind_run, TreeCrdt.replayFromStorage_withStorage hrows]
    rcases TreeCrdt.replayFromStorage t with _ | ⟨_ | _, t'⟩
    · rfl
    · rfl
    · simp only [Option.map_some]
      rw [hmirror t', Option.map_map]
      rfl

/-- One operation that is accepted on its own. -/
theorem accepted_singleton {op : Operation} (h : op.FitsI64) :
    Accepted ({} : SqliteStorage) [op] ⟨[rowOf op]⟩ := by
  show Accepted _ ([] ++ [op]) _
  refine .accept .start ?_
  simp only [Storage.apply, tryI64, h.lamport, h.counter, if_true]
  rfl

theorem keepsLog_iff_insert :
    KeepsLog [.insert ⟨[1]⟩ 1 1 .ROOT ⟨7⟩ [128]] ⟨[rowOf (.insert ⟨[1]⟩ 1 1 .ROOT ⟨7⟩ [128])]⟩ := by
  refine (keepsLog_iff _ _ (accepted_singleton ⟨by decide, by decide⟩)).mpr fun op hop => ?_
  rw [List.mem_singleton.mp hop]
  exact ⟨by decide, rfl⟩

/-- A delete comes back without what its writer had seen. -/
theorem delete_not_keepsLog : ¬ ∀ (ops : List Operation) (s : SqliteStorage),
    Accepted ({} : SqliteStorage) ops s → KeepsLog ops s := by
  intro h
  have haccepted : Accepted ({} : SqliteStorage) [.delete ⟨[1]⟩ 1 1 ⟨7⟩ (some .new)] _ :=
    accepted_singleton ⟨by decide, by decide⟩
  obtain ⟨loaded, hload, hmem⟩ := (h _ _ haccepted).unchanged _ List.mem_cons_self
  cases (kept_of_loaded haccepted hload hmem).knownState

end SqliteStorage

end Treecrdt
