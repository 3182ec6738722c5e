import TreecrdtLean.Store.PgNodes
import TreecrdtLean.Tree.Lawful

/-!
# Payloads and the index of parents in Postgres (`treecrdt-postgres-rs`, `store.rs`)

`PgPayloadStore` has the rows of a document in `treecrdt_payload` behind a cache. The columns of a
writer are signed, so what is read back from the table may be another writer; as long as the row is
cached it is the one that was written.

`PgParentOpIndex` buffers its rows and never fails.
-/

namespace Treecrdt

namespace Postgres

open Exec

/-! ## Payloads -/

/-- A row of `treecrdt_payload`. -/
structure PayloadColumns where
  payload : Option Bytes
  lastLamport : Int64
  lastReplica : Bytes
  lastCounter : Int64
  deriving DecidableEq

structure CachedPayloadRow where
  payload : Option Bytes
  lastLamport : Lamport
  lastReplica : Bytes
  lastCounter : UInt64
  deriving DecidableEq

/-- The rows of a document in `treecrdt_payload`; its key is the node. -/
abbrev PayloadTable := AList fun _ : NodeId => PayloadColumns

structure PgPayloadStore where
  table : PayloadTable := ∅
  cache : AList fun _ : NodeId => Option CachedPayloadRow := ∅

namespace PgPayloadStore

def load (row : PayloadColumns) : CachedPayloadRow :=
  ⟨row.payload, maxZero row.lastLamport, row.lastReplica, maxZero row.lastCounter⟩

/-- The columns of a row. -/
def columns (row : CachedPayloadRow) : PayloadColumns :=
  ⟨row.payload, row.lastLamport.toInt64, row.lastReplica, row.lastCounter.toInt64⟩

def payloadRow (node : NodeId) : Exec Error PgPayloadStore (Option CachedPayloadRow) := fun s =>
  match s.cache.lookup node with
  | some cached => some (.ok cached, s)
  | none =>
    let loaded := (s.table.lookup node).map load
    some (.ok loaded, { s with cache := s.cache.insert node loaded })

def writer (row : CachedPayloadRow) : Lamport × OperationId :=
  (row.lastLamport, ⟨⟨row.lastReplica⟩, row.lastCounter⟩)

def setPayload (node : NodeId) (payload : Option Bytes) (writer : Lamport × OperationId) :
    Exec Error PgPayloadStore Unit := modify fun s =>
  let row : CachedPayloadRow :=
    ⟨payload, writer.1, writer.2.replica.bytes, writer.2.counter⟩
  { table := s.table.insert node (columns row), cache := s.cache.insert node (some row) }

instance : PayloadStore PgPayloadStore where
  reset := modify fun _ => {}
  payload node := do return (← payloadRow node).bind (·.payload)
  lastWriter node := do return (← payloadRow node).map writer
  setPayload := setPayload

/-- The row of a node: what is cached, and else what is in the table. -/
def rowAt (s : PgPayloadStore) (n : NodeId) : Option CachedPayloadRow :=
  match s.cache.lookup n with
  | some cached => cached
  | none => (s.table.lookup n).map load

/-- The rows of the store, the cache being that of the table but for the signs. -/
structure Models (s : PgPayloadStore) (p : NodeId → PayloadRow) : Prop where
  payload : ∀ n, (s.rowAt n).bind (·.payload) = (p n).payload
  lastWriter : ∀ n, (s.rowAt n).map writer = (p n).lastWriter
  stored : ∀ n cached, s.cache.lookup n = some cached →
    (s.table.lookup n).map (·.payload) = cached.map (·.payload)

variable {s : PgPayloadStore} {p : NodeId → PayloadRow} {n : NodeId}

/-- The payload is that of the table. -/
theorem Models.table (h : Models s p) (n : NodeId) :
    (s.table.lookup n).bind (·.payload) = (p n).payload := by
  have hjoin : ∀ {α : Type} (row : Option α) (f : α → Option Bytes),
      row.bind f = (row.map f).join := fun row f => by cases row <;> rfl
  rw [← h.payload n, hjoin, hjoin]
  unfold PgPayloadStore.rowAt
  cases hcache : s.cache.lookup n with
  | some cached => exact congrArg Option.join (h.stored n cached hcache)
  | none => cases s.table.lookup n <;> rfl

/-- A read of a row caches it. -/
theorem payloadRow_runs (p : NodeId → PayloadRow) (n : NodeId) :
    Runs Models p (payloadRow n)
      (fun row => row.bind (·.payload) = (p n).payload ∧ row.map writer = (p n).lastWriter) p := by
  intro s hs
  have hrow : s.rowAt n = match s.cache.lookup n with
    | some cached => cached
    | none => (s.table.lookup n).map load := rfl
  have hread := And.intro (hs.payload n) (hs.lastWriter n)
  unfold payloadRow
  cases hcache : s.cache.lookup n with
  | some cached =>
    rw [hcache] at hrow
    change s.rowAt n = cached at hrow
    rw [hrow] at hread
    exact ⟨_, s, rfl, hread, hs⟩
  | none =>
    rw [hcache] at hrow
    change s.rowAt n = (s.table.lookup n).map load at hrow
    have hkeep : ∀ m, rowAt { s with cache := s.cache.insert n ((s.table.lookup n).map load) } m =
        s.rowAt m := by
      intro m
      rcases eq_or_ne m n with rfl | hne
      · rw [rowAt, AList.lookup_insert, hrow]
      · rw [rowAt, rowAt, AList.lookup_insert_ne hne]
    rw [hrow] at hread
    refine ⟨_, _, rfl, hread, fun m => by rw [hkeep, hs.payload], fun m => by
      rw [hkeep, hs.lastWriter], fun m cached hm => ?_⟩
    rcases eq_or_ne m n with rfl | hne
    · rw [AList.lookup_insert] at hm
      rw [← Option.some.inj hm, Option.map_map]
      rfl
    · rw [AList.lookup_insert_ne hne] at hm
      exact hs.stored m cached hm

theorem setPayload_runs (p : NodeId → PayloadRow) (n : NodeId) (payload : Option Bytes)
    (writer : Lamport × OperationId) :
    Runs Models p (setPayload n payload writer) (fun _ => True)
      (Function.update p n { payload, lastWriter := some writer }) := by
  refine Runs.modify fun s hs => ?_
  refine ⟨fun m => ?_, fun m => ?_, fun m cached hm => ?_⟩
  · rcases eq_or_ne m n with rfl | hne
    · rw [rowAt, AList.lookup_insert, Function.update_self]
      rfl
    · rw [rowAt, AList.lookup_insert_ne hne, AList.lookup_insert_ne hne, Function.update_of_ne hne]
      exact hs.payload m
  · rcases eq_or_ne m n with rfl | hne
    · rw [rowAt, AList.lookup_insert, Function.update_self]
      rfl
    · rw [rowAt, AList.lookup_insert_ne hne, AList.lookup_insert_ne hne, Function.update_of_ne hne]
      exact hs.lastWriter m
  · rcases eq_or_ne m n with rfl | hne
    · rw [AList.lookup_insert] at hm ⊢
      rw [← Option.some.inj hm]
      rfl
    · rw [AList.lookup_insert_ne hne] at hm ⊢
      exact hs.stored m cached hm

instance : LawfulPayloadStore PgPayloadStore where
  Models := Models
  reset _ := Runs.modify fun _ _ => ⟨fun _ => rfl, fun _ => rfl, by simp⟩
  payload p n := (payloadRow_runs p n).bind fun _ hrow => Runs.pure hrow.1
  lastWriter p n := (payloadRow_runs p n).bind fun _ hrow => Runs.pure hrow.2
  setPayload := setPayload_runs

end PgPayloadStore

/-! ## The index of parents -/

variable {Ref : Type} [DecidableEq Ref]

/-- The rows of a document in `treecrdt_oprefs_children`: the `seq` of a parent and an `op_ref`. -/
abbrev ParentTable (Ref : Type) [DecidableEq Ref] := AList fun _ : NodeId × Ref => Int64

structure PgParentOpIndex (opRef : OperationId → Ref) where
  table : ParentTable Ref := ∅
  pending : List ((NodeId × Ref) × Int64) := []

namespace PgParentOpIndex

variable {opRef : OperationId → Ref}

def parentOpIndexFlushSize : ℕ := 4096

/-- `INSERT .. ON CONFLICT DO NOTHING`. -/
def put (table : ParentTable Ref) (row : (NodeId × Ref) × Int64) : ParentTable Ref :=
  match table.lookup row.1 with
  | some _ => table
  | none => table.insert row.1 row.2

def flush : Exec Error (PgParentOpIndex opRef) Unit := modify fun i =>
  { table := i.pending.foldl put i.table, pending := [] }

instance : ParentOpIndex (PgParentOpIndex opRef) where
  reset := modify fun _ => {}
  record parent id seq := do
    if parent = NodeId.TRASH then
      return
    modify fun i => { i with pending := i.pending ++ [((parent, opRef id), seq.toInt64)] }
    if (← gets fun i => i.pending.length) ≥ parentOpIndexFlushSize then
      flush

instance : TotalIndex (PgParentOpIndex opRef) where
  reset i := ⟨_, rfl⟩
  record parent id seq i := by
    show ∃ i', (ite (parent = NodeId.TRASH) _ _ : Exec Error (PgParentOpIndex opRef) Unit) i = _
    by_cases htrash : parent = NodeId.TRASH
    · rw [if_pos htrash]
      exact ⟨i, rfl⟩
    · rw [if_neg htrash]
      simp only [modify_bind_run, gets_bind_run]
      split
      · exact ⟨_, rfl⟩
      · exact ⟨_, rfl⟩

end PgParentOpIndex

end Postgres

end Treecrdt
