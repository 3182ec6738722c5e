import TreecrdtLean.Lib.Pages
import TreecrdtLean.Store.PgPayloads
import TreecrdtLean.Tree.Hide
import TreecrdtLean.Tree.Lawful
import TreecrdtLean.Tree.Reads

/-!
# Reads of a document in Postgres (`treecrdt-postgres-rs`, `reads.rs`)

The reads are queries on the tables that `ensureMaterialized` has made: they see the stored parents
and the cached tombstones. The core reads the same document through version vectors, and hides what
is tombstoned or in the trash.

* `ensureMaterialized_dirty`: behind a rebuild the tables are those of the log.
* `Agrees`: the reads are those of a tree in memory; `Store/PgAgree.lean` says when they are.
-/

namespace Treecrdt

namespace Postgres

open Exec Forest

variable {Ref : Type} [DecidableEq Ref]

/-- The tables of a document. -/
structure Document (json : Json) (opRef : OperationId → Ref) where
  ops : PgOpStorage json opRef := {}
  cursor : TreeMeta
  nodes : NodeTable := ∅
  payloads : PayloadTable := ∅
  oprefsChildren : ParentTable Ref := ∅

/-- A tree over the tables of a document, next to the index. -/
abbrev PgTree (json : Json) (opRef : OperationId → Ref) :=
  TreeCrdt (PgOpStorage json opRef) LamportClock PgNodeStore PgPayloadStore × PgParentOpIndex opRef

variable {json : Json} {opRef : OperationId → Ref} {α : Type}

/-! ## The rebuild -/

/-- `b"postgres"`. -/
def postgresReplica : ReplicaId := ⟨"postgres".toUTF8.toList⟩

/-- What a tree has written. -/
def Document.write (d : Document json opRef) (s : PgTree json opRef) : Document json opRef :=
  { d with
    ops := s.1.storage
    nodes := s.1.nodes.table
    payloads := s.1.payloads.table
    oprefsChildren := s.2.table }

/-- A method of a tree over the tables. -/
def withTree (c : Exec Error (PgTree json opRef) α) : Exec Error (Document json opRef) α := fun d =>
  match TreeCrdt.withStores postgresReplica d.ops ({} : LamportClock)
      ({ table := d.nodes } : PgNodeStore) ({ table := d.payloads } : PgPayloadStore) with
  | .error e => some (.error e, d)
  | .ok t => (c (t, { table := d.oprefsChildren })).map fun r => (r.1, d.write r.2)

def clearMaterialized : Exec Error (Document json opRef) Unit := modify fun d =>
  { d with nodes := ∅, payloads := ∅, oprefsChildren := ∅ }

/-- The numbers are signed columns, and clamped where they are read. -/
def updateTreeMetaHead (lamport : Lamport) (replica : Bytes) (counter seq : UInt64) :
    Exec Error (Document json opRef) Unit := modify fun d =>
  { d with cursor := ⟨false, maxZero lamport.toInt64, replica, maxZero counter.toInt64,
      maxZero seq.toInt64⟩ }

/-- The full rebuild over fresh stores. -/
def rebuild : Exec Error (PgTree json opRef) (Option Operation × UInt64) := do
  TreeCrdt.onTree (TreeCrdt.onNodes NodeStore.reset)
  TreeCrdt.onTree (TreeCrdt.onPayloads PayloadStore.reset)
  TreeCrdt.onIndex ParentOpIndex.reset
  TreeCrdt.replayFromStorageWithMaterialization
  TreeCrdt.onTree (TreeCrdt.onNodes PgNodeStore.flushLastChange)
  TreeCrdt.onIndex PgParentOpIndex.flush
  TreeCrdt.onTree (gets fun t => (t.head, t.opCount))

def ensureMaterializedInTx : Exec Error (Document json opRef) Unit := do
  if !(← gets fun d => d.cursor.dirty) then
    return
  clearMaterialized
  let (head, seq) ← withTree rebuild
  match head with
  | some last =>
    updateTreeMetaHead last.metadata.lamport last.metadata.id.replica.bytes
      last.metadata.id.counter seq
  | none => updateTreeMetaHead 0 [] 0 0

def ensureMaterialized : Exec Error (Document json opRef) Unit := atomically ensureMaterializedInTx

/-! ## The reads -/

structure TreeChildRow where
  node : NodeId
  orderKey : Option Bytes
  deriving DecidableEq

/-- The row of a child that is not tombstoned. -/
def isShownUnder (parent : NodeId) (row : NodeRow) : Bool :=
  row.parent = some parent && !row.tombstone

/-- `order_key > $3 OR (order_key = $3 AND node > $4)`; a key that is `NULL` is neither. -/
def isBehind (node : NodeId) (row : NodeRow) (cursor : Bytes × Bytes) : Bool :=
  match row.orderKey with
  | some key =>
    cursor.1.nats < key.nats || (key = cursor.1 && cursor.2.nats < (nodeToBytes node).nats)
  | none => false

def treeChildren (parent : NodeId) : Exec Error (Document json opRef) (List NodeId) := do
  ensureMaterialized
  if parent = NodeId.TRASH then
    return []
  gets fun d => PgNodeStore.select d.nodes (isShownUnder parent)

def treeChildrenPage (parent : NodeId) (cursor : Option (Bytes × Bytes)) (limit : UInt32) :
    Exec Error (Document json opRef) (List TreeChildRow) := do
  ensureMaterialized
  if parent = NodeId.TRASH then
    return []
  gets fun d =>
    ((PgNodeStore.selectRows d.nodes fun node row =>
      isShownUnder parent row && cursor.all (isBehind node row)).take limit.toNat).map
        fun e => ⟨e.1, e.2.orderKey⟩

def treePayload (node : NodeId) : Exec Error (Document json opRef) (Option Bytes) := do
  ensureMaterialized
  gets fun d => (d.payloads.lookup node).bind (·.payload)

def treeNodeCount : Exec Error (Document json opRef) ℕ := do
  ensureMaterialized
  gets fun d => (d.nodes.entries.filter fun e => !e.2.tombstone && e.1 ≠ NodeId.ROOT).length

def treeParent (node : NodeId) : Exec Error (Document json opRef) (Option NodeId) := do
  ensureMaterialized
  gets fun d => (d.nodes.lookup node).bind (·.parent)

def treeExists (node : NodeId) : Exec Error (Document json opRef) Bool := do
  ensureMaterialized
  gets fun d => (d.nodes.lookup node).any fun row => !row.tombstone

/-- The cursor behind a row. -/
def TreeChildRow.cursor (row : TreeChildRow) : Option (Bytes × Bytes) :=
  row.orderKey.map fun key => (key, nodeToBytes row.node)

/-- Pages of these sizes, each from the last row of those before. -/
def childrenPages (parent : NodeId) :
    List UInt32 → Option (Bytes × Bytes) → Exec Error (Document json opRef) (List TreeChildRow)
  | [], _ => return []
  | limit :: limits, cursor => do
    let page ← treeChildrenPage parent cursor limit
    return page ++ (← childrenPages parent limits ((page.getLast?.bind (·.cursor)).or cursor))

/-- The reads of a document are those of a tree. -/
structure Agrees {S C : Type} (d : Document json opRef)
    (t : TreeCrdt S C MemoryNodeStore MemoryPayloadStore) : Prop where
  children : ∀ p, p ≠ NodeId.TRASH →
    ∃ l, Gives (treeChildren p) d l ∧ Gives (TreeCrdt.children p) t.nodes l
  parent : ∀ n, ∃ p, Gives (treeParent n) d p ∧ Gives (TreeCrdt.parent n) t.nodes p
  payload : ∀ n, ∃ v, Gives (treePayload n) d v ∧ Gives (TreeCrdt.payload n) t.payloads v
  exists_iff : ∀ n, ∃ b known tombstoned, Gives (treeExists n) d b ∧
    Gives (TreeCrdt.isKnown n) t.nodes known ∧ Gives (TreeCrdt.isTombstoned n) t.nodes tombstoned ∧
    (b = true ↔ known = true ∧ tombstoned = false)
  nodeCount : ∃ nodes, Gives treeNodeCount d nodes.length ∧ Gives TreeCrdt.listNodes t.nodes nodes
  pages : ∀ p limits, (∀ limit ∈ limits, 1 ≤ limit) → ∃ l rows, Gives (treeChildren p) d l ∧
    Gives (childrenPages p limits none) d rows ∧
    rows.map (·.node) = l.take (limits.map UInt32.toNat).sum

/-! ## What a rebuild leaves -/

variable {doc : Doc} {backs ops : List Operation} {d d' : Document json opRef}

/-- The tables have a document. -/
structure Document.Holds (d : Document json opRef) (doc : Doc) : Prop where
  nodes : PgNodeStore.Models { table := d.nodes } (doc.rows, doc.flags)
  payloads : ∀ n, (d.payloads.lookup n).bind (·.payload) = (doc.payloads n).payload

/-- The tables are those of the log. -/
structure Document.Materialized (d : Document json opRef) : Prop where
  clean : d.cursor.dirty = false
  holds : ∃ backs, Storage.scanSince d.ops 0 = backs.map .ok ∧
    d.Holds (TreeCrdt.replayedDoc PgNodeStore.backend backs)

/-- A log that reads back as operations on nodes other than `ROOT` and `TRASH`: its document has
exact flags, and is like the one in memory. -/
theorem replayedDoc_exact (hsame : List.Forall₂ Operation.Same backs ops)
    (hplain : ∀ op ∈ ops, ¬ op.kind.node.special) :
    (TreeCrdt.replayedDoc PgNodeStore.backend backs).Exact ∧
      (TreeCrdt.replayedDoc PgNodeStore.backend backs).Matches
        (Doc.initial.applyAll Backend.memory ops) := by
  have hroot : ∀ op ∈ backs, op.kind.node ≠ NodeId.ROOT := by
    intro back hback hroot
    obtain ⟨i, hi, rfl⟩ := List.getElem_of_mem hback
    have hj : i < ops.length := hsame.length_eq ▸ hi
    have hop := hsame.get hi hj
    refine hplain _ (List.getElem_mem hj) (.inr ?_)
    exact (congrArg OperationKind.node hop.kind).symm.trans hroot
  have hmatches := Doc.initial_matches.applyAll PgNodeStore.backend_faithful Backend.memory_faithful
    hsame hroot
  have hshaped := hmatches.shaped (Doc.Shaped.applyAll hplain)
  refine ⟨hshaped.refreshAll fun n => ?_, hmatches.rows, hmatches.payloads⟩
  rw [Doc.flags_applyAll]
  rfl

/-- What tables that were cleared stand for. -/
def clearedDoc : Doc := ⟨fun _ => none, fun _ => false, fun _ => {}⟩

theorem cleared_models : ModelsDoc (({} : PgNodeStore), ({} : PgPayloadStore)) clearedDoc :=
  ⟨⟨rfl, rfl, ⟨by simp, by simp, by simp⟩, by simp [PgNodeStore.rowAt]⟩,
    fun _ => rfl, fun _ => rfl, by simp⟩

theorem replay_stands {storage : PgOpStorage json opRef}
    (hlog : Storage.scanSince storage 0 = backs.map .ok)
    (hshaped : (Doc.initial.applyAll PgNodeStore.backend backs).Shaped) (start : Doc) :
    Runs (TreeCrdt.Stands storage) start
      (TreeCrdt.replayFromStorageWithMaterialization : Exec Error (PgTree json opRef) Unit)
      (fun _ => True) (TreeCrdt.replayedDoc PgNodeStore.backend backs) := by
  rw [← PgNodeStore.lawful_backend] at hshaped ⊢
  exact TreeCrdt.replayFromStorageWithMaterialization_runs hlog hshaped.listed hshaped.normal
    PgNodeStore.allNodes_runs start

/-- Over tables that were cleared, a rebuild makes the document of the log, in the tables too. -/
theorem rebuild_run {s : PgTree json opRef} (hs : ModelsDoc (s.1.nodes, s.1.payloads) clearedDoc)
    (hlog : Storage.scanSince s.1.storage 0 = backs.map .ok)
    (hshaped : (Doc.initial.applyAll PgNodeStore.backend backs).Shaped) :
    ∃ r s', rebuild s = some (.ok r, s') ∧ s'.1.storage = s.1.storage ∧
      PgNodeStore.Models { table := s'.1.nodes.table }
        ((TreeCrdt.replayedDoc PgNodeStore.backend backs).rows,
          (TreeCrdt.replayedDoc PgNodeStore.backend backs).flags) ∧
      PgPayloadStore.Models s'.1.payloads
        (TreeCrdt.replayedDoc PgNodeStore.backend backs).payloads := by
  have hstands : TreeCrdt.Stands s.1.storage s clearedDoc := ⟨rfl, hs⟩
  obtain ⟨_, s₁, hnodes, -, hs₁⟩ :=
    TreeCrdt.onNodes_stands (LawfulNodeStore.reset (clearedDoc.rows, clearedDoc.flags)) s hstands
  obtain ⟨_, s₂, hpayloads, -, hs₂⟩ :=
    TreeCrdt.onPayloads_stands (LawfulPayloadStore.reset _) s₁ hs₁
  obtain ⟨_, s₃, hindex, -, hs₃⟩ :=
    TreeCrdt.onIndex_stands (I := PgParentOpIndex opRef) TotalIndex.reset s₂ hs₂
  obtain ⟨_, s₄, hreplay, -, hs₄⟩ := replay_stands hlog hshaped _ s₃ hs₃
  obtain ⟨n, hn⟩ : ∃ n, PgNodeStore.flushLastChange s₄.1.nodes = some (.ok (), n) := ⟨_, rfl⟩
  have hflush : (TreeCrdt.onTree (TreeCrdt.onNodes PgNodeStore.flushLastChange) :
      Exec Error (PgTree json opRef) Unit) s₄ = some (.ok (), ({ s₄.1 with nodes := n }, s₄.2)) :=
    zoom_of_ok (TreeCrdt.onNodes_run hn)
  refine ⟨(s₄.1.head, s₄.1.opCount), ({ s₄.1 with nodes := n },
    { table := s₄.2.pending.foldl PgParentOpIndex.put s₄.2.table }), ?_, hs₄.storage,
    PgNodeStore.flush_runs hs₄.doc.1 hn, hs₄.doc.2⟩
  unfold rebuild
  rw [bind_of_ok hnodes, bind_of_ok hpayloads, bind_of_ok hindex, bind_of_ok hreplay,
    bind_of_ok hflush]
  rfl

/-- A method of a tree that returns from a new tree over the tables. -/
theorem withTree_run {c : Exec Error (PgTree json opRef) α} {P : PgTree json opRef → Prop}
    (h : ∀ s : PgTree json opRef, s.1.storage = d.ops → s.1.nodes = { table := d.nodes } →
      s.1.payloads = { table := d.payloads } → ∃ r s', c s = some (.ok r, s') ∧ P s') :
    ∃ r s', withTree c d = some (.ok r, d.write s') ∧ P s' := by
  obtain ⟨t, ht, hstorage, hnodes, hpayloads⟩ : ∃ t, TreeCrdt.withStores postgresReplica d.ops
      ({} : LamportClock) ({ table := d.nodes } : PgNodeStore)
      ({ table := d.payloads } : PgPayloadStore) = .ok t ∧ t.storage = d.ops ∧
        t.nodes = { table := d.nodes } ∧ t.payloads = { table := d.payloads } :=
    ⟨_, rfl, rfl, rfl, rfl⟩
  obtain ⟨r, s', hrun, hP⟩ := h (t, { table := d.oprefsChildren }) hstorage hnodes hpayloads
  refine ⟨r, s', ?_, hP⟩
  unfold withTree
  simp only [ht, hrun, Option.map_some]

theorem ensureMaterialized_clean (h : d.cursor.dirty = false) :
    ensureMaterialized d = some (.ok (), d) := by
  unfold ensureMaterialized atomically ensureMaterializedInTx
  rw [gets_bind_run, h]
  rfl

/-- **A rebuild.** Behind it a dirty document has the tables of its log. -/
theorem ensureMaterialized_dirty (h : d.cursor.dirty = true)
    (hlog : Storage.scanSince d.ops 0 = backs.map .ok)
    (hshaped : (Doc.initial.applyAll PgNodeStore.backend backs).Shaped) :
    ∃ d', ensureMaterialized d = some (.ok (), d') ∧ d'.Materialized ∧ d'.ops = d.ops := by
  set cleared : Document json opRef := { d with nodes := ∅, payloads := ∅, oprefsChildren := ∅ }
    with hcleared
  obtain ⟨⟨head, seq⟩, s', hrun, hstorage, hnodes, hpayloads⟩ := withTree_run (d := cleared)
    (c := rebuild) (P := fun s' => s'.1.storage = d.ops ∧
      PgNodeStore.Models { table := s'.1.nodes.table }
        ((TreeCrdt.replayedDoc PgNodeStore.backend backs).rows,
          (TreeCrdt.replayedDoc PgNodeStore.backend backs).flags) ∧
      PgPayloadStore.Models s'.1.payloads
        (TreeCrdt.replayedDoc PgNodeStore.backend backs).payloads) fun s hops hn hp => by
    obtain ⟨r, s', hrun, hstorage, hmodels⟩ := rebuild_run
      (s := s) (by rw [hn, hp]; exact cleared_models) (by rw [hops]; exact hlog) hshaped
    exact ⟨r, s', hrun, hstorage.trans hops, hmodels⟩
  have hholds : ∀ cursor : TreeMeta, cursor.dirty = false →
      Document.Materialized { cleared.write s' with cursor } := fun cursor hcursor =>
    ⟨hcursor, backs, by rw [← hlog, ← hstorage]; rfl, hnodes, hpayloads.table⟩
  unfold ensureMaterialized atomically ensureMaterializedInTx clearMaterialized
  rw [gets_bind_run, h]
  simp only [Bool.not_true, Bool.false_eq_true, if_false]
  rw [modify_bind_run, bind_of_ok hrun]
  cases head with
  | none => exact ⟨_, rfl, hholds _ rfl, hstorage⟩
  | some last => exact ⟨_, rfl, hholds _ rfl, hstorage⟩

end Postgres

end Treecrdt
