import TreecrdtLean.Core.Materialize
import TreecrdtLean.Spec.Rebuild
import TreecrdtLean.Tree.Flags

/-!
# The rows of the index

A tree over the in-memory stores, next to an index that keeps every record, stands for a document
and the rows that were recorded (`Indexed`). What a full replay records is a function of the log
(`Rebuilt`).
-/

namespace Treecrdt

open Exec Forest

/-- A parent, an operation that matters for its children, and the position of the record. -/
abbrev IndexRow := NodeId × OperationId × UInt64

namespace Doc

/-- An operation, under the parent that its node had and the one that it gets. -/
def opRows (d : Doc) (op : Operation) (seq : UInt64) : List IndexRow :=
  ((affectedParents (d.rows.parent op.kind.node) op.kind).filter (· ≠ NodeId.TRASH)).map
    fun parent => (parent, op.metadata.id, seq)

/-- The operations of a log. -/
noncomputable def logRows : Doc → UInt64 → List Operation → List IndexRow
  | _, _, [] => []
  | d, seq, op :: ops => d.opRows op (seq + 1) ++ (d.apply Backend.memory op).logRows (seq + 1) ops

/-- The last writer of a payload, under a parent. -/
def writerRows (d : Doc) (seq : UInt64) (parent node : NodeId) : List IndexRow :=
  (d.payloads node).lastWriter.toList.map fun w => (parent, w.2, seq)

/-- The last writer of a payload, under the parent of its node. -/
def payloadRows (d : Doc) (seq : UInt64) (node : NodeId) : List IndexRow :=
  if node.special then []
  else
    match d.rows.parent node with
    | none => []
    | some parent => if parent = NodeId.TRASH then [] else d.writerRows seq parent node

/-- What a full replay of the log records. -/
def Rebuilt (ops : List Operation) (row : IndexRow) : Prop :=
  row ∈ initial.logRows 0 ops ∨
    ∃ node, row ∈ (initial.applyAll Backend.memory ops).payloadRows
      (max (UInt64.ofNat ops.length) 1) node

end Doc

namespace TreeCrdt

variable {S C α : Type}

/-- The stores stand for a document, and these rows were recorded. -/
structure Indexed (storage : S) (s : StoreTree S C × RecordingIndex) (a : Doc × List IndexRow) :
    Prop where
  storage : s.1.storage = storage
  doc : ModelsDoc (s.1.nodes, s.1.payloads) a.1
  rows : s.2.records = a.2

variable {storage : S} {d d' : Doc} {rows : List IndexRow} {Q : α → Prop}

/-! ## Methods next to the index -/

theorem modify_indexed {f : StoreTree S C → StoreTree S C}
    (hf : ∀ t, (f t).storage = t.storage ∧ (f t).nodes = t.nodes ∧ (f t).payloads = t.payloads) :
    Runs (Indexed storage) (d, rows) (onTree (modify f) :
      Exec Error (StoreTree S C × RecordingIndex) Unit) (fun _ => True) (d, rows) := by
  intro s hs
  obtain ⟨hstorage, hnodes, hpayloads⟩ := hf s.1
  refine ⟨(), (f s.1, s.2), rfl, trivial, hstorage.trans hs.storage, ?_, hs.rows⟩
  show ModelsDoc ((f s.1).nodes, (f s.1).payloads) d
  rw [hnodes, hpayloads]
  exact hs.doc

theorem onStores_indexed {c : Exec Error MemoryStores α} (h : Runs ModelsDoc d c Q d') :
    Runs (Indexed storage) (d, rows) (onTree (onStores c) :
      Exec Error (StoreTree S C × RecordingIndex) α) Q (d', rows) := by
  intro s hs
  obtain ⟨x, n, hrun, hx, hn⟩ := h _ hs.doc
  exact ⟨x, _, zoom_of_ok (onStores_run hrun), hx, hs.storage, hn, hs.rows⟩

theorem onNodes_indexed {c : Exec Error MemoryNodeStore α} {r : Rows} {f : NodeId → Bool}
    (h : Runs MemoryNodeStore.Models (d.rows, d.flags) c Q (r, f)) :
    Runs (Indexed storage) (d, rows) (onTree (onNodes c) :
      Exec Error (StoreTree S C × RecordingIndex) α) Q ({ d with rows := r, flags := f }, rows) := by
  intro s hs
  obtain ⟨x, n, hrun, hx, hn⟩ := h _ hs.doc.1
  exact ⟨x, _, zoom_of_ok (onNodes_run hrun), hx, hs.storage, ⟨hn, hs.doc.2⟩, hs.rows⟩

theorem onPayloads_indexed {c : Exec Error MemoryPayloadStore α} {p : NodeId → PayloadRow}
    (h : Runs MemoryPayloadStore.Models d.payloads c Q p) :
    Runs (Indexed storage) (d, rows) (onTree (onPayloads c) :
      Exec Error (StoreTree S C × RecordingIndex) α) Q ({ d with payloads := p }, rows) := by
  intro s hs
  obtain ⟨x, n, hrun, hx, hn⟩ := h _ hs.doc.2
  exact ⟨x, _, zoom_of_ok (onPayloads_run hrun), hx, hs.storage, ⟨hs.doc.1, hn⟩, hs.rows⟩

theorem reset_indexed : Runs (Indexed storage) (d, rows)
    (onIndex ParentOpIndex.reset : Exec Error (StoreTree S C × RecordingIndex) Unit)
    (fun _ => True) (d, []) :=
  fun _ hs => ⟨(), _, rfl, trivial, hs.storage, hs.doc, rfl⟩

theorem record_indexed (parent : NodeId) (id : OperationId) (seq : UInt64) :
    Runs (Indexed storage) (d, rows)
      (onIndex (ParentOpIndex.record parent id seq) :
        Exec Error (StoreTree S C × RecordingIndex) Unit)
      (fun _ => True) (d, rows ++ [(parent, id, seq)]) :=
  fun _ hs => ⟨(), _, rfl, trivial, hs.storage, hs.doc,
    congrArg (· ++ [(parent, id, seq)]) hs.rows⟩

theorem recordAll_run (parents : List NodeId) (id : OperationId) (seq : UInt64)
    (i : RecordingIndex) :
    forEach (fun parent => ParentOpIndex.record parent id seq) parents i =
      some (.ok (), ⟨i.records ++ parents.map fun parent => (parent, id, seq)⟩) := by
  induction parents generalizing i with
  | nil => simp [forEach]
  | cons parent parents ih =>
    have hrecord : (ParentOpIndex.record parent id seq : Exec Error RecordingIndex Unit) i =
        some (.ok (), ⟨i.records ++ [(parent, id, seq)]⟩) := rfl
    rw [forEach, bind_of_ok hrecord, ih]
    simp

theorem recordParents_indexed (parents : List NodeId) (id : OperationId) (seq : UInt64) :
    Runs (Indexed storage) (d, rows)
      (onIndex (recordParents parents id seq) : Exec Error (StoreTree S C × RecordingIndex) Unit)
      (fun _ => True)
      (d, rows ++ (parents.filter (· ≠ NodeId.TRASH)).map fun parent => (parent, id, seq)) := by
  intro s hs
  refine ⟨(), _, zoom_of_ok (recordAll_run _ id seq s.2), trivial, hs.storage, hs.doc, ?_⟩
  exact congrArg (· ++ _) hs.rows

theorem recordPayloadWriter_indexed (parent node : NodeId) (seq : UInt64) :
    Runs (Indexed storage) (d, rows)
      (recordPayloadWriter parent node seq : Exec Error (StoreTree S C × RecordingIndex) Unit)
      (fun _ => True) (d, rows ++ d.writerRows seq parent node) := by
  unfold recordPayloadWriter
  refine (onPayloads_indexed (LawfulPayloadStore.lastWriter d.payloads node)).bind fun w hw => ?_
  rw [Doc.writerRows, ← hw]
  cases w with
  | none =>
    rw [Option.toList_none, List.map_nil, List.append_nil]
    exact Runs.pure trivial
  | some w => exact record_indexed parent w.2 seq

/-! ## A full replay -/

variable [Clock C]

theorem indexRows_indexed (hd : Acyclic d.rows.up) (ops : List Operation) (head : Option Operation)
    (seq : UInt64) :
    Runs (Indexed storage) (d, rows)
      (indexRows (ops.map .ok) head seq : Exec Error (StoreTree S C × RecordingIndex) _)
      (fun x => x.2 = seq + UInt64.ofNat ops.length)
      (d.applyAll Backend.memory ops, rows ++ d.logRows seq ops) := by
  induction ops generalizing d rows head seq with
  | nil =>
    rw [Doc.logRows, List.append_nil]
    exact Runs.pure (by simp)
  | cons op ops ih =>
    rw [List.map_cons, indexRows, Doc.logRows, ← List.append_assoc]
    refine (modify_indexed (f := observed op) fun _ => ⟨rfl, rfl, rfl⟩).bind fun _ _ => ?_
    refine (onStores_indexed (applyForward_runs hd op)).bind fun snap hsnap => ?_
    refine (recordParents_indexed (affectedParents snap.parent op.kind) op.metadata.id
      (seq + 1)).bind fun _ _ => ?_
    rw [hsnap]
    refine (ih (Doc.acyclic_apply hd _ op) (some op) (seq + 1)).imp fun x hx => ?_
    rw [hx, List.length_cons, UInt64.ofNat_add, UInt64.add_comm (UInt64.ofNat _),
      ← UInt64.add_assoc]
    rfl

omit [Clock C] in
theorem indexPayload_indexed (seq : UInt64) (node : NodeId) :
    Runs (Indexed storage) (d, rows)
      (indexPayload seq node : Exec Error (StoreTree S C × RecordingIndex) Unit)
      (fun _ => True) (d, rows ++ d.payloadRows seq node) := by
  unfold indexPayload Doc.payloadRows
  split
  · rw [List.append_nil]
    exact Runs.pure trivial
  refine (onNodes_indexed (LawfulNodeStore.parent d.rows d.flags node)).bind fun parent hparent => ?_
  rw [← hparent]
  cases parent with
  | none =>
    rw [List.append_nil]
    exact Runs.pure trivial
  | some parent =>
    simp only
    split
    · rw [List.append_nil]
      exact Runs.pure trivial
    · exact recordPayloadWriter_indexed parent node seq

omit [Clock C] in
theorem indexPayloads_indexed (seq : UInt64) (nodes : List NodeId) :
    Runs (Indexed storage) (d, rows)
      (forEach (indexPayload seq) nodes : Exec Error (StoreTree S C × RecordingIndex) Unit)
      (fun _ => True) (d, rows ++ nodes.flatMap (d.payloadRows seq)) := by
  induction nodes generalizing rows with
  | nil =>
    rw [List.flatMap_nil, List.append_nil]
    exact Runs.pure trivial
  | cons node nodes ih =>
    rw [forEach, List.flatMap_cons, ← List.append_assoc]
    exact (indexPayload_indexed seq node).bind fun _ _ => ih

/-- A document after operations has normal version vectors. -/
theorem normal_applyAll (ops : List Operation) (hd : d.rows.Normal) :
    (d.applyAll Backend.memory ops).rows.Normal := by
  induction ops generalizing d with
  | nil => exact hd
  | cons op ops ih => exact ih ((Doc.frame_apply d op).normal hd)

/-- The document that a full replay of the log makes. -/
noncomputable def rebuiltDoc (ops : List Operation) : Doc :=
  let d := Doc.initial.applyAll Backend.memory ops
  { d with flags := d.rows.refreshedAll d.flags }

theorem mem_nodes_of_payloadRows {seq : UInt64} {node : NodeId} {row : IndexRow}
    (h : row ∈ d.payloadRows seq node) : (d.rows node).isSome := by
  have hparent : ∃ parent, d.rows.parent node = some parent := by
    unfold Doc.payloadRows at h
    cases hp : d.rows.parent node with
    | some parent => exact ⟨parent, rfl⟩
    | none =>
      rw [hp] at h
      split at h <;> cases h
  obtain ⟨parent, hparent⟩ := hparent
  obtain ⟨r, hr, -⟩ := Option.bind_eq_some_iff.mp hparent
  rw [hr]
  rfl

section

variable [Storage S] {ops : List Operation}

/-- What is left of a full replay behind the fold. -/
def finishReplay (seq : UInt64) : Exec Error (StoreTree S C × RecordingIndex) Unit := do
  onTree (onNodes refreshAllTombstones)
  let nodes ← onTree (onNodes NodeStore.allNodes)
  forEach (indexPayload (max seq 1)) nodes

/-- A full replay returns from its fold. -/
theorem replay_folds (hlog : Storage.scanSince storage 0 = ops.map .ok)
    {s : StoreTree S C × RecordingIndex} (hs : s.1.storage = storage) :
    ∃ s₁, Indexed storage s₁ (Doc.initial.applyAll Backend.memory ops, Doc.initial.logRows 0 ops) ∧
      replayFromStorageWithMaterialization s = finishReplay (UInt64.ofNat ops.length) s₁ := by
  let t : StoreTree S C := { s.1 with
    versionVector := .new, nodes := MemoryNodeStore.default, payloads := {}, head := none
    opCount := 0 }
  have hreset : Indexed storage (t, ({} : RecordingIndex)) (Doc.initial, []) :=
    ⟨hs, ⟨MemoryNodeStore.default_models, MemoryPayloadStore.default_models⟩, rfl⟩
  obtain ⟨⟨head, seq⟩, s₁, hrows, hseq, hs₁⟩ :=
    indexRows_indexed Doc.acyclic_initial ops none 0 _ hreset
  let t₂ : StoreTree S C := { s₁.1 with
    head := head, opCount := seq
    counter := max s₁.1.counter (s₁.1.versionVector.get s₁.1.replicaId) }
  refine ⟨(t₂, s₁.2), ⟨hs₁.storage, hs₁.doc, hs₁.rows⟩, ?_⟩
  have hscan : (onTree (gets fun t => Storage.scanSince t.storage 0) :
      Exec Error (StoreTree S C × RecordingIndex) _) (t, {}) = some (.ok (ops.map .ok), (t, {})) := by
    rw [← hlog, ← hs]
    rfl
  have hseq' : seq = UInt64.ofNat ops.length := by simpa using hseq
  rw [← hseq']
  calc replayFromStorageWithMaterialization s
      = (do
        let rows ← onTree (gets fun t => Storage.scanSince t.storage 0)
        let x ← indexRows rows none 0
        onTree (modify fun t => { t with head := x.1, opCount := x.2 })
        onTree (modify fun t =>
          { t with counter := max t.counter (t.versionVector.get t.replicaId) })
        finishReplay x.2 : Exec Error (StoreTree S C × RecordingIndex) Unit) (t, {}) := rfl
    _ = finishReplay seq (t₂, s₁.2) := by
      rw [bind_of_ok hscan, bind_of_ok hrows]
      rfl

omit [Clock C] [Storage S] in
/-- The flags are refreshed, and the payloads are recorded. -/
theorem finishReplay_of_refreshed {s : StoreTree S C × RecordingIndex}
    (hs : Indexed storage s (Doc.initial.applyAll Backend.memory ops, Doc.initial.logRows 0 ops))
    {n : MemoryNodeStore} (hrefresh : refreshAllTombstones s.1.nodes = some (.ok (), n)) :
    ∃ s' rows, finishReplay (UInt64.ofNat ops.length) s = some (.ok (), s') ∧
      Indexed storage s' (rebuiltDoc ops, rows) ∧ ∀ row, row ∈ rows ↔ Doc.Rebuilt ops row := by
  set d := Doc.initial.applyAll Backend.memory ops with hd
  have hnormal : d.rows.Normal := normal_applyAll ops Doc.accounted_initial.normal
  have hn : MemoryNodeStore.Models n (d.rows, d.rows.refreshedAll d.flags) :=
    MemoryNodeStore.refreshAllTombstones_triple hnormal d.flags _ hs.doc.1 _ _ hrefresh
  have hfresh : Indexed storage (({ s.1 with nodes := n } : StoreTree S C), s.2)
      (rebuiltDoc ops, Doc.initial.logRows 0 ops) := ⟨hs.storage, ⟨hn, hs.doc.2⟩, hs.rows⟩
  obtain ⟨nodes, s₁, hnodes, hmem, hs₁⟩ := onNodes_indexed
    (MemoryNodeStore.allNodes_runs d.rows (d.rows.refreshedAll d.flags)) _ hfresh
  obtain ⟨_, s₂, hpayloads, -, hs₂⟩ :=
    indexPayloads_indexed (max (UInt64.ofNat ops.length) 1) nodes _ hs₁
  refine ⟨s₂, _, ?_, hs₂, fun row => ?_⟩
  · have hrun : (onTree (onNodes refreshAllTombstones) :
        Exec Error (StoreTree S C × RecordingIndex) Unit) s =
          some (.ok (), (({ s.1 with nodes := n } : StoreTree S C), s.2)) :=
      zoom_of_ok (onNodes_run hrefresh)
    rw [finishReplay, bind_of_ok hrun, bind_of_ok hnodes, hpayloads]
  · rw [List.mem_append, List.mem_flatMap]
    refine or_congr_right ⟨fun ⟨n, _, hrow⟩ => ⟨n, hrow⟩, fun ⟨n, hrow⟩ => ⟨n, ?_, hrow⟩⟩
    exact (hmem n).mpr (mem_nodes_of_payloadRows hrow)

/-- If a full replay returns, the index has the rows of the log, and the flags are fresh. -/
theorem replayFromStorageWithMaterialization_rows
    (hlog : Storage.scanSince storage 0 = ops.map .ok) {s s' : StoreTree S C × RecordingIndex}
    (hs : s.1.storage = storage)
    (hrun : replayFromStorageWithMaterialization s = some (.ok (), s')) :
    ∃ rows, Indexed storage s' (rebuiltDoc ops, rows) ∧
      ∀ row, row ∈ rows ↔ Doc.Rebuilt ops row := by
  obtain ⟨s₁, hs₁, heq⟩ := replay_folds hlog hs
  rw [heq, finishReplay] at hrun
  obtain ⟨e, -, he⟩ | ⟨_, s₂, hrefresh, hrest⟩ := bind_some hrun
  · cases he
  obtain ⟨t, hnodes, -⟩ := zoom_some hrefresh
  obtain ⟨n, hn, -⟩ := onNodes_some hnodes
  obtain ⟨s'', rows, hfinish, hindexed, hrows⟩ := finishReplay_of_refreshed hs₁ hn
  rw [finishReplay, hrun] at hfinish
  cases hfinish
  exact ⟨rows, hindexed, hrows⟩

/-- A full replay returns where the listed parents are a forest. -/
theorem replayFromStorageWithMaterialization_returns
    (hlog : Storage.scanSince storage 0 = ops.map .ok)
    (hlisted : Acyclic (Doc.initial.applyAll Backend.memory ops).rows.listed)
    {s : StoreTree S C × RecordingIndex} (hs : s.1.storage = storage) :
    ∃ s', replayFromStorageWithMaterialization s = some (.ok (), s') := by
  obtain ⟨s₁, hs₁, heq⟩ := replay_folds hlog hs
  obtain ⟨_, n, hrefresh, -, -⟩ := refreshAllTombstones_runs hlisted
    (normal_applyAll ops Doc.accounted_initial.normal) _ (MemoryNodeStore.allNodes_runs _ _) _
    hs₁.doc.1
  obtain ⟨s', _, hfinish, -⟩ := finishReplay_of_refreshed hs₁ hrefresh
  exact ⟨s', heq.trans hfinish⟩

end

end TreeCrdt

end Treecrdt
