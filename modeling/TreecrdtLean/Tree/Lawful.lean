import TreecrdtLean.Core.Materialize
import TreecrdtLean.Core.Replay
import TreecrdtLean.Spec.Flags

/-!
# A full replay over lawful stores

Over any stores that refine the document, and next to an index that never fails, a full replay makes
the document of the log, with the flags of all nodes fresh (`replayFromStorageWithMaterialization_runs`).
-/

namespace Treecrdt

open Exec Forest

/-- An index whose methods always return. -/
class TotalIndex (I : Type) [ParentOpIndex I] : Prop where
  reset : ∀ i : I, ∃ i', ParentOpIndex.reset i = some (.ok (), i')
  record : ∀ (parent : NodeId) (id : OperationId) (seq : UInt64) (i : I),
    ∃ i', ParentOpIndex.record parent id seq i = some (.ok (), i')

namespace TreeCrdt

section

variable {S C N P I α : Type} [NodeStore N] [PayloadStore P] [LawfulNodeStore N]
  [LawfulPayloadStore P]

/-- The stores stand for a document, over a log. -/
structure Stands (storage : S) (s : TreeCrdt S C N P × I) (d : Doc) : Prop where
  storage : s.1.storage = storage
  doc : ModelsDoc (s.1.nodes, s.1.payloads) d

variable {storage : S} {d d' : Doc} {Q : α → Prop}

/-! ## Methods next to the index -/

theorem modify_stands {f : TreeCrdt S C N P → TreeCrdt S C N P}
    (hf : ∀ t, (f t).storage = t.storage ∧ (f t).nodes = t.nodes ∧ (f t).payloads = t.payloads) :
    Runs (Stands storage) d (onTree (modify f) : Exec Error (TreeCrdt S C N P × I) Unit)
      (fun _ => True) d := by
  intro s hs
  obtain ⟨hstorage, hnodes, hpayloads⟩ := hf s.1
  refine ⟨(), (f s.1, s.2), rfl, trivial, hstorage.trans hs.storage, ?_⟩
  show ModelsDoc ((f s.1).nodes, (f s.1).payloads) d
  rw [hnodes, hpayloads]
  exact hs.doc

theorem onStores_stands {c : Exec Error (N × P) α} (h : Runs ModelsDoc d c Q d') :
    Runs (Stands storage) d (onTree (onStores c) : Exec Error (TreeCrdt S C N P × I) α) Q d' := by
  intro s hs
  obtain ⟨x, n, hrun, hx, hn⟩ := h _ hs.doc
  exact ⟨x, _, zoom_of_ok (onStores_run hrun), hx, hs.storage, hn⟩

theorem onNodes_stands {c : Exec Error N α} {r : Rows} {f : NodeId → Bool}
    (h : Runs LawfulNodeStore.Models (d.rows, d.flags) c Q (r, f)) :
    Runs (Stands storage) d (onTree (onNodes c) : Exec Error (TreeCrdt S C N P × I) α) Q
      { d with rows := r, flags := f } := by
  intro s hs
  obtain ⟨x, n, hrun, hx, hn⟩ := h _ hs.doc.1
  exact ⟨x, _, zoom_of_ok (onNodes_run hrun), hx, hs.storage, hn, hs.doc.2⟩

theorem onPayloads_stands {c : Exec Error P α} {p : NodeId → PayloadRow}
    (h : Runs LawfulPayloadStore.Models d.payloads c Q p) :
    Runs (Stands storage) d (onTree (onPayloads c) : Exec Error (TreeCrdt S C N P × I) α) Q
      { d with payloads := p } := by
  intro s hs
  obtain ⟨x, n, hrun, hx, hn⟩ := h _ hs.doc.2
  exact ⟨x, _, zoom_of_ok (onPayloads_run hrun), hx, hs.storage, hs.doc.1, hn⟩

theorem onIndex_stands {c : Exec Error I Unit} (h : ∀ i, ∃ i', c i = some (.ok (), i')) :
    Runs (Stands storage) d (onIndex c : Exec Error (TreeCrdt S C N P × I) Unit)
      (fun _ => True) d := by
  intro s hs
  obtain ⟨i, hrun⟩ := h s.2
  exact ⟨(), _, zoom_of_ok hrun, trivial, hs.storage, hs.doc⟩

/-! ## Records -/

variable [ParentOpIndex I] [TotalIndex I]

omit [NodeStore N] [PayloadStore P] [LawfulNodeStore N] [LawfulPayloadStore P] in
theorem recordParents_total (parents : List NodeId) (id : OperationId) (seq : UInt64) (i : I) :
    ∃ i', recordParents parents id seq i = some (.ok (), i') := by
  unfold recordParents
  induction parents.filter (· ≠ NodeId.TRASH) generalizing i with
  | nil => exact ⟨i, rfl⟩
  | cons parent parents ih =>
    obtain ⟨i₁, hrecord⟩ := TotalIndex.record parent id seq i
    obtain ⟨i', hrest⟩ := ih i₁
    exact ⟨i', by rw [forEach, bind_of_ok hrecord, hrest]⟩

theorem recordPayloadWriter_stands (parent node : NodeId) (seq : UInt64) :
    Runs (Stands storage) d
      (recordPayloadWriter parent node seq : Exec Error (TreeCrdt S C N P × I) Unit)
      (fun _ => True) d := by
  refine (onPayloads_stands (LawfulPayloadStore.lastWriter d.payloads node)).bind fun w _ => ?_
  cases w with
  | none => exact Runs.pure trivial
  | some w => exact onIndex_stands (TotalIndex.record parent w.2 seq)

theorem indexPayload_stands (seq : UInt64) (node : NodeId) :
    Runs (Stands storage) d (indexPayload seq node : Exec Error (TreeCrdt S C N P × I) Unit)
      (fun _ => True) d := by
  unfold indexPayload
  split
  · exact Runs.pure trivial
  refine (onNodes_stands (LawfulNodeStore.parent d.rows d.flags node)).bind fun parent _ => ?_
  cases parent with
  | none => exact Runs.pure trivial
  | some parent =>
    simp only
    split
    · exact Runs.pure trivial
    · exact recordPayloadWriter_stands parent node seq

theorem indexPayloads_stands (seq : UInt64) (nodes : List NodeId) :
    Runs (Stands storage) d
      (forEach (indexPayload seq) nodes : Exec Error (TreeCrdt S C N P × I) Unit)
      (fun _ => True) d := by
  induction nodes with
  | nil => exact Runs.pure trivial
  | cons node nodes ih => exact (indexPayload_stands seq node).bind fun _ _ => ih

/-! ## The replay -/

variable [Clock C]

theorem indexRows_stands (hd : Acyclic d.rows.up) (ops : List Operation) (head : Option Operation)
    (seq : UInt64) :
    Runs (Stands storage) d
      (indexRows (ops.map .ok) head seq : Exec Error (TreeCrdt S C N P × I) _)
      (fun _ => True) (d.applyAll (LawfulNodeStore.backend N) ops) := by
  induction ops generalizing d head seq with
  | nil => exact Runs.pure trivial
  | cons op ops ih =>
    rw [List.map_cons, indexRows]
    refine (modify_stands (f := observed op) fun _ => ⟨rfl, rfl, rfl⟩).bind fun _ _ => ?_
    refine (onStores_stands (applyForward_runs hd op)).bind fun snap _ => ?_
    refine (onIndex_stands (recordParents_total (affectedParents snap.parent op.kind)
      op.metadata.id (seq + 1))).bind fun _ _ => ?_
    exact ih (Doc.acyclic_apply hd _ op) (some op) (seq + 1)

/-- The document that a full replay makes. -/
noncomputable def replayedDoc (b : Backend) (ops : List Operation) : Doc :=
  let d := Doc.initial.applyAll b ops
  { d with flags := d.rows.refreshedAll d.flags }

/-- **A full replay** returns with the document of the log, where the parents are a forest. -/
theorem replayFromStorageWithMaterialization_runs [Storage S] {ops : List Operation}
    (hlog : Storage.scanSince storage 0 = ops.map .ok)
    (hlisted : Acyclic (Doc.initial.applyAll (LawfulNodeStore.backend N) ops).rows.listed)
    (hnormal : (Doc.initial.applyAll (LawfulNodeStore.backend N) ops).rows.Normal)
    (hall : ∀ r f, Runs LawfulNodeStore.Models (r, f) (NodeStore.allNodes : Exec Error N _)
      (fun nodes => ∀ n, n ∈ nodes ↔ (r n).isSome) (r, f)) (d : Doc) :
    Runs (Stands storage) d
      (replayFromStorageWithMaterialization : Exec Error (TreeCrdt S C N P × I) Unit)
      (fun _ => True) (replayedDoc (LawfulNodeStore.backend N) ops) := by
  unfold replayFromStorageWithMaterialization
  refine Runs.bind (onIndex_stands TotalIndex.reset) fun _ _ => ?_
  refine Runs.bind (modify_stands fun _ => ⟨rfl, rfl, rfl⟩) fun _ _ => ?_
  refine Runs.bind (onNodes_stands (LawfulNodeStore.reset (d.rows, d.flags))) fun _ _ => ?_
  refine Runs.bind (onPayloads_stands (LawfulPayloadStore.reset d.payloads)) fun _ _ => ?_
  refine Runs.bind (modify_stands fun _ => ⟨rfl, rfl, rfl⟩) fun _ _ => ?_
  have hscan : Runs (Stands storage) Doc.initial
      (onTree (gets fun t => Storage.scanSince t.storage 0) :
        Exec Error (TreeCrdt S C N P × I) _) (· = ops.map .ok) Doc.initial := fun s hs =>
    ⟨_, s, rfl, (congrArg (Storage.scanSince · 0) hs.storage).trans hlog, hs⟩
  refine hscan.bind fun rows hrows => ?_
  subst hrows
  refine (indexRows_stands Doc.acyclic_initial ops none 0).bind fun x _ => ?_
  refine Runs.bind (modify_stands fun _ => ⟨rfl, rfl, rfl⟩) fun _ _ => ?_
  refine Runs.bind (modify_stands fun _ => ⟨rfl, rfl, rfl⟩) fun _ _ => ?_
  refine Runs.bind (onNodes_stands (refreshAllTombstones_runs hlisted hnormal _ (hall _ _)))
    fun _ _ => ?_
  exact Runs.bind (onNodes_stands (hall _ _)) fun nodes _ => indexPayloads_stands _ nodes

end

end TreeCrdt

end Treecrdt
