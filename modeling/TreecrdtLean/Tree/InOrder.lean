import TreecrdtLean.Tree.Affected
import TreecrdtLean.Tree.Batch
import TreecrdtLean.Tree.Derived

/-!
# Operations in order over lawful stores

Next to stores that refine the document and an index that never fails, a batch of operations in
order returns, and leaves the document of the longer log (`applyEach_follows`,
`applyIncrementalOpsWithDelta_follows`). So does a commit (`commitLocal_follows`), and the records
behind it leave the document alone (`finalizeLocalWithPlan_follows`).
-/

namespace Treecrdt

open Exec Forest

namespace TreeCrdt

/-! ## The head behind a replay -/

section

variable {S C N P I α : Type}

/-- The tree is over this log, below this head. -/
def Over (storage : S) (head : Option Operation) (s : TreeCrdt S C N P × I) : Prop :=
  s.1.storage = storage ∧ s.1.head = head

variable {storage : S} {head : Option Operation}

/-- A method of a store or of the index is about neither. -/
theorem onTree_over {c : Exec Error (TreeCrdt S C N P) α}
    (hc : Keeps (fun t => t.storage = storage ∧ t.head = head) (fun _ => True) c fun _ => True) :
    Keeps (Over storage head) (fun _ => True)
      (onTree c : Exec Error (TreeCrdt S C N P × I) α) fun _ => True :=
  hc.zoom (fun _ hs => hs) fun _ _ _ ht => ht

theorem onNodes_over (c : Exec Error N α) : Keeps (Over storage head) (fun _ => True)
    (onTree (onNodes c) : Exec Error (TreeCrdt S C N P × I) α) fun _ => True :=
  onTree_over ((Keeps.any c).zoom (fun _ _ => trivial) fun _ _ ht _ => ht)

theorem onPayloads_over (c : Exec Error P α) : Keeps (Over storage head) (fun _ => True)
    (onTree (onPayloads c) : Exec Error (TreeCrdt S C N P × I) α) fun _ => True :=
  onTree_over ((Keeps.any c).zoom (fun _ _ => trivial) fun _ _ ht _ => ht)

theorem onIndex_over (c : Exec Error I Unit) : Keeps (Over storage head) (fun _ => True)
    (onIndex c : Exec Error (TreeCrdt S C N P × I) Unit) fun _ => True :=
  (Keeps.any c).zoom (fun _ _ => trivial) fun _ _ hs _ => hs

variable [NodeStore N] [PayloadStore P] [ParentOpIndex I]

theorem indexPayload_over (seq : UInt64) (node : NodeId) : Keeps (Over storage head) (fun _ => True)
    (indexPayload seq node : Exec Error (TreeCrdt S C N P × I) Unit) fun _ => True := by
  unfold indexPayload
  split
  · exact Keeps.pure trivial
  refine (onNodes_over (NodeStore.parent node)).bind fun parent _ => ?_
  cases parent with
  | none => exact Keeps.pure trivial
  | some parent =>
    simp only
    split
    · exact Keeps.pure trivial
    refine (onPayloads_over (PayloadStore.lastWriter node)).bind fun w _ => ?_
    cases w with
    | none => exact Keeps.pure trivial
    | some w => exact onIndex_over _

variable [Clock C]

/-- The fold hands back its last operation as head. -/
theorem indexRows_over (ops : List Operation) (last : Option Operation) (seq : UInt64) :
    Keeps (Over storage head) (fun _ => True)
      (indexRows (ops.map .ok) last seq : Exec Error (TreeCrdt S C N P × I) _)
      fun r => r.1 = ops.getLast?.or last := by
  induction ops generalizing last seq with
  | nil => exact Keeps.pure rfl
  | cons op ops ih =>
    rw [List.map_cons, indexRows]
    have hobserved : Keeps (fun t : TreeCrdt S C N P => t.storage = storage ∧ t.head = head)
        (fun _ : Error => True) (modify (observed op)) fun _ => True := Keeps.modify fun _ ht => ht
    have hforward : Keeps (fun t : TreeCrdt S C N P => t.storage = storage ∧ t.head = head)
        (fun _ => True) (onStores (applyForward op)) fun _ => True :=
      (Keeps.any (applyForward op)).zoom (fun _ _ => trivial) fun _ _ ht _ => ht
    refine (onTree_over hobserved).bind fun _ _ => (onTree_over hforward).bind fun snap _ => ?_
    refine (onIndex_over _).bind fun _ _ => (ih (some op) (seq + 1)).imp fun r hr => ?_
    rw [hr]
    cases ops <;> rfl

/-- A full replay leaves the last operation of the log as head. -/
theorem replayFromStorageWithMaterialization_over [Storage S] {ops : List Operation}
    (hlog : Storage.scanSince storage 0 = ops.map .ok) {s s' : TreeCrdt S C N P × I}
    (hs : s.1.storage = storage)
    (hrun : replayFromStorageWithMaterialization s = some (.ok (), s')) :
    Over storage ops.getLast? s' := by
  obtain ⟨_, s₁, hindex, hrun⟩ := bind_ok hrun
  obtain ⟨hs₁, -⟩ := onIndex_over _ s ⟨hs, rfl⟩ _ _ hindex
  obtain ⟨_, s₂, hclear, hrun⟩ := bind_ok hrun
  have hs₂ : Over storage s.1.head s₂ := by
    cases hclear
    exact hs₁
  obtain ⟨_, s₃, hnodes, hrun⟩ := bind_ok hrun
  obtain ⟨hs₃, -⟩ := onNodes_over _ _ hs₂ _ _ hnodes
  obtain ⟨_, s₄, hpayloads, hrun⟩ := bind_ok hrun
  obtain ⟨hs₄, -⟩ := onPayloads_over _ _ hs₃ _ _ hpayloads
  obtain ⟨_, s₅, hzero, hrun⟩ := bind_ok hrun
  have hs₅ : Over storage none s₅ := by
    cases hzero
    exact ⟨hs₄.1, rfl⟩
  obtain ⟨rows, s₆, hscan, hrun⟩ := bind_ok hrun
  obtain ⟨hs₆, rfl⟩ : Over storage none s₆ ∧ rows = ops.map .ok := by
    cases hscan
    exact ⟨hs₅, (congrArg (Storage.scanSince · 0) hs₅.1).trans hlog⟩
  obtain ⟨⟨last, seq⟩, s₇, hrows, hrun⟩ := bind_ok hrun
  obtain ⟨hs₇, hlast⟩ := indexRows_over ops none 0 _ hs₆ _ _ hrows
  rw [Option.or_none] at hlast
  obtain ⟨_, s₈, hhead, hrun⟩ := bind_ok hrun
  have hs₈ : Over storage ops.getLast? s₈ := by
    cases hhead
    exact ⟨hs₇.1, hlast⟩
  obtain ⟨_, s₉, hcounter, hrun⟩ := bind_ok hrun
  have hs₉ : Over storage ops.getLast? s₉ := by
    cases hcounter
    exact hs₈
  obtain ⟨_, s₁₀, hrefresh, hrun⟩ := bind_ok hrun
  obtain ⟨hs₁₀, -⟩ := onNodes_over _ _ hs₉ _ _ hrefresh
  obtain ⟨nodes, s₁₁, hall, hrun⟩ := bind_ok hrun
  obtain ⟨hs₁₁, -⟩ := onNodes_over _ _ hs₁₀ _ _ hall
  exact (Keeps.forEach fun node _ => indexPayload_over _ node) _ hs₁₁ _ _ hrun |>.1

end

section

variable {S C N P I α : Type} [NodeStore N] [PayloadStore P] [LawfulNodeStore N]
  [LawfulPayloadStore P]

/-- The stores stand for the document of a log, below a head. -/
def Follows (storage : S) (s : TreeCrdt S C N P × I) (a : List Operation × Option Operation) :
    Prop :=
  ∃ d, Stands storage s d ∧ d.Derived (LawfulNodeStore.backend N) a.1 ∧ s.1.head = a.2

/-- The stores stand for a document, below a head. -/
def Holds (storage : S) (s : TreeCrdt S C N P × I) (a : Doc × Option Operation) : Prop :=
  Stands storage s a.1 ∧ s.1.head = a.2

variable {storage : S} {d d' : Doc} {op : Operation} {ops : List Operation}
  {head : Option Operation} {Q : α → Prop}

/-! ## Methods below a head -/

theorem onNodes_holds {c : Exec Error N α} {r : Rows} {f : NodeId → Bool}
    (h : Runs LawfulNodeStore.Models (d.rows, d.flags) c Q (r, f)) :
    Runs (Holds storage) (d, head) (onTree (onNodes c) : Exec Error (TreeCrdt S C N P × I) α) Q
      ({ d with rows := r, flags := f }, head) := by
  rintro s ⟨hs, hhead⟩
  obtain ⟨x, n, hrun, hx, hn⟩ := h _ hs.doc.1
  exact ⟨x, _, zoom_of_ok (onNodes_run hrun), hx, ⟨hs.storage, hn, hs.doc.2⟩, hhead⟩

theorem onIndex_holds {c : Exec Error I Unit} (h : ∀ i, ∃ i', c i = some (.ok (), i')) :
    Runs (Holds storage) (d, head) (onIndex c : Exec Error (TreeCrdt S C N P × I) Unit)
      (fun _ => True) (d, head) := by
  rintro s ⟨hs, hhead⟩
  obtain ⟨i, hrun⟩ := h s.2
  exact ⟨(), _, zoom_of_ok hrun, trivial, ⟨hs.storage, hs.doc⟩, hhead⟩

variable [ParentOpIndex I] [TotalIndex I]

theorem recordPayloadWriter_holds (parent node : NodeId) (seq : UInt64) :
    Runs (Holds storage) (d, head)
      (recordPayloadWriter parent node seq : Exec Error (TreeCrdt S C N P × I) Unit)
      (fun _ => True) (d, head) := by
  have hwriter : Runs (Holds storage) (d, head)
      (onTree (payloadLastWriter node) : Exec Error (TreeCrdt S C N P × I) _) (fun _ => True)
      (d, head) := by
    rintro s ⟨hs, hhead⟩
    obtain ⟨w, p, hrun, -, hp⟩ := LawfulPayloadStore.lastWriter d.payloads node _ hs.doc.2
    exact ⟨w, _, zoom_of_ok (onPayloads_run hrun), trivial, ⟨hs.storage, hs.doc.1, hp⟩, hhead⟩
  refine hwriter.bind fun w _ => ?_
  cases w with
  | none => exact Runs.pure trivial
  | some w => exact onIndex_holds (TotalIndex.record parent w.2 seq)

/-! ## One operation -/

omit [ParentOpIndex I] [TotalIndex I]

variable [CompleteNodeStore N]

/-- A refresh of derived flags. -/
theorem refresh_follows (hb : (LawfulNodeStore.backend N).Rooted) (starts : List NodeId) :
    Runs (Follows storage) (ops, head)
      (onTree (onNodes (refreshTombstonesUpwardWithDelta starts)) :
        Exec Error (TreeCrdt S C N P × I) _) (fun _ => True) (ops, head) := by
  rintro s ⟨d, hs, hd, hhead⟩
  obtain ⟨V, f', -, href, hruns⟩ := refreshUpward_runs (N := N) (hd.listed hb) (hd.normal hb) starts
    d.flags
  obtain ⟨changed, s', hrun, -, hs', hhead'⟩ := onNodes_holds hruns s ⟨hs, hhead⟩
  exact ⟨changed, s', hrun, trivial, _, hs', hd.refresh href, hhead'⟩

omit [PayloadStore P] [LawfulNodeStore N] [LawfulPayloadStore P] [CompleteNodeStore N] in
theorem onNodes_upward_run {starts changed : List NodeId} {t t' : TreeCrdt S C N P}
    (h : onNodes (refreshTombstonesUpwardWithDelta starts) t = some (.ok changed, t')) :
    onNodes (refreshTombstonesUpward starts) t = some (.ok (), t') := by
  rw [onNodes_refreshTombstonesUpward]
  exact (bind_of_ok h).trans rfl

/-- A refresh whose changes nobody asks for. -/
theorem upward_follows (hb : (LawfulNodeStore.backend N).Rooted) (starts : List NodeId) :
    Runs (Follows storage) (ops, head)
      (onTree (onNodes (refreshTombstonesUpward starts)) :
        Exec Error (TreeCrdt S C N P × I) Unit) (fun _ => True) (ops, head) := by
  intro s hs
  obtain ⟨changed, s', hrun, -, hs'⟩ := refresh_follows hb starts s hs
  obtain ⟨t, hnodes, rfl⟩ := zoom_some hrun
  exact ⟨(), _, zoom_of_ok (onNodes_upward_run hnodes), trivial, hs'⟩

/-- The refresh that is due behind an operation. -/
theorem refreshBehind_holds (hb : (LawfulNodeStore.backend N).Rooted)
    (hd : d.Derived (LawfulNodeStore.backend N) ops) (op : Operation) {starts : List NodeId}
    (hstarts : ∀ s, d.Starts op s → s ∈ starts) (storage : S) (head : Option Operation) :
    ∃ d' : Doc, d'.Derived (LawfulNodeStore.backend N) (ops ++ [op]) ∧
      Runs (Holds storage) (d.apply (LawfulNodeStore.backend N) op, head)
        (onTree (onNodes (refreshTombstonesUpwardWithDelta starts)) :
          Exec Error (TreeCrdt S C N P × I) _) (fun _ => True) (d', head) := by
  have hrows : (d.apply (LawfulNodeStore.backend N) op).rows =
      (Doc.initial.applyAll (LawfulNodeStore.backend N) (ops ++ [op])).rows := by
    rw [hd.apply_eq op]
  have hlisted : Acyclic (d.apply (LawfulNodeStore.backend N) op).rows.listed := by
    refine Rows.acyclic_listed (Doc.acyclic_apply hd.acyclic _ op) ?_
    rw [hrows]
    exact Doc.root_applyAll hb _
  have hnormal : (d.apply (LawfulNodeStore.backend N) op).rows.Normal := by
    rw [hrows]
    exact Doc.normal_applyAll hb _
  obtain ⟨V, f', hvisits, href, hruns⟩ := refreshUpward_runs (N := N) hlisted hnormal starts
    (d.apply (LawfulNodeStore.backend N) op).flags
  rw [Doc.flags_apply] at href
  exact ⟨_, hd.apply hb hstarts hvisits href, (onNodes_holds hruns).imp fun _ _ => trivial⟩

variable [Clock C]

omit [CompleteNodeStore N] in
/-- An operation in order is applied on top of the document. -/
theorem applyRemoteWithDelta_holds (hd : Acyclic d.rows.up)
    (hord : ∀ last ∈ head, last.key < op.key) :
    Runs (Holds NoopStorage.mk) (d, head)
      (onTree (applyRemoteWithDelta op) : Exec Error (TreeCrdt NoopStorage C N P × I) _)
      (fun delta => ∃ x : ApplyDelta, delta = some x ∧
        x.snapshot.parent = d.rows.parent op.kind.node)
      (d.apply (LawfulNodeStore.backend N) op, some op) := by
  rintro s ⟨hs, hhead⟩
  obtain ⟨t, ht, hnodes, hpayloads, hhead', hstorage⟩ : ∃ t, t = raised op (observed op s.1) ∧
      t.nodes = s.1.nodes ∧ t.payloads = s.1.payloads ∧ t.head = s.1.head ∧
      t.storage = s.1.storage := by
    refine ⟨_, rfl, ?_⟩
    unfold raised observed
    split <;> exact ⟨rfl, rfl, rfl, rfl⟩
  have hinOrder : t.isInOrder op = true := by
    unfold isInOrder
    rw [hhead', hhead]
    cases head with
    | none => rfl
    | some last =>
      rw [decide_eq_true_eq, cmpOps_eq, cmp_eq_gt_iff]
      exact hord last rfl
  have hdoc : ModelsDoc (t.nodes, t.payloads) d := by
    rw [hnodes, hpayloads]
    exact hs.doc
  obtain ⟨snap, stores, hforward, hsnap, hmodels⟩ := applyForward_runs hd op _ hdoc
  have hrun : applyRemoteWithDelta op s.1 = some (.ok (some
      { snapshot := snap, affectedNodes := directAffectedNodes snap.parent op.kind }),
      { t with nodes := stores.1, payloads := stores.2, opCount := t.opCount + 1
               head := some op }) := by
    have hadmit : (onStorage (Storage.apply op) : Exec Error (TreeCrdt NoopStorage C N P) Bool) t =
        some (.ok true, t) := rfl
    unfold applyRemoteWithDelta
    rw [modify_bind_run, modify_bind_run, ← ht, bind_of_ok hadmit]
    simp only [Bool.not_true, Bool.false_eq_true, if_false]
    rw [gets_bind_run, if_pos hinOrder, bind_of_ok (onStores_run hforward)]
    rfl
  exact ⟨_, _, zoom_of_ok hrun, ⟨_, rfl, hsnap⟩, ⟨hstorage.trans hs.storage, hmodels⟩, rfl⟩

variable [ParentOpIndex I] [TotalIndex I]

/-- A remote operation in order, with its records and its refresh. -/
theorem applyRemoteWithMaterialization_follows (hb : (LawfulNodeStore.backend N).Rooted)
    (hord : ∀ last ∈ head, last.key < op.key) (seq : UInt64) :
    Runs (Follows NoopStorage.mk) (ops, head)
      (applyRemoteWithMaterialization op seq : Exec Error (TreeCrdt NoopStorage C N P × I) _)
      (fun delta => delta.isSome) (ops ++ [op], some op) := by
  rintro s ⟨d, hs, hd, hhead⟩
  obtain ⟨d', hd', hruns⟩ := refreshBehind_holds (I := I) (C := C) (P := P) hb hd op
    (fun m hm => mem_refreshStarts hm) NoopStorage.mk (some op)
  suffices h : Runs (Holds NoopStorage.mk) (d, head)
      (applyRemoteWithMaterialization op seq : Exec Error (TreeCrdt NoopStorage C N P × I) _)
      (fun delta => delta.isSome) (d', some op) by
    obtain ⟨delta, s', hrun, hdelta, hs', hhead'⟩ := h s ⟨hs, hhead⟩
    exact ⟨delta, s', hrun, hdelta, d', hs', hd', hhead'⟩
  unfold applyRemoteWithMaterialization
  refine (applyRemoteWithDelta_holds hd.acyclic hord).bind fun delta hdelta => ?_
  obtain ⟨delta, rfl, hparent⟩ := hdelta
  simp only
  refine Runs.bind (onIndex_holds (recordParents_total (affectedParents delta.snapshot.parent op.kind)
    op.metadata.id seq)) fun _ _ => ?_
  have hrefresh : Runs (Holds NoopStorage.mk)
      (d.apply (LawfulNodeStore.backend N) op, some op)
      (do
        let changed ← onTree (onNodes (refreshTombstonesUpwardWithDelta
          (affectedParents delta.snapshot.parent op.kind ++ [op.kind.node])))
        return some { delta with
          affectedNodes := sortedNodeIds (delta.affectedNodes ++ changed.filter (· ≠ NodeId.TRASH)) } :
        Exec Error (TreeCrdt NoopStorage C N P × I) (Option ApplyDelta))
      (fun delta => delta.isSome) (d', some op) := by
    have hstarts : affectedParents delta.snapshot.parent op.kind ++ [op.kind.node] =
        refreshStarts d op := by
      rw [hparent]
      rfl
    rw [hstarts]
    exact hruns.bind fun changed _ => Runs.pure rfl
  cases op.kind.parentAfter with
  | none => exact hrefresh
  | some parentAfter =>
    simp only
    split
    · exact (recordPayloadWriter_holds parentAfter _ seq).bind fun _ _ => hrefresh
    · exact hrefresh

theorem applyRemoteWithMaterializationSeq_follows (hb : (LawfulNodeStore.backend N).Rooted)
    (hord : ∀ last ∈ head, last.key < op.key) (seq : UInt64) :
    Runs (Follows NoopStorage.mk) (ops, head)
      (applyRemoteWithMaterializationSeq op seq : Exec Error (TreeCrdt NoopStorage C N P × I) _)
      (fun _ => True) (ops ++ [op], some op) := by
  unfold applyRemoteWithMaterializationSeq
  exact (applyRemoteWithMaterialization_follows hb hord _).bind fun applied _ => Runs.pure trivial

/-! ## Batches -/

/-- Operations that ascend are applied one after the other. -/
theorem applyEach_follows (hb : (LawfulNodeStore.backend N).Rooted) {batch : List Operation}
    (hasc : Ascends head batch) (seq : UInt64) (affected : List NodeId) :
    Runs (Follows NoopStorage.mk) (ops, head)
      (applyEach batch seq affected : Exec Error (TreeCrdt NoopStorage C N P × I) _)
      (fun _ => True) (ops ++ batch, batch.getLast?.or head) := by
  induction batch generalizing ops head seq affected with
  | nil =>
    rw [List.append_nil]
    exact Runs.pure trivial
  | cons op batch ih =>
    unfold applyEach
    refine (applyRemoteWithMaterializationSeq_follows hb hasc.1 seq).bind fun r _ => ?_
    have hrest : Runs (Follows NoopStorage.mk) (ops ++ [op], some op)
        (applyEach batch r.2 (affected ++ (r.1.map (·.affectedNodes)).getD []) :
          Exec Error (TreeCrdt NoopStorage C N P × I) _) (fun _ => True)
        (ops ++ [op] ++ batch, batch.getLast?.or (some op)) := ih hasc.2 _ _
    have hlast : batch.getLast?.or (some op) = (op :: batch).getLast?.or head := by
      cases batch with
      | nil => rfl
      | cons next batch =>
        rw [List.getLast?_cons_cons, List.getLast?_eq_some_getLast (List.cons_ne_nil next batch)]
        rfl
    rw [List.append_assoc, List.singleton_append, hlast] at hrest
    exact hrest

/-- A batch behind the cursor, of operations that ascend. -/
theorem applyIncrementalOpsWithDelta_follows (hb : (LawfulNodeStore.backend N).Rooted)
    {cursor : TreeMeta} {batch : List Operation} {last : Operation} (hdirty : cursor.dirty = false)
    (hbehind : (sortOps batch).head?.any (behindHead cursor) = false)
    (hasc : Ascends none (sortOps batch)) (hlast : (sortOps batch).getLast? = some last) :
    Runs (Follows NoopStorage.mk) (ops, none)
      (applyIncrementalOpsWithDelta cursor batch : Exec Error (TreeCrdt NoopStorage C N P × I) _)
      (fun r => ∃ seq, r.1 = some ⟨last.metadata.lamport, last.metadata.id.replica.bytes,
        last.metadata.id.counter, seq⟩) (ops ++ sortOps batch, some last) := by
  have hne : batch ≠ [] := by
    rintro rfl
    rw [sortOps_nil] at hlast
    cases hlast
  unfold applyIncrementalOpsWithDelta
  rw [if_neg (by simpa using hne), if_neg (by simp [hdirty]), if_neg (by simp [hbehind])]
  have heach : Runs (Follows NoopStorage.mk) (ops, none)
      (applyEach (sortOps batch) cursor.headSeq [] :
        Exec Error (TreeCrdt NoopStorage C N P × I) _) (fun _ => True)
      (ops ++ sortOps batch, (sortOps batch).getLast?.or none) :=
    applyEach_follows hb hasc cursor.headSeq []
  rw [hlast] at heach
  refine heach.bind fun r _ => ?_
  have hhead : Runs (Follows NoopStorage.mk) (ops ++ sortOps batch, some last)
      (onTree (gets fun t => t.head) : Exec Error (TreeCrdt NoopStorage C N P × I) _)
      (· = some last) (ops ++ sortOps batch, some last) := fun s hs =>
    ⟨_, s, rfl, hs.choose_spec.2.2, hs⟩
  refine hhead.bind fun head hlast => ?_
  subst hlast
  exact Runs.pure ⟨_, rfl⟩

omit [LawfulNodeStore N] [LawfulPayloadStore P] [CompleteNodeStore N] [TotalIndex I] in
/-- A batch that starts before the cursor is refused as a whole. -/
theorem applyIncrementalOpsWithDelta_refuses {cursor : TreeMeta} {batch : List Operation}
    (hbehind : (sortOps batch).head?.any (behindHead cursor) = true)
    (s : TreeCrdt NoopStorage C N P × I) :
    ∃ e, applyIncrementalOpsWithDelta cursor batch s = some (.error e, s) := by
  have hne : batch ≠ [] := by
    rintro rfl
    rw [sortOps_nil] at hbehind
    cases hbehind
  unfold applyIncrementalOpsWithDelta
  rw [if_neg (by simpa using hne)]
  by_cases hdirty : cursor.dirty = true
  · rw [if_pos hdirty]
    exact ⟨_, rfl⟩
  · rw [if_neg hdirty, if_pos hbehind]
    exact ⟨_, rfl⟩

/-! ## Local operations -/

omit [Clock C] [ParentOpIndex I] [TotalIndex I] in
/-- A commit of an operation that the log takes. -/
theorem commitLocal_follows [Storage S] (hb : (LawfulNodeStore.backend N).Rooted)
    {t : TreeCrdt S C N P} {i : I} {storage' : S} (h : Follows t.storage (t, i) (ops, head))
    (happly : Storage.apply op t.storage = some (.ok true, storage')) :
    ∃ t', commitLocal op t = some (.ok op, t') ∧ Follows storage' (t', i) (ops ++ [op], some op) := by
  obtain ⟨d, hs, hd, -⟩ := h
  obtain ⟨d', hd', hruns⟩ := refreshBehind_holds (I := I) (C := C) (P := P) hb hd op
    (fun m hm => mem_refreshStarts hm) storage' t.head
  let t₁ : TreeCrdt S C N P := { t with
    versionVector := t.versionVector.observe t.replicaId op.metadata.id.counter
    storage := storage' }
  obtain ⟨snap, stores, hforward, hsnap, hmodels⟩ := applyForward_runs hd.acyclic op
    (t₁.nodes, t₁.payloads) hs.doc
  let t₂ : TreeCrdt S C N P := { t₁ with nodes := stores.1, payloads := stores.2 }
  obtain ⟨changed, s₃, hrefresh, -, hs₃, hhead₃⟩ := hruns (t₂, i) ⟨⟨rfl, hmodels⟩, rfl⟩
  obtain ⟨t₃, hnodes, rfl⟩ := zoom_some hrefresh
  have hstarts : refreshStarts d op = affectedParents snap.parent op.kind ++ [op.kind.node] := by
    rw [hsnap]
    rfl
  rw [hstarts] at hnodes
  dsimp only at hnodes
  have hadmit : (onStorage (Storage.apply op) : Exec Error (TreeCrdt S C N P) Bool)
      { t with versionVector := t.versionVector.observe t.replicaId op.metadata.id.counter } =
        some (.ok true, t₁) := zoom_of_ok happly
  have hstores : onStores (applyForward op) t₁ = some (.ok snap, t₂) := onStores_run hforward
  have hupward := onNodes_upward_run hnodes
  refine ⟨{ t₃ with opCount := t₃.opCount + 1, head := some op }, ?_,
    d', ⟨hs₃.storage, hs₃.doc⟩, hd', rfl⟩
  unfold commitLocal
  rw [modify_bind_run, bind_of_ok hadmit]
  simp only [Bool.not_true, Bool.false_eq_true, if_false]
  rw [bind_of_ok hstores, bind_of_ok hupward]
  rfl

omit [PayloadStore P] [LawfulPayloadStore P] [CompleteNodeStore N] [Clock C] [ParentOpIndex I]
  [TotalIndex I] in
theorem resolveAfterForPlacement_keeps {r : Rows} (hr : Acyclic r.listed) (hn : r.Normal)
    (f : NodeId → Bool) (p : NodeId) (placement : LocalPlacement) (exclude : Option NodeId) :
    Keeps (fun n : N => LawfulNodeStore.Models n (r, f)) (fun _ => True)
      (resolveAfterForPlacement p placement exclude) fun _ => True := by
  unfold resolveAfterForPlacement
  cases placement with
  | first => exact Keeps.pure trivial
  | after node =>
    simp only
    split
    · exact Keeps.throw trivial
    · exact Keeps.pure trivial
  | last => exact (children_runs hr hn f p).keeps_self.bind fun _ _ => Keeps.pure trivial

omit [PayloadStore P] [LawfulPayloadStore P] [CompleteNodeStore N] [Clock C] [ParentOpIndex I]
  [TotalIndex I] in
/-- Choosing a key reads the children and their keys. -/
theorem childKey_keeps {r : Rows} (hr : Acyclic r.listed) (hn : r.Normal) (f : NodeId → Bool)
    (parent node : NodeId) (after : Option NodeId) (seed : Bytes) :
    Keeps (fun n : N => LawfulNodeStore.Models n (r, f)) (fun _ => True)
      (allocateChildKeyAfter parent node after seed) fun _ => True := by
  have hkey : ∀ n, Keeps (fun s : N => LawfulNodeStore.Models s (r, f)) (fun _ : Error => True)
      (NodeStore.orderKey n) fun _ => True := fun n =>
    ((LawfulNodeStore.orderKey r f n).imp fun _ _ => trivial).keeps_self
  unfold allocateChildKeyAfter
  split
  · exact Keeps.pure trivial
  refine (children_runs hr hn f parent).keeps_self.bind fun children _ => ?_
  refine Keeps.bind (Q := fun _ => True) ?_ fun keys _ => ?_
  · unfold neighbourKeys
    cases after with
    | none =>
      simp only
      split
      · exact (hkey _).bind fun _ _ => Keeps.pure trivial
      · exact Keeps.pure trivial
    | some after =>
      simp only
      split
      · refine (hkey after).bind fun _ _ => ?_
        split
        · exact (hkey _).bind fun _ _ => Keeps.pure trivial
        · exact Keeps.pure trivial
      · exact Keeps.throw trivial
  · intro s hs res s' hres
    cases hres
    exact ⟨hs, by split <;> trivial⟩

omit [Clock C] [ParentOpIndex I] [TotalIndex I] [CompleteNodeStore N] in
/-- A method of the nodes that only reads. -/
theorem onNodes_reads (hb : (LawfulNodeStore.backend N).Rooted) {t t' : TreeCrdt S C N P} {i : I}
    (h : Follows storage (t, i) (ops, head)) {c : Exec Error N α} {a : α}
    (hc : ∀ r f, Acyclic r.listed → r.Normal →
      Keeps (fun n => LawfulNodeStore.Models n (r, f)) (fun _ => True) c Q)
    (hrun : onNodes c t = some (.ok a, t')) :
    (∃ n, t' = { t with nodes := n }) ∧ Follows storage (t', i) (ops, head) ∧ Q a := by
  obtain ⟨d, hs, hd, hhead⟩ := h
  obtain ⟨n, hn, rfl⟩ := onNodes_some hrun
  obtain ⟨hmodels, ha⟩ := hc d.rows d.flags (hd.listed hb) (hd.normal hb) _ hs.doc.1 _ _ hn
  exact ⟨⟨n, rfl⟩, ⟨d, ⟨hs.storage, hmodels, hs.doc.2⟩, hd, hhead⟩, ha⟩

omit [ParentOpIndex I] [TotalIndex I] in
/-- A local operation that returns was taken by the log and applied. -/
theorem localOp_follows [Storage S] (hb : (LawfulNodeStore.backend N).Rooted)
    {t t' : TreeCrdt S C N P} {i : I} (h : Follows t.storage (t, i) (ops, head))
    {build : ReplicaId → UInt64 → Lamport → Exec Error N Operation} {Q : Operation → Prop}
    (hbuild : ∀ r f, Acyclic r.listed → r.Normal →
      Keeps (fun n => LawfulNodeStore.Models n (r, f)) (fun _ => True)
        (build t.replicaId (t.counter + 1) (Clock.tick t.clock).1) Q)
    (hfresh : ∀ op, Q op → ∃ storage', Storage.apply op t.storage = some (.ok true, storage'))
    (hrun : localOp build t = some (.ok op, t')) :
    Q op ∧ ∃ storage', Storage.apply op t.storage = some (.ok true, storage') ∧
      Follows storage' (t', i) (ops ++ [op], some op) := by
  obtain ⟨replica, t₁, hreplica, hrun⟩ := bind_ok hrun
  cases hreplica
  obtain ⟨counter, t₂, hcounter, hrun⟩ := bind_ok hrun
  cases hcounter
  obtain ⟨lamport, t₃, htick, hrun⟩ := bind_ok hrun
  cases htick
  obtain ⟨op', t₄, hnodes, hrun⟩ := bind_ok hrun
  obtain ⟨d, hs, hd, hhead⟩ := h
  let t₃ : TreeCrdt S C N P := { t with
    counter := t.counter + 1, clock := (Clock.tick t.clock).2 }
  have h₃ : Follows t.storage (t₃, i) (ops, head) := ⟨d, ⟨rfl, hs.doc⟩, hd, hhead⟩
  obtain ⟨⟨n, rfl⟩, h₄, hop⟩ := onNodes_reads hb h₃ hbuild hnodes
  obtain ⟨storage', happly⟩ := hfresh op' hop
  obtain ⟨t'', hcommit, h'⟩ := commitLocal_follows (t := { t₃ with nodes := n }) hb h₄ happly
  rw [hcommit] at hrun
  cases hrun
  exact ⟨hop, storage', happly, h'⟩

omit [Clock C] in
/-- The records behind a local operation always come through. -/
theorem finalizeLocalWithPlan_follows (hb : (LawfulNodeStore.backend N).Rooted) (op : Operation)
    (headSeq : UInt64) (plan : LocalFinalizePlan) :
    Runs (Follows storage) (ops, head)
      (finalizeLocalWithPlan op headSeq plan : Exec Error (TreeCrdt S C N P × I) _)
      (fun _ => True) (ops, head) := by
  have hindex : ∀ {c : Exec Error I Unit}, (∀ i, ∃ i', c i = some (.ok (), i')) →
      Runs (Follows storage) (ops, head) (onIndex c : Exec Error (TreeCrdt S C N P × I) Unit)
        (fun _ => True) (ops, head) := fun hc s ⟨d, hs, hd, hhead⟩ => by
    obtain ⟨_, s', hrun, -, hs', hhead'⟩ := onIndex_holds hc s ⟨hs, hhead⟩
    exact ⟨(), s', hrun, trivial, d, hs', hd, hhead'⟩
  have hextra : ∀ (l : List (NodeId × OperationId)) (seq : UInt64) (i : I),
      ∃ i', forEach (fun e => ParentOpIndex.record e.1 e.2 seq) l i = some (.ok (), i') := by
    intro l seq
    induction l with
    | nil => exact fun i => ⟨i, rfl⟩
    | cons e l ih =>
      intro i
      obtain ⟨i₁, hrecord⟩ := TotalIndex.record e.1 e.2 seq i
      obtain ⟨i', hrest⟩ := ih i₁
      exact ⟨i', by rw [forEach, bind_of_ok hrecord, hrest]⟩
  have hrecords : Runs (Follows storage) (ops, head)
      (finalizeLocalMaterialization op (saturatingSucc headSeq) plan.parentHints
        plan.extraIndexRecords : Exec Error (TreeCrdt S C N P × I) Unit) (fun _ => True)
      (ops, head) := by
    refine (upward_follows hb (plan.parentHints ++ [op.kind.node])).bind fun _ _ => ?_
    exact (hindex (recordParents_total _ _ _)).bind fun _ _ => hindex (hextra _ _)
  exact hrecords.bind fun _ _ => Runs.pure trivial

end

end TreeCrdt

end Treecrdt
