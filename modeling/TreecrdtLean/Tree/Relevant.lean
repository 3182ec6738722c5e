import TreecrdtLean.Spec.Again
import TreecrdtLean.Spec.Refresh
import TreecrdtLean.Tree.Affected
import TreecrdtLean.Tree.IndexRows

/-!
# Which operations the index finds

`children(parent)` is answered from the rows of a parent. A run of operations in order and a full
replay both record every operation under the parents that it affects (`Affects`). Behind that they
differ: the run records the last writer of a payload whenever an operation names another parent for
its node (`Backfills`), and the replay records it once, under the parent that the node has at the
end (`Current`). A row of the second kind is always among the others (`found_of_current`).
-/

namespace Treecrdt

open Exec Forest

/-! ## Steps of a log -/

/-- An operation of the log meets `P` with those before it. -/
def AtStep (P : List Operation → Operation → Prop) (ops : List Operation) : Prop :=
  ∃ before op after, ops = before ++ op :: after ∧ P before op

theorem not_atStep_nil {P : List Operation → Operation → Prop} : ¬ AtStep P [] := by
  rintro ⟨before, op, after, h, -⟩
  simp at h

theorem atStep_concat {P : List Operation → Operation → Prop} {ops : List Operation}
    {op : Operation} : AtStep P (ops ++ [op]) ↔ AtStep P ops ∨ P ops op := by
  constructor
  · rintro ⟨before, x, after, h, hP⟩
    rcases List.eq_nil_or_concat' after with rfl | ⟨after, y, rfl⟩
    · obtain ⟨rfl, hx⟩ := List.append_inj' h rfl
      cases hx
      exact Or.inr hP
    · rw [← List.cons_append, ← List.append_assoc] at h
      exact Or.inl ⟨before, x, after, (List.append_inj' h rfl).1, hP⟩
  · rintro (⟨before, x, after, rfl, hP⟩ | hP)
    · exact ⟨before, x, after ++ [op], by simp, hP⟩
    · exact ⟨ops, op, [], rfl, hP⟩

namespace TreeCrdt

/-- The parent of a node after the operations. -/
def parentIn (ops : List Operation) (node : NodeId) : Option NodeId :=
  (storesAfter ops).1.parent node

/-- The last writer of the payload of a node after the operations. -/
def writerIn (ops : List Operation) (node : NodeId) : Option (Lamport × OperationId) :=
  ((storesAfter ops).2.entries.lookup node).bind (·.lastWriter)

/-- The index has a record of the operation under the parent. -/
def Found (rows : List IndexRow) (parent : NodeId) (id : OperationId) : Prop :=
  ∃ seq, (parent, id, seq) ∈ rows

/-- The operation names the parent, or its node has it when the operation is applied. -/
def Affects (ops : List Operation) (parent : NodeId) (id : OperationId) : Prop :=
  parent ≠ NodeId.TRASH ∧ AtStep (fun before op => op.metadata.id = id ∧
    (parentIn before op.kind.node = some parent ∨ op.kind.parentAfter = some parent)) ops

/-- The operation is the last writer of a payload when another one names the parent for its node,
which has another parent. -/
def Backfills (ops : List Operation) (parent : NodeId) (id : OperationId) : Prop :=
  parent ≠ NodeId.TRASH ∧ AtStep (fun before op => op.kind.parentAfter = some parent ∧
    parentIn before op.kind.node ≠ some parent ∧
    ∃ w, writerIn (before ++ [op]) op.kind.node = some w ∧ w.2 = id) ops

/-- The operation is the last writer of the payload of a node that has the parent at the end. -/
def Current (ops : List Operation) (node parent : NodeId) (id : OperationId) : Prop :=
  parent ≠ NodeId.TRASH ∧ parentIn ops node = some parent ∧
    ∃ w, writerIn ops node = some w ∧ w.2 = id

section

variable {ops : List Operation} {op : Operation} {node parent : NodeId} {id : OperationId}

theorem parentIn_eq : parentIn ops node =
    (Doc.initial.applyAll Backend.memory ops).rows.parent node :=
  congrFun (storesAfter_models ops).1.parent node

theorem writerIn_eq : writerIn ops node =
    ((Doc.initial.applyAll Backend.memory ops).payloads node).lastWriter :=
  ((storesAfter_models ops).2 node).2

theorem applyAll_concat {d : Doc} : d.applyAll Backend.memory (ops ++ [op]) =
    (d.applyAll Backend.memory ops).apply Backend.memory op := List.foldl_concat _ _ _ _

/-- Only the node of an operation can get another parent, and it is the one that is named. -/
theorem parentIn_concat (ops : List Operation) (op : Operation) (node : NodeId) :
    parentIn (ops ++ [op]) node = parentIn ops node ∨
      node = op.kind.node ∧ parentIn (ops ++ [op]) node = op.kind.parentAfter := by
  rw [parentIn_eq, parentIn_eq, applyAll_concat, Doc.parent_apply fun _ => rfl]
  cases ht : (Doc.initial.applyAll Backend.memory ops).rows.target op.kind with
  | none => exact Or.inl rfl
  | some p =>
    by_cases hn : node = op.kind.node
    · refine Or.inr ⟨hn, ?_⟩
      rw [Doc.hang, hn, Function.update_self, Rows.parentAfter_of_target ht]
    · exact Or.inl (Function.update_of_ne hn _ _)

/-- An operation writes the payload of its node, or leaves all last writers. -/
theorem writerIn_concat (ops : List Operation) (op : Operation) (node : NodeId) :
    writerIn (ops ++ [op]) node = writerIn ops node ∨
      node = op.kind.node ∧
      writerIn (ops ++ [op]) node = some (op.metadata.lamport, op.metadata.id) := by
  rw [writerIn_eq, writerIn_eq, applyAll_concat, Doc.payloads_apply]
  cases op.kind.payloadAfter with
  | none => exact Or.inl rfl
  | some payload =>
    simp only
    split
    · by_cases hn : node = op.kind.node
      · exact Or.inr ⟨hn, by rw [hn, Function.update_self]⟩
      · exact Or.inl (by rw [Function.update_of_ne hn])
    · exact Or.inl rfl

/-- The last writer under the parent of its node affects that parent, or the node came there
behind it. -/
theorem found_of_current (h : Current ops node parent id) :
    Affects ops parent id ∨ Backfills ops parent id := by
  induction ops using List.reverseRecOn with
  | nil =>
    obtain ⟨-, -, w, hw, -⟩ := h
    rw [writerIn_eq] at hw
    cases hw
  | append_singleton ops op ih =>
    obtain ⟨htrash, hparent, w, hw, hid⟩ := h
    simp only [Affects, Backfills, atStep_concat]
    by_cases hsame : parentIn ops node = some parent
    · obtain hwriter | ⟨hn, hwriter⟩ := writerIn_concat ops op node
      · rw [hwriter] at hw
        exact (ih ⟨htrash, hsame, w, hw, hid⟩).imp (fun h => ⟨htrash, Or.inl h.2⟩)
          fun h => ⟨htrash, Or.inl h.2⟩
      · rw [hwriter, Option.some.injEq] at hw
        exact Or.inl ⟨htrash, Or.inr ⟨by rw [← hid, ← hw], Or.inl (hn ▸ hsame)⟩⟩
    · obtain hkept | ⟨hn, hnew⟩ := parentIn_concat ops op node
      · exact absurd (hkept.symm.trans hparent) hsame
      · subst hn
        exact Or.inr ⟨htrash, Or.inr ⟨hnew.symm.trans hparent, hsame, w, hw, hid⟩⟩

end

/-! ## Rows -/

section

variable {rows rows' : List IndexRow} {ops : List Operation} {op : Operation}
  {node parent : NodeId} {id : OperationId} {seq : UInt64} {d : Doc}

theorem found_append : Found (rows ++ rows') parent id ↔
    Found rows parent id ∨ Found rows' parent id := by
  simp only [Found, List.mem_append, exists_or]

theorem found_opRows : Found (d.opRows op seq) parent id ↔ parent ≠ NodeId.TRASH ∧
    op.metadata.id = id ∧
      (d.rows.parent op.kind.node = some parent ∨ op.kind.parentAfter = some parent) := by
  rw [← mem_affectedParents]
  simp only [Found, Doc.opRows, List.mem_map, List.mem_filter, decide_eq_true_eq, Prod.mk.injEq]
  constructor
  · rintro ⟨_, p, ⟨hp, htrash⟩, rfl, hid, -⟩
    exact ⟨htrash, hid, hp⟩
  · rintro ⟨htrash, hid, hp⟩
    exact ⟨seq, parent, ⟨hp, htrash⟩, rfl, hid, rfl⟩

theorem found_writerRows {p : NodeId} : Found (d.writerRows seq p node) parent id ↔
    p = parent ∧ ∃ w, (d.payloads node).lastWriter = some w ∧ w.2 = id := by
  simp only [Found, Doc.writerRows, List.mem_map, Option.mem_toList, Prod.mk.injEq]
  constructor
  · rintro ⟨_, w, hw, rfl, hid, -⟩
    exact ⟨rfl, w, hw, hid⟩
  · rintro ⟨rfl, w, hw, hid⟩
    exact ⟨seq, w, hw, rfl, hid, rfl⟩

theorem logRows_concat : d.logRows seq (ops ++ [op]) = d.logRows seq ops ++
    (d.applyAll Backend.memory ops).opRows op (seq + UInt64.ofNat ops.length + 1) := by
  induction ops generalizing d seq with
  | nil => simp [Doc.logRows, Doc.applyAll]
  | cons first ops ih =>
    rw [List.cons_append, Doc.logRows, ih, Doc.logRows, List.append_assoc, List.length_cons,
      UInt64.ofNat_add, UInt64.add_comm (UInt64.ofNat _), ← UInt64.add_assoc]
    rfl

/-- The operations that a replay records behind each other. -/
theorem found_logRows (seq : UInt64) : Found (Doc.initial.logRows seq ops) parent id ↔
    Affects ops parent id := by
  induction ops using List.reverseRecOn with
  | nil => exact iff_of_false (fun ⟨_, h⟩ => by cases h) fun h => not_atStep_nil h.2
  | append_singleton ops op ih =>
    rw [logRows_concat, found_append, ih, found_opRows, Affects, Affects, atStep_concat,
      parentIn_eq]
    exact and_or_left.symm

/-- What a full replay records. -/
theorem found_rebuilt (h : ∀ row, row ∈ rows ↔ Doc.Rebuilt ops row) : Found rows parent id ↔
    Affects ops parent id ∨ ∃ n, ¬ n.special ∧ Current ops n parent id := by
  have hpayload : ∀ n seq, Found ((Doc.initial.applyAll Backend.memory ops).payloadRows seq n)
      parent id ↔ ¬ n.special ∧ Current ops n parent id := by
    intro n seq
    rw [Current, parentIn_eq, writerIn_eq, Doc.payloadRows]
    have hnil : ∀ {p : Prop}, ¬ p → (Found [] parent id ↔ p) := fun hp =>
      iff_of_false (fun ⟨_, h⟩ => by cases h) hp
    split_ifs with hs
    · exact hnil fun h => h.1 hs
    · cases hp : (Doc.initial.applyAll Backend.memory ops).rows.parent n with
      | none => exact hnil fun h => by cases h.2.2.1
      | some p =>
        simp only
        split_ifs with htrash
        · exact hnil fun h => h.2.1 ((Option.some.inj h.2.2.1).symm.trans htrash)
        · rw [found_writerRows, Option.some.injEq]
          constructor
          · rintro ⟨rfl, hw⟩
            exact ⟨hs, htrash, rfl, hw⟩
          · rintro ⟨-, -, hp, hw⟩
            exact ⟨hp, hw⟩
  rw [← found_logRows 0]
  simp only [← hpayload _ (max (UInt64.ofNat ops.length) 1), Found, h, Doc.Rebuilt, exists_or]
  rw [exists_comm]

end

/-! ## Remote operations -/

/-- The last writer that an operation brings under another parent. -/
noncomputable def backfillRows (d : Doc) (op : Operation) (seq : UInt64) : List IndexRow :=
  match op.kind.parentAfter with
  | some parent =>
    if parent ≠ NodeId.TRASH ∧ d.rows.parent op.kind.node ≠ some parent then
      (d.apply Backend.memory op).writerRows seq parent op.kind.node
    else []
  | none => []

section

variable {S C : Type} [Storage S] [Clock C] {s s' : StoreTree S C × RecordingIndex} {storage : S}
  {d : Doc} {rows : List IndexRow} {ops : List Operation} {op : Operation} {seq : UInt64}

omit [Storage S] [Clock C] in
theorem found_backfillRows {parent : NodeId} {id : OperationId} :
    Found (backfillRows d op seq) parent id ↔ parent ≠ NodeId.TRASH ∧
      op.kind.parentAfter = some parent ∧ d.rows.parent op.kind.node ≠ some parent ∧
        ∃ w, ((d.apply Backend.memory op).payloads op.kind.node).lastWriter = some w ∧
          w.2 = id := by
  have hnil : ∀ {p : Prop}, ¬ p → (Found [] parent id ↔ p) := fun hp =>
    iff_of_false (fun ⟨_, h⟩ => by cases h) hp
  unfold backfillRows
  cases op.kind.parentAfter with
  | none => exact hnil fun h => by cases h.2.1
  | some p =>
    simp only
    split_ifs with h
    · rw [found_writerRows, Option.some.injEq]
      constructor
      · rintro ⟨rfl, hw⟩
        exact ⟨h.1, rfl, h.2, hw⟩
      · rintro ⟨-, hp, -, hw⟩
        exact ⟨hp, hw⟩
    · refine hnil fun ⟨htrash, hp, hne, _⟩ => h ?_
      rw [Option.some.inj hp]
      exact ⟨htrash, hne⟩

/-- The records that `apply_remote_with_materialization` makes behind an operation. -/
def recordDelta (op : Operation) (seq : UInt64) (delta : ApplyDelta) :
    Exec Error (StoreTree S C × RecordingIndex) Unit := do
  onIndex (recordParents (affectedParents delta.snapshot.parent op.kind) op.metadata.id seq)
  match op.kind.parentAfter with
  | some parentAfter =>
    if parentAfter ≠ NodeId.TRASH ∧ delta.snapshot.parent ≠ some parentAfter then
      recordPayloadWriter parentAfter op.kind.node seq
  | none => pure ()

omit [Storage S] [Clock C] in
theorem recordDelta_bind {α : Type} (op : Operation) (seq : UInt64) (delta : ApplyDelta)
    (refresh : Exec Error (StoreTree S C × RecordingIndex) α) :
    (do
      onIndex (recordParents (affectedParents delta.snapshot.parent op.kind) op.metadata.id seq)
      match op.kind.parentAfter with
      | some parentAfter =>
        if parentAfter ≠ NodeId.TRASH ∧ delta.snapshot.parent ≠ some parentAfter then
          recordPayloadWriter parentAfter op.kind.node seq
      | none => pure ()
      refresh) = recordDelta op seq delta >>= fun _ => refresh := by
  unfold recordDelta
  rw [bind_assoc]
  congr 1
  funext _
  cases op.kind.parentAfter with
  | none => rfl
  | some parentAfter =>
    simp only
    split_ifs
    · rfl
    · exact (Exec.pure_bind () fun _ => refresh).symm

theorem applyRemoteWithMaterialization_delta (op : Operation) (seq : UInt64) :
    (applyRemoteWithMaterialization op seq : Exec Error (StoreTree S C × RecordingIndex) _) =
      onTree (applyRemoteWithDelta op) >>= fun delta =>
        match delta with
        | none => pure none
        | some delta => recordDelta op seq delta >>= fun _ => do
          let changed ← onTree (onNodes (refreshTombstonesUpwardWithDelta
            (affectedParents delta.snapshot.parent op.kind ++ [op.kind.node])))
          return some { delta with
            affectedNodes :=
              sortedNodeIds (delta.affectedNodes ++ changed.filter (· ≠ NodeId.TRASH)) } := by
  unfold applyRemoteWithMaterialization
  congr 1
  funext delta
  cases delta with
  | none => rfl
  | some delta => exact recordDelta_bind op seq delta _

omit [Storage S] [Clock C] in
theorem recordDelta_indexed {delta : ApplyDelta} (seq : UInt64)
    (hparent : delta.snapshot.parent = d.rows.parent op.kind.node) :
    Runs (Indexed storage) (d.apply Backend.memory op, rows)
      (recordDelta op seq delta : Exec Error (StoreTree S C × RecordingIndex) Unit)
      (fun _ => True)
      (d.apply Backend.memory op, rows ++ d.opRows op seq ++ backfillRows d op seq) := by
  unfold recordDelta backfillRows
  rw [hparent]
  refine (recordParents_indexed _ op.metadata.id seq).bind fun _ _ => ?_
  have hnone : Runs (Indexed storage) (d.apply Backend.memory op, rows ++ d.opRows op seq)
      (pure () : Exec Error (StoreTree S C × RecordingIndex) Unit) (fun _ => True)
      (d.apply Backend.memory op, rows ++ d.opRows op seq ++ []) := by
    rw [List.append_nil]
    exact Runs.pure trivial
  cases op.kind.parentAfter with
  | none => exact hnone
  | some parent =>
    simp only
    split_ifs
    · exact recordPayloadWriter_indexed parent op.kind.node seq
    · exact hnone

omit [Storage S] [Clock C] in
theorem recordDelta_head {head : Option Operation} (op : Operation) (seq : UInt64)
    (delta : ApplyDelta) :
    Keeps (fun s : StoreTree S C × RecordingIndex => s.1.head = head) (fun _ => True)
      (recordDelta op seq delta) fun _ => True := by
  unfold recordDelta
  refine (keeps_onIndex (fun t : StoreTree S C => t.head = head) _).bind fun _ _ => ?_
  cases op.kind.parentAfter with
  | none => exact Keeps.pure trivial
  | some parent =>
    simp only
    split_ifs
    · unfold recordPayloadWriter payloadLastWriter
      have hread : Keeps (fun t : StoreTree S C => t.head = head) (fun _ => True)
          (onPayloads (PayloadStore.lastWriter op.kind.node)) fun _ => True :=
        (Keeps.any _).zoom (fun _ _ => trivial) fun _ _ h _ => h
      refine (keeps_onTree hread).bind fun w _ => ?_
      cases w with
      | none => exact Keeps.pure trivial
      | some w => exact keeps_onIndex (fun t : StoreTree S C => t.head = head) _
    · exact Keeps.pure trivial

/-- An operation in order that the log takes is applied on top. -/
theorem applyRemoteWithDelta_inOrder (hd : Acyclic d.rows.up)
    (hs : Indexed s.1.storage s (d, rows))
    (haccept : Storage.apply op s.1.storage = some (.ok true, storage))
    (hord : s.1.isInOrder op = true) : ∃ t delta,
      applyRemoteWithDelta op s.1 = some (.ok (some delta), t) ∧
      delta.snapshot.parent = d.rows.parent op.kind.node ∧ t.head = some op ∧
      Indexed storage (t, s.2) (d.apply Backend.memory op, rows) := by
  set t₁ := raised op (observed op s.1) with ht₁
  have hsame : t₁.nodes = s.1.nodes ∧ t₁.payloads = s.1.payloads ∧ t₁.head = s.1.head ∧
      t₁.storage = s.1.storage := by
    rw [ht₁]
    unfold raised observed
    split <;> exact ⟨rfl, rfl, rfl, rfl⟩
  obtain ⟨hnodes, hpayloads, hhead, hstorage⟩ := hsame
  obtain ⟨snap, stores, hfwd, hsnap, hdoc⟩ := applyForward_runs hd op _ hs.doc
  have hord₁ : isInOrder { t₁ with storage := storage } op = true := by
    unfold isInOrder at hord ⊢
    rw [show TreeCrdt.head { t₁ with storage := storage } = s.1.head from hhead]
    exact hord
  have hfwd₁ : applyForward op (t₁.nodes, t₁.payloads) = some (.ok snap, stores) := by
    rw [hnodes, hpayloads]
    exact hfwd
  refine ⟨{ t₁ with
    storage := storage, nodes := stores.1, payloads := stores.2
    opCount := t₁.opCount + 1, head := some op },
    ⟨snap, directAffectedNodes snap.parent op.kind⟩, ?_, hsnap, rfl, rfl, hdoc, hs.rows⟩
  unfold applyRemoteWithDelta
  rw [modify_bind_run, modify_bind_run, ← ht₁,
    bind_of_ok (onStorage_run (t := t₁) (by rw [hstorage]; exact haccept))]
  simp only [Bool.not_true, Bool.false_eq_true, if_false]
  rw [gets_bind_run, if_pos hord₁,
    bind_of_ok (onStores_run (t := { t₁ with storage := storage }) hfwd₁)]
  rfl

/-- Behind the records of such an operation only the refresh is left. -/
theorem applyRemoteWithMaterialization_refreshes (seq : UInt64) (hd : Acyclic d.rows.up)
    (hs : Indexed s.1.storage s (d, rows))
    (haccept : Storage.apply op s.1.storage = some (.ok true, storage))
    (hord : s.1.isInOrder op = true) :
    ∃ (s₁ : StoreTree S C × RecordingIndex) (delta : ApplyDelta),
      delta.snapshot.parent = d.rows.parent op.kind.node ∧ s₁.1.head = some op ∧
      Indexed storage s₁ (d.apply Backend.memory op,
        rows ++ d.opRows op seq ++ backfillRows d op seq) ∧
      applyRemoteWithMaterialization op seq s = (do
        let changed ← onTree (onNodes (refreshTombstonesUpwardWithDelta
          (affectedParents delta.snapshot.parent op.kind ++ [op.kind.node])))
        return some { delta with
          affectedNodes :=
            sortedNodeIds (delta.affectedNodes ++ changed.filter (· ≠ NodeId.TRASH)) }) s₁ := by
  obtain ⟨t, delta, hdelta, hparent, hhead, ht⟩ := applyRemoteWithDelta_inOrder hd hs haccept hord
  obtain ⟨x, hnext, hx⟩ : ∃ x,
      (onTree (applyRemoteWithDelta op) : Exec Error (StoreTree S C × RecordingIndex) _) s =
        some (.ok x, (t, s.2)) ∧ x = some delta := ⟨_, zoom_of_ok hdelta, rfl⟩
  obtain ⟨_, s₁, hrecord, -, hs₁⟩ := recordDelta_indexed seq hparent _ ht
  refine ⟨s₁, delta, hparent, ((recordDelta_head op seq delta) _ hhead _ _ hrecord).1, hs₁, ?_⟩
  rw [applyRemoteWithMaterialization_delta, bind_of_ok hnext]
  split
  · cases hx
  · cases hx
    exact bind_of_ok hrecord

omit [Storage S] [Clock C] in
/-- A refresh changes no rows, and keeps the head. -/
theorem refreshUpward_indexed {starts : List NodeId} {r : Except Error (List NodeId)}
    (hs : Indexed storage s (d, rows))
    (hrun : (onTree (onNodes (refreshTombstonesUpwardWithDelta starts)) :
      Exec Error (StoreTree S C × RecordingIndex) _) s = some (r, s')) :
    ∃ f, Indexed storage s' ({ d with flags := f }, rows) ∧ s'.1.head = s.1.head := by
  obtain ⟨t, htree, rfl⟩ := zoom_some hrun
  obtain ⟨n, hnodes, rfl⟩ := onNodes_some htree
  have hrows : HasRows d.rows s.1.nodes := ⟨_, rfl, hs.doc.1⟩
  obtain ⟨⟨⟨r', f⟩, hr, hn⟩, -⟩ :=
    refreshLoop_keeps (E := fun _ => True) _ _ _ _ _ hrows _ _ hnodes
  cases hr
  exact ⟨f, ⟨hs.storage, ⟨hn, hs.doc.2⟩, hs.rows⟩, rfl⟩

/-- A remote operation that is reported was applied, and its records were made. -/
theorem applyRemoteWithMaterialization_taken {delta : ApplyDelta} (hd : Acyclic d.rows.up)
    (hs : Indexed s.1.storage s (d, rows)) (hord : TakenInOrder op s.1)
    (hrun : applyRemoteWithMaterialization op seq s = some (.ok (some delta), s')) :
    ∃ f, Indexed s'.1.storage s' ({ d.apply Backend.memory op with flags := f },
      rows ++ d.opRows op seq ++ backfillRows d op seq) := by
  obtain ⟨st, haccept⟩ := accepted_of_some hrun
  have htaken : s.1.isInOrder op = true := hord.resolve_right fun ⟨st', hrefused⟩ => by
    rw [haccept] at hrefused
    cases hrefused
  obtain ⟨s₁, delta₁, -, -, hs₁, heq⟩ :=
    applyRemoteWithMaterialization_refreshes seq hd hs haccept htaken
  rw [heq] at hrun
  obtain ⟨changed, s₂, hrefresh, hret⟩ := bind_ok hrun
  cases hret
  obtain ⟨f, hs₂, -⟩ := refreshUpward_indexed hs₁ hrefresh
  exact ⟨f, by rw [hs₂.storage]; exact hs₂⟩

/-- An operation that is in the log already leaves all as it was. -/
theorem applyRemoteWithMaterialization_known (hd : Acyclic d.rows.up)
    (hs : Indexed s.1.storage s (d, rows)) (hord : TakenInOrder op s.1)
    (hrun : applyRemoteWithMaterialization op seq s = some (.ok none, s')) :
    Indexed s'.1.storage s' (d, rows) := by
  rw [applyRemoteWithMaterialization_delta] at hrun
  obtain ⟨delta, s₁, hdelta, hrest⟩ := bind_ok hrun
  obtain ⟨t, htree, rfl⟩ := zoom_some hdelta
  have hat := applyRemoteWithDelta_at hd op s.1 ⟨⟨d, rfl, hs.doc⟩, hord⟩ _ _ htree
  cases delta with
  | none =>
    cases hrest
    exact ⟨rfl, onDocs_eq hat, hs.rows⟩
  | some delta =>
    obtain ⟨_, s₂, -, hrest⟩ := bind_ok hrest
    obtain ⟨changed, s₃, -, hret⟩ := bind_ok hrest
    cases hret

/-! ## Runs in order -/

/-- Remote operations in op-key order, from a new tree with an empty index; `ops` are those that
were not in the log yet. -/
inductive IndexRun : List Operation → StoreTree S C × RecordingIndex → Prop
  | start {replica : ReplicaId} {storage : S} {clock : C} {t : StoreTree S C}
      (new : TreeCrdt.new replica storage clock = .ok t) : IndexRun [] (t, {})
  | taken {ops : List Operation} {s s' : StoreTree S C × RecordingIndex} {op : Operation}
      {seq seq' : UInt64} {delta : ApplyDelta} (before : IndexRun ops s)
      (inOrder : TakenInOrder op s.1)
      (run : applyRemoteWithMaterializationSeq op seq s = some (.ok (some delta, seq'), s')) :
      IndexRun (ops ++ [op]) s'
  | known {ops : List Operation} {s s' : StoreTree S C × RecordingIndex} {op : Operation}
      {seq seq' : UInt64} (before : IndexRun ops s) (inOrder : TakenInOrder op s.1)
      (run : applyRemoteWithMaterializationSeq op seq s = some (.ok (none, seq'), s')) :
      IndexRun ops s'

theorem applyRemoteWithMaterializationSeq_ok {delta : Option ApplyDelta} {seq' : UInt64}
    (h : applyRemoteWithMaterializationSeq op seq s = some (.ok (delta, seq'), s')) :
    applyRemoteWithMaterialization op (saturatingSucc seq) s = some (.ok delta, s') := by
  obtain ⟨applied, s₁, hone, hret⟩ := bind_ok h
  cases hret
  exact hone

/-- The stores behind a run are those of its operations, up to cached tombstones, and what was
recorded. -/
theorem IndexRun.indexed (h : IndexRun ops s) : ∃ f rows,
    Indexed s.1.storage s
      ({ Doc.initial.applyAll Backend.memory ops with flags := f }, rows) ∧
    ∀ parent id, Found rows parent id ↔ Affects ops parent id ∨ Backfills ops parent id := by
  induction h with
  | @start replica storage clock t new =>
    obtain ⟨counter, -, hret⟩ := except_bind_ok new
    cases hret
    refine ⟨fun _ => false, [], ⟨rfl, initial_models, rfl⟩, fun parent id => ?_⟩
    refine iff_of_false (fun ⟨_, h⟩ => by cases h) ?_
    rintro (h | h)
    · exact not_atStep_nil h.2
    · exact not_atStep_nil h.2
  | @taken ops s s' op seq seq' delta before inOrder run ih =>
    obtain ⟨f, rows, hs, hfound⟩ := ih
    have hacyclic : Acyclic (Doc.initial.applyAll Backend.memory ops).rows.up :=
      Doc.acyclic_applyAll Doc.acyclic_initial _ ops
    obtain ⟨f', hs'⟩ := applyRemoteWithMaterialization_taken
      (d := { Doc.initial.applyAll Backend.memory ops with flags := f }) hacyclic hs inOrder
      (applyRemoteWithMaterializationSeq_ok run)
    rw [Doc.apply_flags] at hs'
    refine ⟨f', _, by rw [applyAll_concat]; exact hs', fun parent id => ?_⟩
    rw [found_append, found_append, hfound, found_opRows, found_backfillRows, Doc.apply_flags]
    simp only [Affects, Backfills, atStep_concat, parentIn_eq, writerIn_eq, applyAll_concat]
    tauto
  | known before inOrder run ih =>
    obtain ⟨f, rows, hs, hfound⟩ := ih
    exact ⟨f, rows, applyRemoteWithMaterialization_known
      (d := { Doc.initial.applyAll Backend.memory _ with flags := f })
      (Doc.acyclic_applyAll Doc.acyclic_initial _ _) hs inOrder
      (applyRemoteWithMaterializationSeq_ok run), hfound⟩

/-- What a subscriber of `children(parent)` needs: the index finds every operation under the parent
that it names and under the one that its node has, and the last writer of the payload of every node
in `nodes` under its parent. -/
structure Finds (nodes : NodeId → Prop) (ops : List Operation) (rows : List IndexRow) : Prop where
  named : ∀ op ∈ ops, ∀ parent, op.kind.parentAfter = some parent → parent ≠ NodeId.TRASH →
    Found rows parent op.metadata.id
  under : ∀ before op after parent, ops = before ++ op :: after →
    parentIn before op.kind.node = some parent → parent ≠ NodeId.TRASH →
    Found rows parent op.metadata.id
  payloads : ∀ node parent w, nodes node → parentIn ops node = some parent →
    parent ≠ NodeId.TRASH → writerIn ops node = some w → Found rows parent w.2

omit [Storage S] [Clock C] in
theorem finds_of_found {nodes : NodeId → Prop}
    (haffects : ∀ parent id, Affects ops parent id → Found rows parent id)
    (hcurrent : ∀ node parent id, nodes node → Current ops node parent id → Found rows parent id) :
    Finds nodes ops rows where
  named op hop parent hnamed htrash := by
    obtain ⟨before, after, rfl⟩ := List.append_of_mem hop
    exact haffects _ _ ⟨htrash, before, op, after, rfl, rfl, Or.inr hnamed⟩
  under before op after parent hops hparent htrash :=
    haffects _ _ ⟨htrash, before, op, after, hops, rfl, Or.inl hparent⟩
  payloads node parent w hnode hparent htrash hw :=
    hcurrent node _ _ hnode ⟨htrash, hparent, w, hw, rfl⟩

/-- **The index is complete.** A run in order from a new tree finds the operations of all nodes. A
full replay finds them too, but for the payloads of `ROOT` and `TRASH`. -/
theorem index_finds :
    (∀ (ops : List Operation) (s : StoreTree S C × RecordingIndex), IndexRun ops s →
      Finds (fun _ => True) ops s.2.records) ∧
    ∀ (ops : List Operation) (s s' : StoreTree S C × RecordingIndex),
      Storage.scanSince s.1.storage 0 = ops.map .ok →
      replayFromStorageWithMaterialization s = some (.ok (), s') →
      Finds (fun n => ¬ n.special) ops s'.2.records := by
  refine ⟨fun ops s hrun => ?_, fun ops s s' hlog hrun => ?_⟩
  · obtain ⟨f, rows, hs, hfound⟩ := hrun.indexed
    obtain rfl : s.2.records = rows := hs.rows
    refine finds_of_found (fun parent id h => (hfound _ _).mpr (Or.inl h)) ?_
    exact fun node parent id _ h => (hfound _ _).mpr (found_of_current h)
  · obtain ⟨rows, hs', hrows⟩ := replayFromStorageWithMaterialization_rows hlog rfl hrun
    obtain rfl : s'.2.records = rows := hs'.rows
    have hfound : ∀ parent id, Found s'.2.records parent id ↔ _ := fun _ _ => found_rebuilt hrows
    refine finds_of_found (fun parent id h => (hfound _ _).mpr (Or.inl h)) ?_
    exact fun node parent id hnode h => (hfound _ _).mpr (Or.inr ⟨node, hnode, h⟩)

/-- **The two ways to an index.** A run in order finds what a full replay of its operations finds,
and the last writers that an operation brought under another parent on the way. -/
theorem run_finds_iff {s₀ s₁ : StoreTree S C × RecordingIndex} (hrun : IndexRun ops s)
    (hlog : Storage.scanSince s₀.1.storage 0 = ops.map .ok)
    (hreplay : replayFromStorageWithMaterialization s₀ = some (.ok (), s₁)) (parent : NodeId)
    (id : OperationId) :
    Found s.2.records parent id ↔ Found s₁.2.records parent id ∨ Backfills ops parent id := by
  obtain ⟨f, rows, hs, hfound⟩ := hrun.indexed
  obtain rfl : s.2.records = rows := hs.rows
  obtain ⟨rows₁, hs₁, hrows₁⟩ := replayFromStorageWithMaterialization_rows hlog rfl hreplay
  obtain rfl : s₁.2.records = rows₁ := hs₁.rows
  rw [hfound, found_rebuilt hrows₁]
  constructor
  · rintro (h | h)
    · exact Or.inl (Or.inl h)
    · exact Or.inr h
  · rintro ((h | ⟨node, -, h⟩) | h)
    · exact Or.inl h
    · exact found_of_current h
    · exact Or.inr h

end

section

variable {C : Type} [Clock C] {ops : List Operation}

/-- A sorted log that leaves `ROOT` and `TRASH` alone is taken in order, by a new tree over a memory
storage. -/
theorem exists_indexRun (clock : C) (hsorted : ops.Pairwise fun a b => a.key < b.key)
    (hid : DistinctIds ops) (hplain : ∀ op ∈ ops, ¬ op.kind.node.special) :
    ∃ s : MemoryTree C × RecordingIndex, IndexRun ops s ∧ s.1.storage.Wf ∧
      s.1.storage.ops = ops ∧ s.1.head = ops.getLast? := by
  induction ops using List.reverseRecOn with
  | nil =>
    have hnew : ∃ t : MemoryTree C, TreeCrdt.new ⟨[]⟩ {} clock = .ok t ∧ t.storage = {} ∧
        t.head = none := ⟨_, rfl, rfl, rfl⟩
    obtain ⟨t, hnew, hstorage, hhead⟩ := hnew
    exact ⟨(t, {}), .start hnew, by rw [hstorage]; exact MemoryStorage.Wf.default,
      by rw [hstorage], hhead⟩
  | append_singleton ops op ih =>
    obtain ⟨hsorted', -, hlt⟩ := List.pairwise_append.mp hsorted
    have hid' : DistinctIds ops := by
      rw [DistinctIds, List.map_append] at hid
      exact (List.nodup_append.mp hid).1
    obtain ⟨s, hrun, hwf, hops, hhead⟩ :=
      ih hsorted' hid' fun x hx => hplain x (List.mem_append_left _ hx)
    obtain ⟨f, rows, hs, -⟩ := hrun.indexed
    have hfresh : op.metadata.id ∉ s.1.storage.ids := fun hmem => by
      rw [hwf.ids, hops] at hmem
      rw [DistinctIds, List.map_append] at hid
      exact (List.nodup_append.mp hid).2.2 _ hmem _ (List.mem_singleton.mpr rfl) rfl
    have haccept : Storage.apply op s.1.storage = some (.ok true, s.1.storage.push op) := by
      rw [MemoryStorage.apply_eq, if_neg hfresh]
    have hord : s.1.isInOrder op = true := by
      unfold isInOrder
      rw [hhead]
      cases hlast : ops.getLast? with
      | none => rfl
      | some last =>
        have hmem : last ∈ ops := List.mem_of_getLast? hlast
        show decide (cmpOps op last = .gt) = true
        rw [decide_eq_true_eq, cmpOps_eq, cmp_eq_gt_iff]
        exact hlt last hmem op (List.mem_singleton_self op)
    have hshaped : (Doc.initial.applyAll Backend.memory (ops ++ [op])).Shaped :=
      Doc.Shaped.applyAll hplain
    rw [applyAll_concat] at hshaped
    obtain ⟨s₁, delta, -, hhead₁, hs₁, heq⟩ := applyRemoteWithMaterialization_refreshes
      (saturatingSucc 0) (d := { Doc.initial.applyAll Backend.memory ops with flags := f })
      (Doc.acyclic_applyAll Doc.acyclic_initial _ ops) hs haccept hord
    rw [Doc.apply_flags] at hs₁
    obtain ⟨V, f', -, -, hruns⟩ := refreshTombstonesUpwardWithDelta_runs hshaped.listed
      hshaped.normal (affectedParents delta.snapshot.parent op.kind ++ [op.kind.node]) f
    obtain ⟨changed, s₂, hrefresh, -, hs₂⟩ := onNodes_indexed hruns _ hs₁
    obtain ⟨-, -, hhead₂⟩ := refreshUpward_indexed hs₁ hrefresh
    rw [bind_of_ok hrefresh] at heq
    have hseq : applyRemoteWithMaterializationSeq op 0 s = some (.ok _, s₂) := bind_of_ok heq
    refine ⟨s₂, .taken hrun (Or.inl hord) hseq, ?_, ?_, ?_⟩
    · rw [hs₂.storage]
      exact hwf.push hfresh
    · rw [hs₂.storage, MemoryStorage.push, hops]
    · rw [hhead₂, hhead₁, List.getLast?_concat]

/-- A sorted log is also rebuilt. -/
theorem exists_indexRun_rebuilt (clock : C) (hsorted : ops.Pairwise fun a b => a.key < b.key)
    (hid : DistinctIds ops) (hlamport : ∀ op ∈ ops, 0 < op.metadata.lamport)
    (hplain : ∀ op ∈ ops, ¬ op.kind.node.special) :
    ∃ s s' : MemoryTree C × RecordingIndex, IndexRun ops s ∧
      Storage.scanSince s.1.storage 0 = ops.map .ok ∧
      replayFromStorageWithMaterialization s = some (.ok (), s') := by
  obtain ⟨s, hrun, -, hops, -⟩ := exists_indexRun clock hsorted hid hplain
  have hlog : Storage.scanSince s.1.storage 0 = ops.map .ok := by
    rw [scanSince_eq (by rw [hops]; exact hlamport), hops,
      sortOps_of_sorted (hsorted.imp fun h => h.le)]
  obtain ⟨s', hreplay⟩ := replayFromStorageWithMaterialization_returns hlog
    (Doc.Shaped.applyAll hplain).listed (s := s) rfl
  exact ⟨s, s', hrun, hlog, hreplay⟩

/-- The node `5` gets a payload, moves below `6` and moves on. -/
def movedOps : List Operation :=
  [.insert ⟨[2]⟩ 1 1 NodeId.ROOT ⟨5⟩ [0, 7], .insert ⟨[2]⟩ 2 2 NodeId.ROOT ⟨6⟩ [0, 9],
    .setPayload ⟨[2]⟩ 3 3 ⟨5⟩ [1], .moveNode ⟨[2]⟩ 4 4 ⟨5⟩ ⟨6⟩ [0, 7],
    .moveNode ⟨[2]⟩ 5 5 ⟨5⟩ NodeId.ROOT [0, 11]]

theorem exists_movedOps_run : ∃ s s' : MemoryTree LamportClock × RecordingIndex,
    IndexRun movedOps s ∧ Storage.scanSince s.1.storage 0 = movedOps.map .ok ∧
      replayFromStorageWithMaterialization s = some (.ok (), s') :=
  exists_indexRun_rebuilt {} (by decide +kernel) (by decide) (by decide) (by decide)

/-- The payload of `5` is found under `ROOT`, both ways. -/
theorem index_finds_moved : ∃ s s' : MemoryTree LamportClock × RecordingIndex,
    Finds (fun _ => True) movedOps s.2.records ∧
      Finds (fun n => ¬ n.special) movedOps s'.2.records := by
  obtain ⟨s, s', hrun, hlog, hreplay⟩ := exists_movedOps_run
  obtain ⟨hinOrder, hrebuilt⟩ := index_finds (S := MemoryStorage) (C := LamportClock)
  exact ⟨s, s', hinOrder _ s hrun, hrebuilt _ s s' hlog hreplay⟩

/-- The payload of `5` has come by below `6`. -/
theorem run_finds_iff_moved : ∃ s s' : MemoryTree LamportClock × RecordingIndex,
    Found s.2.records ⟨6⟩ ⟨⟨[2]⟩, 3⟩ ↔
      Found s'.2.records ⟨6⟩ ⟨⟨[2]⟩, 3⟩ ∨ Backfills movedOps ⟨6⟩ ⟨⟨[2]⟩, 3⟩ := by
  obtain ⟨s, s', hrun, hlog, hreplay⟩ := exists_movedOps_run
  exact ⟨s, s', run_finds_iff hrun hlog hreplay ⟨6⟩ ⟨⟨[2]⟩, 3⟩⟩

end

end TreeCrdt

end Treecrdt
