import TreecrdtLean.Core.Replay
import TreecrdtLean.Tree.Converge
import TreecrdtLean.Tree.Hide
import TreecrdtLean.Tree.IndexRows

/-!
# A remote operation behind the head

`apply_remote_with_materialization` maintains the index and the cached tombstones, but only for an
operation in order. For one that sorts before the head it replays the log by the plain path, which
leaves every flag unset and the index as it was: that is what a replay with materialization makes
only where it would set no flag and the index has its rows already (`late_materialized_iff`).
-/

namespace Treecrdt

open Exec Forest

namespace TreeCrdt

variable {S C : Type} [Storage S] [Clock C]
variable {t t' : StoreTree S C} {i i' : RecordingIndex} {storage : S} {op : Operation}
  {seq : UInt64} {ops : List Operation}

/-- A late operation is accepted: the stores are those of the fold over the extended log, and the
index is not touched. -/
theorem applyRemoteWithMaterialization_late (i : RecordingIndex) (seq : UInt64)
    (haccept : Storage.apply op t.storage = some (.ok true, storage))
    (hlate : t.isInOrder op = false) (hlog : Storage.scanSince storage 0 = ops.map .ok) :
    ∃ t', applyRemoteWithMaterialization op seq (t, i) = some (.ok none, (t', i)) ∧
      t'.storage = storage ∧
      forwardAll ops (MemoryNodeStore.default, ({} : MemoryPayloadStore)) =
        some (.ok (), (t'.nodes, t'.payloads)) := by
  set t₁ := raised op (observed op t) with ht₁
  have hsame : t₁.head = t.head ∧ t₁.storage = t.storage := by
    rw [ht₁]
    unfold raised observed
    split <;> exact ⟨rfl, rfl⟩
  obtain ⟨hhead, hstorage⟩ := hsame
  obtain ⟨t₂, hreplay, hstorage₂, hfold⟩ : ∃ t₂,
      replayFromStorage { t₁ with storage := storage } = some (.ok (), t₂) ∧
        t₂.storage = storage ∧ forwardAll ops (MemoryNodeStore.default, {}) =
          some (.ok (), (t₂.nodes, t₂.payloads)) := by
    obtain ⟨s, hfold, -⟩ := exists_forwardAll ops
    obtain ⟨opCount, hreplay⟩ := replayFromStorage_run (t := { t₁ with storage := storage })
      hlog rfl rfl hfold
    exact ⟨_, hreplay, rfl, hfold⟩
  have hlate₁ : isInOrder { t₁ with storage := storage } op = false := by
    unfold isInOrder at hlate ⊢
    rw [show TreeCrdt.head { t₁ with storage := storage } = t.head from hhead]
    exact hlate
  have hdelta : applyRemoteWithDelta op t = some (.ok none, t₂) := by
    unfold applyRemoteWithDelta
    rw [modify_bind_run, modify_bind_run, ← ht₁,
      bind_of_ok (onStorage_run (t := t₁) (by rw [hstorage]; exact haccept))]
    simp only [Bool.not_true, Bool.false_eq_true, if_false]
    rw [gets_bind_run, hlate₁, if_neg Bool.false_ne_true, bind_of_ok hreplay]
    rfl
  refine ⟨t₂, ?_, hstorage₂, hfold⟩
  have hnext : (onTree (applyRemoteWithDelta op) :
      Exec Error (StoreTree S C × RecordingIndex) _) (t, i) = some (.ok none, (t₂, i)) :=
    zoom_of_ok hdelta
  unfold applyRemoteWithMaterialization
  rw [bind_of_ok hnext]
  rfl

omit [Storage S] [Clock C] in
/-- The stores of the fold stand for the document of the operations. -/
theorem models_of_forwardAll
    (h : forwardAll ops (MemoryNodeStore.default, ({} : MemoryPayloadStore)) =
      some (.ok (), (t.nodes, t.payloads))) :
    ModelsDoc (t.nodes, t.payloads) (Doc.initial.applyAll Backend.memory ops) := by
  obtain ⟨s, hfold, hdoc⟩ := exists_forwardAll ops
  rw [h] at hfold
  cases hfold
  exact hdoc

/-- The flags behind the late operation and behind a full replay: they differ where a node is
tombstoned. -/
theorem flags_late {n n' : MemoryNodeStore}
    (h : MemoryNodeStore.Models n ((Doc.initial.applyAll Backend.memory ops).rows,
      (Doc.initial.applyAll Backend.memory ops).flags))
    (h' : MemoryNodeStore.Models n' ((rebuiltDoc ops).rows, (rebuiltDoc ops).flags)) :
    (∀ m, n.flags m = n'.flags m) ↔
      ∀ m, ¬ m.special → ¬ (Doc.initial.applyAll Backend.memory ops).rows.Tombstoned m := by
  have hclear : ∀ m, n.flags m = false := fun m => by
    rw [show n.flags = _ from h.2.1, Doc.flags_applyAll]
    rfl
  have hfresh : n'.flags = (rebuiltDoc ops).flags := h'.2.1
  refine forall_congr' fun m => ?_
  rw [hclear, hfresh]
  show _ = Rows.refreshedAll _ _ m ↔ _
  rw [Rows.refreshedAll, Doc.flags_applyAll]
  split_ifs with hdel
  · rw [eq_comm, decide_eq_false_iff_not]
    exact ⟨fun h _ => h, fun h => h hdel.1⟩
  · refine iff_of_true rfl fun hs htomb => hdel ⟨hs, ?_⟩
    obtain ⟨vv, hvv, -⟩ := htomb
    rw [hvv]
    rfl

/-- An operation of a log is recorded under the parents that it affects there. -/
theorem opRows_subset_logRows {d : Doc} {start : UInt64} (before after : List Operation)
    {row : IndexRow}
    (h : row ∈ (d.applyAll Backend.memory before).opRows op
      (start + UInt64.ofNat before.length + 1)) :
    row ∈ d.logRows start (before ++ op :: after) := by
  induction before generalizing d start with
  | nil =>
    rw [List.nil_append, Doc.logRows]
    exact List.mem_append_left _ (by simpa [Doc.applyAll] using h)
  | cons first before ih =>
    rw [List.cons_append, Doc.logRows]
    refine List.mem_append_right _ (ih ?_)
    rw [List.length_cons, UInt64.ofNat_add, UInt64.add_comm (UInt64.ofNat _),
      ← UInt64.add_assoc] at h
    exact h

/-- A late operation leaves what a full replay of the extended log makes if and only if no node of
that log is tombstoned, and the index has the rows of that log already. That is never so where the
index has no row of the operation, and the operation affects a parent other than `TRASH`. -/
theorem late_materialized_iff {t'' : StoreTree S C} {i'' : RecordingIndex} {r : Option ApplyDelta}
    (haccept : Storage.apply op t.storage = some (.ok true, storage))
    (hlate : t.isInOrder op = false) (hlog : Storage.scanSince storage 0 = ops.map .ok)
    (happly : applyRemoteWithMaterialization op seq (t, i) = some (.ok r, (t', i')))
    (hreplay : replayFromStorageWithMaterialization (t', i') = some (.ok (), (t'', i''))) :
    (((∀ n, t'.nodes.flags n = t''.nodes.flags n) ∧
        ∀ row, row ∈ i'.records ↔ row ∈ i''.records) ↔
      (∀ n, ¬ n.special → ¬ (Doc.initial.applyAll Backend.memory ops).rows.Tombstoned n) ∧
        ∀ row, row ∈ i.records ↔ Doc.Rebuilt ops row) ∧
    ((∀ row ∈ i.records, row.2.1 ≠ op.metadata.id) →
      (∀ row, row ∈ i'.records ↔ row ∈ i''.records) →
      ∀ before after, ops = before ++ op :: after →
        ∀ parent ∈ affectedParents
          ((Doc.initial.applyAll Backend.memory before).rows.parent op.kind.node) op.kind,
          parent = NodeId.TRASH) := by
  obtain ⟨t₁, hrun, hstorage, hfold⟩ :=
    applyRemoteWithMaterialization_late i seq haccept hlate hlog
  rw [hrun] at happly
  cases happly
  obtain ⟨rows, hindexed, hrows⟩ :=
    replayFromStorageWithMaterialization_rows hlog hstorage hreplay
  have hrebuilt : ∀ row, row ∈ i''.records ↔ Doc.Rebuilt ops row := fun row => by
    rw [show i''.records = rows from hindexed.rows, hrows row]
  have hdoc := models_of_forwardAll hfold
  refine ⟨and_congr (flags_late hdoc.1 hindexed.doc.1) (forall_congr' fun row => ?_), ?_⟩
  · rw [hrebuilt row]
  · rintro hnew hsame before after rfl parent hparent
    by_contra htrash
    have hrow : ((parent, op.metadata.id, 0 + UInt64.ofNat before.length + 1) : IndexRow) ∈
        (Doc.initial.applyAll Backend.memory before).opRows op
          (0 + UInt64.ofNat before.length + 1) :=
      List.mem_map.mpr ⟨parent, List.mem_filter.mpr ⟨hparent, decide_eq_true htrash⟩, rfl⟩
    have hmem := (hsame _).mpr ((hrebuilt _).mpr (Or.inl (opRows_subset_logRows before after hrow)))
    exact hnew _ hmem rfl

/-! Nodes `5` and `6` are inserted, and a delete of `5` comes between them. -/

def insertFive : Operation := .insert ⟨[2]⟩ 1 1 NodeId.ROOT ⟨5⟩ [0, 7]

def insertSix : Operation := .insert ⟨[2]⟩ 2 3 NodeId.ROOT ⟨6⟩ [0, 9]

/-- A delete of `5` that knows its insert. -/
def lateDelete : Operation :=
  .delete ⟨[3]⟩ 1 2 ⟨5⟩ (some (VersionVector.new.observe ⟨[2]⟩ 1))

def lateLog : List Operation := [insertFive, lateDelete, insertSix]

/-- The inserts were taken in order. -/
def insertedBoth : SampleState :=
  stateAfter (applyRemoteWithMaterialization insertSix 2)
    (stateAfter (applyRemoteWithMaterialization insertFive 1) sampleNew)

def lateStorage : MemoryStorage := insertedBoth.1.storage.push lateDelete

theorem insertedBoth_ops : insertedBoth.1.storage.ops = [insertFive, insertSix] := by
  decide +kernel

theorem lateStorage_log : Storage.scanSince lateStorage 0 = lateLog.map .ok := by
  have hops : lateStorage.ops = [insertFive, insertSix, lateDelete] :=
    congrArg (· ++ [lateDelete]) insertedBoth_ops
  have hperm : lateStorage.ops.Perm lateLog := by
    rw [hops]
    exact .cons _ (.swap _ _ _)
  have hsorted : sortOps lateLog = lateLog := sortOps_of_sorted (by decide +kernel)
  have hdistinct : DistinctIds lateStorage.ops := by
    rw [hops]
    decide
  rw [scanSince_eq (by rw [hops]; decide), sortOps_eq_of_perm hperm hdistinct, hsorted]

theorem lateDelete_accepted :
    Storage.apply lateDelete insertedBoth.1.storage = some (.ok true, lateStorage) := by
  rfl

theorem lateDelete_late : insertedBoth.1.isInOrder lateDelete = false := by decide +kernel

theorem lateLog_plain : ∀ op ∈ lateLog, ¬ op.kind.node.special := by decide

/-- The delete knows the insert, and nothing is below the node `5`. -/
theorem tombstoned_lateLog :
    (Doc.initial.applyAll Backend.memory lateLog).rows.Tombstoned ⟨5⟩ := by
  have hdel : lateDelete ∈ lateLog := by simp [lateLog]
  rw [tombstoned_iff (by decide) lateLog_plain]
  refine ⟨⟨_, hdel, Or.inl rfl⟩, fun m op hm ht x hx => ⟨_, hdel, Or.inl rfl, ?_⟩⟩
  have hm5 : m = ⟨5⟩ :=
    eq_of_above_childless (storesAfter_models lateLog) (by decide) (by decide +kernel) hm
  subst hm5
  obtain ⟨pre, post, s, he, -, ht⟩ := ht
  have hop : op ∈ lateLog := by simp [he]
  simp only [lateLog, List.mem_cons, List.not_mem_nil, or_false] at hop
  obtain rfl | rfl | rfl := hop
  · rw [Operation.eq_of_mem_dots rfl hx]
    exact Or.inr ⟨_, rfl, by decide +kernel⟩
  · cases ht
  · obtain ⟨-, -, h | h⟩ | ⟨hsome, -⟩ := ht
    · cases h
    · exact absurd h (by decide)
    · cases hsome

/-- The delete is taken late, and the log is replayed. -/
theorem lateDelete_run : ∃ t' t'' i'',
    applyRemoteWithMaterialization lateDelete 2 insertedBoth =
      some (.ok none, (t', insertedBoth.2)) ∧
    replayFromStorageWithMaterialization (t', insertedBoth.2) = some (.ok (), (t'', i'')) ∧
    forwardAll lateLog (MemoryNodeStore.default, ({} : MemoryPayloadStore)) =
      some (.ok (), (t'.nodes, t'.payloads)) ∧
    ∃ rows, Indexed lateStorage (t'', i'') (rebuiltDoc lateLog, rows) ∧
      ∀ row, row ∈ rows ↔ Doc.Rebuilt lateLog row := by
  obtain ⟨t', hrun, hstorage, hfold⟩ := applyRemoteWithMaterialization_late insertedBoth.2 2
    lateDelete_accepted lateDelete_late lateStorage_log
  obtain ⟨⟨t'', i''⟩, hreplay⟩ := replayFromStorageWithMaterialization_returns lateStorage_log
    (Doc.Shaped.applyAll lateLog_plain).listed (s := (t', insertedBoth.2)) hstorage
  exact ⟨t', t'', i'', hrun, hreplay, hfold,
    replayFromStorageWithMaterialization_rows lateStorage_log hstorage hreplay⟩

/-- Behind the late delete the index has no row of it, and the flag of the node `5` is not set. -/
theorem late_not_materialized :
    insertedBoth.1.storage.ops = [insertFive, insertSix] ∧
    insertedBoth.1.isInOrder lateDelete = false ∧ 1 ≤ lateDelete.metadata.lamport ∧
    ∃ t' i' t'' i'',
      applyRemoteWithMaterialization lateDelete 2 insertedBoth = some (.ok none, (t', i')) ∧
      replayFromStorageWithMaterialization (t', i') = some (.ok (), (t'', i'')) ∧
      ¬ (∀ n, MemoryNodeStore.flags t'.nodes n = MemoryNodeStore.flags t''.nodes n) ∧
      ¬ ∀ row : IndexRow, row ∈ i'.records ↔ row ∈ i''.records := by
  obtain ⟨t', t'', i'', hrun, hreplay, hfold, rows, hindexed, hrows⟩ := lateDelete_run
  refine ⟨insertedBoth_ops, lateDelete_late, by decide, t', _, t'', i'', hrun, hreplay, ?_, ?_⟩
  · rw [flags_late (models_of_forwardAll hfold).1 hindexed.doc.1]
    exact fun h => h ⟨5⟩ (by decide) tombstoned_lateLog
  · intro hsame
    have hrow : ((NodeId.ROOT, lateDelete.metadata.id, 2) : IndexRow) ∈
        Doc.initial.logRows 0 lateLog := by
      refine opRows_subset_logRows [insertFive] [insertSix] ?_
      have hparent : (Doc.initial.applyAll Backend.memory [insertFive]).rows.parent ⟨5⟩ =
          some NodeId.ROOT := by
        rw [← MemoryNodeStore.Models.parent (storesAfter_models [insertFive]).1]
        decide +kernel
      unfold Doc.opRows
      rw [show lateDelete.kind.node = ⟨5⟩ from rfl, hparent]
      decide +kernel
    have hi : i''.records = rows := hindexed.rows
    have hmem := (hsame _).mpr (hi.symm ▸ (hrows _).mpr (Or.inl hrow))
    exact absurd hmem (by decide +kernel)

/-- The delete of `5` behind the insert of `6`. -/
theorem late_materialized_iff_delete : ∃ (t' t'' : StoreTree MemoryStorage LamportClock)
    (i' i'' : RecordingIndex),
    ((∀ n, t'.nodes.flags n = t''.nodes.flags n) ∧
        ∀ row, row ∈ i'.records ↔ row ∈ i''.records) ↔
      (∀ n, ¬ n.special → ¬ (Doc.initial.applyAll Backend.memory lateLog).rows.Tombstoned n) ∧
        ∀ row, row ∈ insertedBoth.2.records ↔ Doc.Rebuilt lateLog row := by
  obtain ⟨t', t'', i'', hrun, hreplay, -⟩ := lateDelete_run
  exact ⟨t', t'', _, i'', (late_materialized_iff lateDelete_accepted lateDelete_late
    lateStorage_log hrun hreplay).1⟩

end TreeCrdt

end Treecrdt
