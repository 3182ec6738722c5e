import Mathlib.Data.List.Dedup
import TreecrdtLean.Spec.Again
import TreecrdtLean.Tree.Resets

/-!
# Incremental batches (`materialization.rs`, `apply_incremental_ops_with_delta`)

An adapter that has the operations in its own log materializes a batch over `NoopStorage`, which
takes every operation and has none to replay. An operation that is not newer than the one before it
so empties the stores. The batch is applied as its distinct operations are, each once, exactly if no
operation of it comes twice and none is the head that the tree holds (`appliesOnce_iff_fresh`). The
adapters prepare a tree without a head, so the newest operation may come again: that changes nothing
which can be read (`Doc.alike_again`).

* `applySingly`: each operation once, whatever the order.
* `Ascends`: every operation is newer than the one before it.
-/

namespace Treecrdt

open Exec Forest

namespace TreeCrdt

variable {C N P I : Type} [Clock C] [NodeStore N] [PayloadStore P] [ParentOpIndex I]

/-- Each operation once, whatever the order: the head is forgotten before each of them. -/
def applySingly : List Operation → UInt64 → Exec Error (WatchedTree C N P × I) Unit
  | [], _ => return
  | op :: ops, seq => do
    onTree (modify fun t => { t with head := none })
    let (_, seq) ← applyRemoteWithMaterializationSeq op seq
    applySingly ops seq

/-- The batch leaves the stores as its distinct operations do, each applied once in the order of the
keys, hands back the newest key as head, and resets no store. -/
def AppliesOnce (cursor : TreeMeta) (ops : List Operation) (s : WatchedTree C N P × I) : Prop :=
  ∃ s₁ s' head affected,
    applySingly (sortOps ops.dedup) cursor.headSeq s = some (.ok (), s₁) ∧
    applyIncrementalOpsWithDelta cursor ops s = some (.ok (head, affected), s') ∧
    s'.1.nodes = s₁.1.nodes ∧ s'.1.payloads = s₁.1.payloads ∧
    head.map (fun h : MaterializationHead => opKey h.lamport h.replica h.counter) =
      (sortOps ops).getLast?.map Operation.key ∧
    s'.1.nodes.resets = s.1.nodes.resets ∧ s'.1.payloads.resets = s.1.payloads.resets

/-- No operation comes twice, and none is the head of the tree. -/
def Fresh (head : Option Operation) (ops : List Operation) : Prop :=
  (ops.map Operation.key).Nodup ∧ ∀ last ∈ head, ∀ op ∈ ops, op.key ≠ last.key

/-! ## Operations in order -/

/-- Every operation is newer than the one before it, the first one than the head. -/
def Ascends : Option Operation → List Operation → Prop
  | _, [] => True
  | head, op :: ops => (∀ last ∈ head, last.key < op.key) ∧ Ascends (some op) ops

theorem ascends_iff {head : Option Operation} {ops : List Operation} :
    Ascends head ops ↔ ops.Pairwise (fun a b => a.key < b.key) ∧
      ∀ last ∈ head, ∀ op ∈ ops, last.key < op.key := by
  induction ops generalizing head with
  | nil => simp [Ascends]
  | cons op ops ih =>
    rw [Ascends, ih, List.pairwise_cons]
    constructor
    · rintro ⟨hfirst, hpair, hrest⟩
      refine ⟨⟨hrest op rfl, hpair⟩, fun last hlast => List.forall_mem_cons.mpr ⟨hfirst last hlast, ?_⟩⟩
      exact fun x hx => (hfirst last hlast).trans (hrest op rfl x hx)
    · rintro ⟨⟨hop, hpair⟩, hall⟩
      refine ⟨fun last hlast => hall last hlast op List.mem_cons_self, hpair, ?_⟩
      rintro last hlast x hx
      cases hlast
      exact hop x hx

/-- A batch behind its head is sorted into operations that ascend exactly if it is fresh. -/
theorem ascends_sortOps {head : Option Operation} {ops : List Operation}
    (h : ∀ last ∈ head, ∀ op ∈ ops, last.key ≤ op.key) :
    Ascends head (sortOps ops) ↔ Fresh head ops := by
  have hperm := sortOps_perm ops
  rw [ascends_iff, Fresh, ← (hperm.map Operation.key).nodup_iff]
  refine and_congr ?_ (forall₂_congr fun last hlast => ?_)
  · rw [List.Nodup, List.pairwise_map]
    refine ⟨fun hlt => hlt.imp fun hab => hab.ne, fun hne => ?_⟩
    exact (hne.and (sortOps_sorted ops)).imp fun hab => lt_of_le_of_ne hab.2 hab.1
  · refine ⟨fun hlt op hop => (hlt op (hperm.mem_iff.mpr hop)).ne', fun hne op hop => ?_⟩
    have hop' := hperm.mem_iff.mp hop
    exact lt_of_le_of_ne (h last hlast op hop') (hne op hop').symm

section

variable {op : Operation} {seq : UInt64} {t : WatchedTree C N P} {i : I}

omit [Clock C] [NodeStore N] [PayloadStore P] in
theorem isInOrder_iff : t.isInOrder op = true ↔ ∀ last ∈ t.head, last.key < op.key := by
  unfold isInOrder
  cases t.head with
  | none => simp
  | some last =>
    rw [decide_eq_true_eq, cmpOps_eq, cmp_eq_gt_iff]
    simp

omit [Clock C] in
theorem applyNext_forget {t' : WatchedTree C N P} {r : Option ApplyDelta}
    (hrun : applyNext op { t with head := none } = some (.ok r, t')) :
    applyNext op t = some (.ok r, t') := by
  unfold applyNext at hrun ⊢
  obtain ⟨snap, t₁, hfwd, hnext⟩ := bind_ok hrun
  obtain ⟨s, hs, rfl⟩ := zoom_some hfwd
  have hsame : onStores (applyForward op) t =
      some (.ok snap, { t with nodes := s.1, payloads := s.2 }) := zoom_of_ok hs
  rw [bind_of_ok hsame]
  exact hnext

/-- What is in order is applied as if there were no head. -/
theorem applyRemoteWithDelta_forget {t' : WatchedTree C N P} {r : Option ApplyDelta}
    (hord : t.isInOrder op = true)
    (hrun : applyRemoteWithDelta op { t with head := none } = some (.ok r, t')) :
    applyRemoteWithDelta op t = some (.ok r, t') := by
  have hforget : raised op (observed op { t with head := none }) =
      { raised op (observed op t) with head := none } := by
    unfold raised observed
    split <;> rfl
  rw [applyRemoteWithDelta_run, if_pos (by rfl), hforget] at hrun
  rw [applyRemoteWithDelta_run, if_pos hord]
  exact applyNext_forget hrun

theorem applyRemoteWithMaterializationSeq_forget {r : Option ApplyDelta × UInt64}
    {s' : WatchedTree C N P × I} (hord : t.isInOrder op = true)
    (hrun : applyRemoteWithMaterializationSeq op seq ({ t with head := none }, i) =
      some (.ok r, s')) :
    applyRemoteWithMaterializationSeq op seq (t, i) = some (.ok r, s') := by
  unfold applyRemoteWithMaterializationSeq at hrun ⊢
  obtain ⟨applied, s₁, hone, hret⟩ := bind_ok hrun
  rw [applyRemoteWithMaterialization_eq] at hone
  obtain ⟨delta, s₂, hdelta, hrest⟩ := bind_ok hone
  obtain ⟨t₂, htree, rfl⟩ := zoom_some hdelta
  have hsame := applyRemoteWithDelta_forget hord htree
  have hone' : applyRemoteWithMaterialization op (saturatingSucc seq) (t, i) =
      some (.ok applied, s₁) := by
    have htree : onTree (applyRemoteWithDelta op) (t, i) = some (.ok delta, (t₂, i)) :=
      zoom_of_ok hsame
    rw [applyRemoteWithMaterialization_eq, bind_of_ok htree]
    exact hrest
  exact (bind_of_ok hone').trans hret

theorem applyRemoteWithMaterializationSeq_inOrder {r : Option ApplyDelta × UInt64}
    {s s' : WatchedTree C N P × I} (hord : s.1.isInOrder op = true)
    (hrun : applyRemoteWithMaterializationSeq op seq s = some (.ok r, s')) :
    s'.1.head = some op ∧ s'.1.nodes.resets = s.1.nodes.resets ∧
      s'.1.payloads.resets = s.1.payloads.resets := by
  unfold applyRemoteWithMaterializationSeq at hrun
  obtain ⟨applied, s₁, hone, hret⟩ := bind_ok hrun
  cases hret
  obtain ⟨hhead, -, hresets⟩ := applyRemoteWithMaterialization_inOrder hord hone
  exact ⟨hhead, hresets⟩

/-- Operations that ascend are applied as each of them is alone. -/
theorem applyEach_of_ascends {ops : List Operation} (affected : List NodeId)
    {s₁ : WatchedTree C N P × I} (hasc : Ascends t.head (op :: ops))
    (hrun : applySingly (op :: ops) seq (t, i) = some (.ok (), s₁)) :
    (∃ r, applyEach (op :: ops) seq affected (t, i) = some (.ok r, s₁)) ∧
      s₁.1.head = (op :: ops).getLast? ∧ s₁.1.nodes.resets = t.nodes.resets ∧
      s₁.1.payloads.resets = t.payloads.resets := by
  induction ops generalizing op t i seq affected with
  | nil =>
    obtain ⟨_, s₀, hforget, hrun⟩ := bind_ok hrun
    cases hforget
    obtain ⟨r, s, hone, hret⟩ := bind_ok hrun
    cases hret
    have hord := isInOrder_iff.mpr hasc.1
    have hsame := applyRemoteWithMaterializationSeq_forget hord hone
    obtain ⟨hhead, hresets⟩ := applyRemoteWithMaterializationSeq_inOrder hord hsame
    exact ⟨⟨_, bind_of_ok hsame⟩, hhead, hresets⟩
  | cons next ops ih =>
    obtain ⟨_, s₀, hforget, hrun⟩ := bind_ok hrun
    cases hforget
    obtain ⟨r, s, hone, hrest⟩ := bind_ok hrun
    have hord := isInOrder_iff.mpr hasc.1
    have hsame := applyRemoteWithMaterializationSeq_forget hord hone
    obtain ⟨hhead, hnodes, hpayloads⟩ := applyRemoteWithMaterializationSeq_inOrder hord hsame
    obtain ⟨⟨r', heach⟩, hlast, hresets⟩ := ih _ (t := s.1) (i := s.2) (hhead ▸ hasc.2) hrest
    refine ⟨⟨r', (bind_of_ok hsame).trans heach⟩, ?_, ?_⟩
    · rw [hlast, List.getLast?_cons_cons]
    · exact ⟨hresets.1.trans hnodes, hresets.2.trans hpayloads⟩

/-- A loop that has reset no store has met its operations in order. -/
theorem ascends_of_resets {ops : List Operation} {affected : List NodeId}
    {r : UInt64 × List NodeId} {s s' : WatchedTree C N P × I}
    (hrun : applyEach ops seq affected s = some (.ok r, s'))
    (hresets : s'.1.nodes.resets = s.1.nodes.resets) : Ascends s.1.head ops := by
  induction ops generalizing s seq affected with
  | nil => trivial
  | cons op ops ih =>
    obtain ⟨r₁, s₁, hseq, hrest⟩ := bind_ok hrun
    have hseq' := hseq
    unfold applyRemoteWithMaterializationSeq at hseq'
    obtain ⟨applied, s₂, hone, hret⟩ := bind_ok hseq'
    cases hret
    by_cases hord : s.1.isInOrder op = true
    · obtain ⟨hhead, hnodes, -⟩ := applyRemoteWithMaterializationSeq_inOrder hord hseq
      exact ⟨isInOrder_iff.mp hord, hhead ▸ ih hrest (hresets.trans hnodes.symm)⟩
    · -- The count has gone up, and cannot come down again.
      have hup := applyRemoteWithMaterialization_replays hord hone
      have hkept := (applyEach_keeps (W := (s₁.1.nodes.resets ≤ ·)) (V := fun _ => True)
        (fun _ hk => Nat.le_succ_of_le hk) (fun _ _ => trivial) ops _ _ s₁ ⟨le_refl _, trivial⟩
        _ _ hrest).1.1
      have hkept' : s₁.1.nodes.resets ≤ s'.1.nodes.resets := hkept
      omega

end

/-! ## Batches -/

variable {cursor : TreeMeta} {ops : List Operation} {s s' : WatchedTree C N P × I}

/-- A batch that is taken is one run of the loop. -/
theorem applyIncrementalOpsWithDelta_ok {r : Option MaterializationHead × List NodeId}
    (hne : ops ≠ []) (hrun : applyIncrementalOpsWithDelta cursor ops s = some (.ok r, s')) :
    ∃ each, applyEach (sortOps ops) cursor.headSeq [] s = some (.ok each, s') := by
  unfold applyIncrementalOpsWithDelta at hrun
  rw [if_neg (by simpa using hne)] at hrun
  split at hrun
  · cases hrun
  split at hrun
  · cases hrun
  obtain ⟨⟨seq, reported⟩, s₂, heach, hrest⟩ := bind_ok hrun
  obtain ⟨last, s₃, hlast, hret⟩ := bind_ok hrest
  obtain ⟨t₃, hget, rfl⟩ := zoom_some hlast
  cases hget
  simp only at hret
  cases hhead : s₂.1.head with
  | none =>
    rw [hhead] at hret
    cases hret
  | some last =>
    rw [hhead] at hret
    cases hret
    exact ⟨_, heach⟩

theorem applyIncrementalOpsWithDelta_run {each : UInt64 × List NodeId} {last : Operation}
    (hne : ops ≠ []) (hdirty : cursor.dirty = false)
    (hbehind : (sortOps ops).head?.any (behindHead cursor) = false)
    (heach : applyEach (sortOps ops) cursor.headSeq [] s = some (.ok each, s'))
    (hlast : s'.1.head = some last) :
    applyIncrementalOpsWithDelta cursor ops s =
      some (.ok (some ⟨last.metadata.lamport, last.metadata.id.replica.bytes,
        last.metadata.id.counter, each.1⟩, sortedNodeIds each.2), s') := by
  have hget : onTree (gets fun t : WatchedTree C N P => t.head) s' = some (.ok (some last), s') := by
    rw [← hlast]
    rfl
  unfold applyIncrementalOpsWithDelta
  rw [if_neg (by simpa using hne), if_neg (by simp [hdirty]), if_neg (by simp [hbehind]),
    bind_of_ok heach]
  exact bind_of_ok hget

omit [Clock C] [NodeStore N] [PayloadStore P] [ParentOpIndex I] in
/-- A batch at or behind the cursor is not refused. -/
theorem behindHead_sortOps
    (h : ∀ op ∈ ops, opKey cursor.headLamport cursor.headReplica cursor.headCounter ≤ op.key) :
    (sortOps ops).head?.any (behindHead cursor) = false := by
  rcases hfirst : (sortOps ops).head? with _ | first
  · rfl
  have hmem := (sortOps_perm ops).mem_iff.mp (List.mem_of_mem_head? hfirst)
  have hnot : ¬ first.key < opKey cursor.headLamport cursor.headReplica cursor.headCounter :=
    not_lt.mpr (h first hmem)
  rw [Option.any_some, behindHead, decide_eq_false_iff_not]
  exact fun hlt => hnot ((cmp_eq_lt_iff _ _).mp hlt)

/-- A batch that is applied once has met its operations in order. -/
theorem AppliesOnce.ascends (h : AppliesOnce cursor ops s) : Ascends s.1.head (sortOps ops) := by
  obtain ⟨s₁, s', head, affected, -, hrun, -, -, -, hresets, -⟩ := h
  by_cases hne : ops = []
  · rw [hne, sortOps_nil]
    trivial
  · obtain ⟨each, heach⟩ := applyIncrementalOpsWithDelta_ok hne hrun
    exact ascends_of_resets heach hresets

/-- A materialized batch at or behind the head is applied once, operation by operation, exactly if it
is fresh; and the newest operation, applied again where it was applied last, is a no-op. -/
theorem appliesOnce_iff_fresh (cursor : TreeMeta) (ops : List Operation)
    (s : WatchedTree C N P × I) (hdirty : cursor.dirty = false)
    (hhead : ∀ last ∈ s.1.head,
      last.key = opKey cursor.headLamport cursor.headReplica cursor.headCounter)
    (hops : ∀ op ∈ ops,
      opKey cursor.headLamport cursor.headReplica cursor.headCounter ≤ op.key)
    (hanswer : ∃ s₁, applySingly (sortOps ops.dedup) cursor.headSeq s = some (.ok (), s₁)) :
    (AppliesOnce cursor ops s ↔ Fresh s.1.head ops) ∧
      ∀ (stores : MemoryStores) (d : Doc) (op : Operation), ModelsDoc stores d →
        Acyclic d.rows.up → d.rows.Normal →
        ((d.apply Backend.memory op).apply Backend.memory op).Alike (d.apply Backend.memory op) := by
  refine ⟨?_, fun stores d op => Doc.alike_again⟩
  have hfresh := ascends_sortOps fun last hlast op hop => hhead last hlast ▸ hops op hop
  by_cases hne : ops = []
  · subst hne
    obtain ⟨s₁, hsingly⟩ := hanswer
    have hsame := hsingly
    rw [List.dedup_nil, sortOps_nil] at hsame
    cases hsame
    refine iff_of_true ⟨s, s, none, [], hsingly, rfl, rfl, rfl, ?_, rfl, rfl⟩ ⟨List.nodup_nil, by simp⟩
    rw [sortOps_nil]
    rfl
  rw [← hfresh]
  constructor
  · exact fun h => h.ascends
  · intro hasc
    obtain ⟨s₁, hsingly⟩ := hanswer
    have hnodup : ops.Nodup := (hfresh.mp hasc).1.of_map
    have hsame := hsingly
    rw [List.dedup_eq_self.mpr hnodup] at hsame
    cases hsorted : sortOps ops with
    | nil =>
      have hperm := sortOps_perm ops
      rw [hsorted] at hperm
      exact absurd hperm.nil_eq.symm hne
    | cons op rest =>
      rw [hsorted] at hsame hasc
      obtain ⟨⟨each, heach⟩, hlast, hnodes, hpayloads⟩ :=
        applyEach_of_ascends [] (t := s.1) (i := s.2) hasc hsame
      obtain ⟨last, hlast'⟩ : ∃ last, (op :: rest).getLast? = some last :=
        ⟨_, List.getLast?_eq_some_getLast (List.cons_ne_nil op rest)⟩
      rw [← hsorted] at heach
      have hrun := applyIncrementalOpsWithDelta_run hne hdirty (behindHead_sortOps hops) heach
        (hlast.trans hlast')
      refine ⟨s₁, s₁, _, _, hsingly, hrun, rfl, rfl, ?_, hnodes, hpayloads⟩
      rw [hsorted, hlast']
      rfl

/-! A batch of one insert, and the same insert twice, on a new tree. -/

def batchInsert : Operation := .insert ⟨[2]⟩ 1 1 NodeId.ROOT ⟨5⟩ [0, 7]

def batchCursor : TreeMeta := ⟨false, 0, [], 0, 0⟩

def batchState :
    WatchedTree LamportClock MemoryNodeStore MemoryPayloadStore × RecordingIndex :=
  (⟨⟨[1]⟩, {}, {}, 0, ⟨MemoryNodeStore.default, 0⟩, .new, ⟨{}, 0⟩, none, 0⟩, {})

theorem batchInsert_singly :
    ∃ s₁, applySingly (sortOps [batchInsert]) batchCursor.headSeq batchState =
      some (.ok (), s₁) := by
  have hsome : ((applySingly [batchInsert] batchCursor.headSeq batchState).map fun r =>
      r.1.toOption.isSome) = some true := by decide +kernel
  rw [sortOps_of_sorted (List.pairwise_singleton _ _)]
  obtain ⟨⟨r, s₁⟩, hrun, hok⟩ := Option.map_eq_some_iff.mp hsome
  cases r with
  | error e => cases hok
  | ok u => exact ⟨s₁, hrun⟩

/-- The counterexample: an operation that comes twice. -/
theorem repeated_not_appliesOnce :
    batchCursor.dirty = false ∧ batchState.1.head = none ∧
    (∀ op ∈ [batchInsert, batchInsert],
      opKey batchCursor.headLamport batchCursor.headReplica batchCursor.headCounter ≤ op.key) ∧
    (∃ s₁, applySingly (sortOps [batchInsert, batchInsert].dedup) batchCursor.headSeq batchState =
      some (.ok (), s₁)) ∧
    ¬ AppliesOnce batchCursor [batchInsert, batchInsert] batchState := by
  have hdedup : [batchInsert, batchInsert].dedup = [batchInsert] := by decide
  refine ⟨rfl, rfl, by decide, hdedup ▸ batchInsert_singly, fun h => ?_⟩
  have hasc := h.ascends
  rw [sortOps_of_sorted (by decide)] at hasc
  exact lt_irrefl _ (hasc.2.1 batchInsert rfl)

theorem appliesOnce_iff_fresh_insert :
    AppliesOnce batchCursor [batchInsert] batchState ↔ Fresh batchState.1.head [batchInsert] := by
  have hdedup : [batchInsert].dedup = [batchInsert] := by decide
  exact (appliesOnce_iff_fresh batchCursor [batchInsert] batchState rfl (by decide) (by decide)
    (hdedup ▸ batchInsert_singly)).1

end TreeCrdt

end Treecrdt
