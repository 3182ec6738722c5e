import TreecrdtLean.Core.Replay
import TreecrdtLean.Spec.Memory

/-!
# Convergence

A tree over the in-memory stores that is only fed through `applyRemote` is always the fold of
`applyForward` over its sorted log (`Synced`): the in-order path appends to that fold, because
`head` is the last operation of it, and the other path replays it. So two trees that were fed the
same operations, in any two orders, end in the same stores.
-/

namespace Treecrdt

open Exec

/-- A tree over the in-memory log and stores. -/
abbrev MemoryTree (C : Type) := TreeCrdt MemoryStorage C MemoryNodeStore MemoryPayloadStore

namespace TreeCrdt

variable {C : Type}

/-! ## The log -/

/-- The invariant of the log: Lamport times are positive, and `head` is the greatest operation. -/
structure LogInv (t : MemoryTree C) : Prop extends MemoryStorage.Wf t.storage where
  lamport : ∀ op ∈ t.storage.ops, 0 < op.metadata.lamport
  head : t.head = (sortOps t.storage.ops).getLast?

/-- The rows of a log whose Lamport times are positive. -/
theorem scanSince_eq {s : MemoryStorage} (h : ∀ op ∈ s.ops, 0 < op.metadata.lamport) :
    Storage.scanSince s 0 = (sortOps s.ops).map .ok := by
  have : s.ops.filter (fun op => decide (op.metadata.lamport > 0)) = s.ops :=
    List.filter_eq_self.mpr fun op hop => decide_eq_true (h op hop)
  show (sortOps (s.ops.filter _)).map _ = _
  rw [this]

/-- The log after a new operation. -/
theorem LogInv.push {t t' : MemoryTree C} (h : t.LogInv) {op : Operation}
    (hnew : op.metadata.id ∉ t.storage.ids) (hl : 0 < op.metadata.lamport)
    (hs : t'.storage = t.storage.push op)
    (hh : t'.head = (sortOps (t.storage.ops ++ [op])).getLast?) : t'.LogInv where
  ids := by
    rw [hs]
    exact (h.toWf.push hnew).ids
  distinct := by
    rw [hs]
    exact (h.toWf.push hnew).distinct
  lamport x hx := by
    rw [hs] at hx
    rcases List.mem_append.mp hx with hx | hx
    · exact h.lamport x hx
    · rw [List.mem_singleton.mp hx]
      exact hl
  head := by rw [hh, hs, MemoryStorage.push]

/-- The greatest operation of a log is its new one. -/
theorem getLast?_sortOps_push {ops : List Operation} {op : Operation}
    (hid : DistinctIds (ops ++ [op])) (hlt : ∀ a ∈ ops, a.key < op.key) :
    (sortOps (ops ++ [op])).getLast? = some op := by
  rw [sortOps_append hid fun a ha => (hlt a ha).le, List.getLast?_concat]

/-- In order means greater than everything in the log. -/
theorem LogInv.isInOrder_iff {t : MemoryTree C} (h : t.LogInv) (op : Operation) :
    t.isInOrder op = true ↔ ∀ a ∈ t.storage.ops, a.key < op.key := by
  unfold isInOrder
  rw [h.head]
  rcases hl : (sortOps t.storage.ops).getLast? with _ | last
  · have hnil : t.storage.ops = [] :=
      (List.getLast?_eq_none_iff.mp hl ▸ sortOps_perm t.storage.ops).symm.eq_nil
    simp [hnil]
  · rw [decide_eq_true_eq, cmpOps_eq, cmp_eq_gt_iff]
    have hmem : last ∈ t.storage.ops :=
      (sortOps_perm _).mem_iff.mp (List.mem_of_getLast? hl)
    exact ⟨fun hlt a ha => (le_getLast_sortOps hl a ha).trans_lt hlt, fun hall => hall last hmem⟩

/-! ## The stores -/

/-- The stores are the fold over the sorted log. -/
structure Synced (t : MemoryTree C) : Prop extends LogInv t where
  stores : forwardAll (sortOps t.storage.ops) (MemoryNodeStore.default, {}) =
    some (.ok (), (t.nodes, t.payloads))

/-- The fold over any operations from the reset stores. -/
theorem exists_forwardAll (ops : List Operation) :
    ∃ s, forwardAll ops (MemoryNodeStore.default, ({} : MemoryPayloadStore)) =
      some (.ok (), s) ∧ ModelsDoc s (Doc.initial.applyAll Backend.memory ops) := by
  obtain ⟨_, s, hrun, -, hs⟩ := forwardAll_runs Doc.acyclic_initial ops _ initial_models
  exact ⟨s, hrun, hs⟩

/-- An operation newer than the log continues the fold. -/
theorem Synced.applyForward_newest {t : MemoryTree C} (h : t.Synced) {op : Operation}
    (hid : DistinctIds (t.storage.ops ++ [op])) (hlt : ∀ a ∈ t.storage.ops, a.key < op.key) :
    ∃ snap s, applyForward op (t.nodes, t.payloads) = some (.ok snap, s) ∧
      forwardAll (sortOps (t.storage.ops ++ [op])) (MemoryNodeStore.default, {}) =
        some (.ok (), s) := by
  obtain ⟨s, hs, -⟩ := exists_forwardAll (sortOps (t.storage.ops ++ [op]))
  have hsort := sortOps_append hid fun a ha => (hlt a ha).le
  have hrun := hs
  rw [hsort, forwardAll_append h.stores] at hrun
  obtain ⟨snap, s₁, hop, hnil⟩ := forwardAll_cons_ok hrun
  cases hnil
  exact ⟨snap, s, hop, hs⟩

variable [Clock C]

/-- A replay of a good log returns, and leaves the fold. -/
theorem replayFromStorage_log {t : MemoryTree C}
    (hl : ∀ op ∈ t.storage.ops, 0 < op.metadata.lamport) :
    ∃ t', replayFromStorage t = some (.ok (), t') ∧ t'.storage = t.storage ∧
      t'.replicaId = t.replicaId ∧
      t'.clock = observeLamports t.clock (sortOps t.storage.ops) ∧
      t'.counter = max t.counter ((observeOps .new (sortOps t.storage.ops)).get t.replicaId) ∧
      t'.head = (sortOps t.storage.ops).getLast? ∧
      forwardAll (sortOps t.storage.ops) (MemoryNodeStore.default, {}) =
        some (.ok (), (t'.nodes, t'.payloads)) := by
  obtain ⟨s, hs, -⟩ := exists_forwardAll (sortOps t.storage.ops)
  obtain ⟨opCount, hrun⟩ := replayFromStorage_run (scanSince_eq hl) rfl rfl hs
  exact ⟨_, hrun, rfl, rfl, rfl, rfl, rfl, hs⟩

/-- What a remote operation can do: nothing to the log, go on from the stores, or replay. -/
theorem applyRemote_cases {t : MemoryTree C} (h : t.LogInv) (op : Operation) :
    (op.metadata.id ∈ t.storage.ids ∧ applyRemote op t = some (.ok (), observed op t)) ∨
    (op.metadata.id ∉ t.storage.ids ∧ (∀ a ∈ t.storage.ops, a.key < op.key) ∧
      ∀ snap s, applyForward op (t.nodes, t.payloads) = some (.ok snap, s) →
        applyRemote op t = some (.ok (), { observed op t with
          storage := t.storage.push op, nodes := s.1, payloads := s.2
          opCount := t.opCount + 1, head := some op })) ∨
    (op.metadata.id ∉ t.storage.ids ∧ ¬ t.isInOrder op ∧
      applyRemote op t = replayFromStorage { observed op t with storage := t.storage.push op }) := by
  by_cases hid : op.metadata.id ∈ t.storage.ids
  · exact Or.inl ⟨hid, applyRemote_duplicate (by rw [MemoryStorage.apply_eq, if_pos hid])⟩
  have hs : Storage.apply op t.storage = some (.ok true, t.storage.push op) := by
    rw [MemoryStorage.apply_eq, if_neg hid]
  by_cases hord : t.isInOrder op
  · exact Or.inr (Or.inl ⟨hid, (h.isInOrder_iff op).mp hord,
      fun snap s hop => applyRemote_inOrder hs hord hop⟩)
  · exact Or.inr (Or.inr ⟨hid, hord, applyRemote_replay hs hord⟩)

/-- One remote operation. -/
theorem applyRemote_synced {t : MemoryTree C} (h : t.Synced) {op : Operation}
    (hl : 0 < op.metadata.lamport) :
    ∃ t', applyRemote op t = some (.ok (), t') ∧ t'.Synced ∧
      t'.storage.ops =
        if op.metadata.id ∈ t.storage.ids then t.storage.ops else t.storage.ops ++ [op] := by
  rcases applyRemote_cases h.toLogInv op with ⟨hid, hrun⟩ | ⟨hid, hlt, hrun⟩ | ⟨hid, -, hrun⟩
  · exact ⟨_, hrun, ⟨⟨h.toWf, h.lamport, h.head⟩, h.stores⟩, by rw [if_pos hid]; rfl⟩
  · -- The fold goes on from the stores as they are.
    have hdist := (h.toWf.push hid).distinct
    obtain ⟨snap, s, hop, hs⟩ := h.applyForward_newest hdist hlt
    refine ⟨_, hrun snap s hop, ⟨h.push hid hl rfl ?_, hs⟩, by rw [if_neg hid]; rfl⟩
    exact (getLast?_sortOps_push hdist hlt).symm
  · set t₁ : MemoryTree C := { observed op t with
      storage := t.storage.push op
      head := (sortOps (t.storage.ops ++ [op])).getLast? }
    have h₁ : t₁.LogInv := h.push hid hl rfl rfl
    obtain ⟨t', hrun', hst, -, -, -, hhead, hstores⟩ :=
      replayFromStorage_log (t := { observed op t with storage := t.storage.push op }) h₁.lamport
    rw [← hrun] at hrun'
    refine ⟨t', hrun', ⟨h.push hid hl hst hhead, ?_⟩, by rw [hst, if_neg hid]; rfl⟩
    rw [hst]
    exact hstores

/-! ## Runs -/

/-- Feed operations through `apply_remote`, one after the other. -/
def applyRemotes {S N P : Type} [Storage S] [NodeStore N] [PayloadStore P] :
    List Operation → Exec Error (TreeCrdt S C N P) Unit
  | [] => return
  | op :: ops => do
    applyRemote op
    applyRemotes ops

/-- A run from any synced tree: the log holds what it held and what was fed. -/
theorem applyRemotes_synced {ops : List Operation} (hid : DistinctIds ops)
    (hl : ∀ op ∈ ops, 0 < op.metadata.lamport) {fed : List Operation} {t : MemoryTree C}
    (h : t.Synced) (hfed : ∀ op ∈ fed, op ∈ ops) (hlog : ∀ op ∈ t.storage.ops, op ∈ ops) :
    ∃ t', applyRemotes fed t = some (.ok (), t') ∧ t'.Synced ∧
      ∀ op, op ∈ t'.storage.ops ↔ op ∈ t.storage.ops ∨ op ∈ fed := by
  induction fed generalizing t with
  | nil => exact ⟨t, rfl, h, fun op => by simp⟩
  | cons op fed ih =>
    have hop := hfed op (by simp)
    obtain ⟨t₁, hrun, h₁, hops⟩ := applyRemote_synced h (hl op hop)
    have hmem : ∀ x, x ∈ t₁.storage.ops ↔ x ∈ t.storage.ops ∨ x = op := by
      intro x
      rw [hops]
      split
      · -- The operation stored under this id is this one.
        rename_i hin
        obtain ⟨y, hy, he⟩ := List.mem_map.mp ((h.ids _).mp hin)
        have hyop : y = op := List.inj_on_of_nodup_map hid (hlog y hy) hop he
        rw [hyop] at hy
        exact ⟨Or.inl, fun hx => hx.elim id fun hx => hx ▸ hy⟩
      · simp
    obtain ⟨t', hrun', h', hmem'⟩ := ih h₁ (fun x hx => hfed x (List.mem_cons_of_mem _ hx))
      fun x hx => ((hmem x).mp hx).elim (hlog x) fun hx => hx ▸ hop
    refine ⟨t', by rw [applyRemotes, bind_of_ok hrun, hrun'], h', fun x => ?_⟩
    rw [hmem', hmem, List.mem_cons, or_assoc]

/-- A new tree. -/
theorem new_synced (replicaId : ReplicaId) (clock : C) :
    ∃ t : MemoryTree C, TreeCrdt.new replicaId {} clock = .ok t ∧ t.Synced ∧
      t.storage.ops = [] :=
  ⟨_, rfl, ⟨⟨MemoryStorage.Wf.default, by simp, by simp⟩, by simp⟩, rfl⟩

/-- **Convergence.** Two new trees that were fed the operations of one set, in any orders and with
any repetitions, end in the same stores: the fold of `apply_forward` over the set in canonical
order. -/
theorem applyRemotes_converge {C₁ C₂ : Type} [Clock C₁] [Clock C₂] {ops : List Operation}
    (hid : DistinctIds ops) (hl : ∀ op ∈ ops, 0 < op.metadata.lamport)
    (replica₁ replica₂ : ReplicaId) (clock₁ : C₁) (clock₂ : C₂) {fed₁ fed₂ : List Operation}
    (h₁ : ∀ op, op ∈ fed₁ ↔ op ∈ ops) (h₂ : ∀ op, op ∈ fed₂ ↔ op ∈ ops) :
    ∃ (new₁ t₁ : MemoryTree C₁) (new₂ t₂ : MemoryTree C₂),
      TreeCrdt.new replica₁ {} clock₁ = .ok new₁ ∧ TreeCrdt.new replica₂ {} clock₂ = .ok new₂ ∧
      applyRemotes fed₁ new₁ = some (.ok (), t₁) ∧ applyRemotes fed₂ new₂ = some (.ok (), t₂) ∧
      t₁.nodes = t₂.nodes ∧ t₁.payloads = t₂.payloads ∧
      forwardAll (sortOps ops) (MemoryNodeStore.default, {}) =
        some (.ok (), (t₁.nodes, t₁.payloads)) := by
  have hside : ∀ {C : Type} [Clock C] (replica : ReplicaId) (clock : C) {fed : List Operation},
      (∀ op, op ∈ fed ↔ op ∈ ops) →
      ∃ new t : MemoryTree C, TreeCrdt.new replica {} clock = .ok new ∧
        applyRemotes fed new = some (.ok (), t) ∧
        forwardAll (sortOps ops) (MemoryNodeStore.default, {}) =
          some (.ok (), (t.nodes, t.payloads)) := by
    intro C _ replica clock fed hfed
    obtain ⟨new, hnew, hs, hops⟩ := new_synced (C := C) replica clock
    obtain ⟨t, hrun, ht, hmem⟩ := applyRemotes_synced hid hl hs (fun op => (hfed op).mp)
      (by simp [hops])
    have hperm : t.storage.ops.Perm ops :=
      (List.perm_ext_iff_of_nodup (List.Nodup.of_map _ ht.distinct) (List.Nodup.of_map _ hid)).mpr
        fun op => by simp [hmem, hops, hfed]
    refine ⟨new, t, hnew, hrun, ?_⟩
    rw [← sortOps_eq_of_perm hperm ht.distinct]
    exact ht.stores
  obtain ⟨new₁, t₁, hn₁, hr₁, hf₁⟩ := hside replica₁ clock₁ h₁
  obtain ⟨new₂, t₂, hn₂, hr₂, hf₂⟩ := hside replica₂ clock₂ h₂
  have heq : (t₁.nodes, t₁.payloads) = (t₂.nodes, t₂.payloads) := by
    have := hf₁.symm.trans hf₂
    simpa using this
  exact ⟨new₁, t₁, new₂, t₂, hn₁, hn₂, hr₁, hr₂, congrArg Prod.fst heq, congrArg Prod.snd heq, hf₁⟩

/-- A delete that reaches one replica before the insert it deletes, and the other twice behind. -/
theorem applyRemotes_converge_two :
    let insert := Operation.insert ⟨[1]⟩ 1 1 NodeId.ROOT ⟨5⟩ [0, 7]
    let delete := Operation.delete ⟨[2]⟩ 1 2 ⟨5⟩ none
    ∃ (new₁ t₁ new₂ t₂ : MemoryTree LamportClock),
      TreeCrdt.new ⟨[1]⟩ {} {} = .ok new₁ ∧ TreeCrdt.new ⟨[2]⟩ {} {} = .ok new₂ ∧
      applyRemotes [delete, insert] new₁ = some (.ok (), t₁) ∧
      applyRemotes [insert, delete, delete] new₂ = some (.ok (), t₂) ∧
      t₁.nodes = t₂.nodes ∧ t₁.payloads = t₂.payloads ∧
      forwardAll (sortOps [insert, delete]) (MemoryNodeStore.default, {}) =
        some (.ok (), (t₁.nodes, t₁.payloads)) :=
  applyRemotes_converge (by decide) (by decide) _ _ _ _ (fun op => by simp [or_comm])
    fun op => by simp

end TreeCrdt

end Treecrdt
