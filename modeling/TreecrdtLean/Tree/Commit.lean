import TreecrdtLean.Core.Observe
import TreecrdtLean.Spec.Refresh
import TreecrdtLean.Tree.Converge

/-!
# Local operations

A tree takes remote calls and local ones in any order (`Call`, `Run`). `Live` is what every call
keeps: the counter covers the replica's own operations in the log, the clock covers every Lamport
time, and the stores are the fold of the log up to cached tombstones. From a live tree a local
operation gets a new id and the greatest key, so it is stored and applied on top
(`localOp_live`).

`applyRemote` breaks `Live` in one place: its in-order path does not raise the counter for an
operation of the replica itself, and the next local operation mints an id that is taken.
-/

namespace Treecrdt

open Exec

namespace TreeCrdt

/-! ## Live trees -/

/-- The document of a log. -/
noncomputable def docOf (ops : List Operation) : Doc :=
  Doc.initial.applyAll Backend.memory (sortOps ops)

structure Live (t : MemoryTree LamportClock) : Prop extends LogInv t where
  counter : ∀ op ∈ t.storage.ops, op.metadata.id.replica = t.replicaId →
    op.metadata.id.counter ≤ t.counter
  clock : ∀ op ∈ t.storage.ops, op.metadata.lamport ≤ t.clock.counter
  nodes : HasRows (docOf t.storage.ops).rows t.nodes
  payloads : LawfulPayloadStore.Models t.payloads (docOf t.storage.ops).payloads

theorem Live.models {t : MemoryTree LamportClock} (h : t.Live) :
    ∃ f, ModelsDoc (t.nodes, t.payloads) { docOf t.storage.ops with flags := f } := by
  obtain ⟨⟨r, f⟩, hr, hn⟩ := h.nodes
  cases hr
  exact ⟨f, hn, h.payloads⟩

/-- The stores of a live tree are those of the fold of its log. -/
theorem Live.stores {t : MemoryTree LamportClock} (h : t.Live) :
    ∃ s, forwardAll (sortOps t.storage.ops) (MemoryNodeStore.default, {}) = some (.ok (), s) ∧
      SameReads (t.nodes, t.payloads) s := by
  obtain ⟨s, hs, hmod⟩ := exists_forwardAll (sortOps t.storage.ops)
  obtain ⟨f, hf⟩ := h.models
  exact ⟨s, hs, sameReads_of_models hf hmod⟩

/-- The document of a log that grew at its end. -/
theorem docOf_push {ops : List Operation} {op : Operation} (hid : DistinctIds (ops ++ [op]))
    (hlt : ∀ a ∈ ops, a.key < op.key) :
    docOf (ops ++ [op]) = (docOf ops).apply Backend.memory op := by
  rw [docOf, sortOps_append hid fun a ha => (hlt a ha).le, Doc.applyAll, List.foldl_append]
  rfl

/-- A newest operation applies to the stores of a live tree. -/
theorem Live.applyForward_newest {t : MemoryTree LamportClock} (h : t.Live) {op : Operation}
    (hid : op.metadata.id ∉ t.storage.ids) (hlt : ∀ a ∈ t.storage.ops, a.key < op.key) :
    ∃ snap s, applyForward op (t.nodes, t.payloads) = some (.ok snap, s) ∧
      HasRows (docOf (t.storage.ops ++ [op])).rows s.1 ∧
      LawfulPayloadStore.Models s.2 (docOf (t.storage.ops ++ [op])).payloads := by
  obtain ⟨f, hf⟩ := h.models
  have hacyc : Forest.Acyclic (docOf t.storage.ops).rows.up :=
    Doc.acyclic_applyAll Doc.acyclic_initial _ _
  obtain ⟨snap, s, hop, -, hs⟩ := applyForward_runs (d := { docOf t.storage.ops with flags := f })
    hacyc op _ hf
  refine ⟨snap, s, hop, ?_⟩
  rw [docOf_push (h.toWf.push hid).distinct hlt]
  rw [Doc.apply_flags] at hs
  exact ⟨⟨_, rfl, hs.1⟩, hs.2⟩

/-- A live tree whose log grew by a newest operation. -/
theorem Live.push {t t' : MemoryTree LamportClock} (h : t.Live) {op : Operation}
    (hid : op.metadata.id ∉ t.storage.ids) (hl : 0 < op.metadata.lamport)
    (hlt : ∀ a ∈ t.storage.ops, a.key < op.key) (hs : t'.storage = t.storage.push op)
    (hhead : t'.head = some op) (hreplica : t'.replicaId = t.replicaId)
    (hcounter : t.counter ≤ t'.counter ∧
      (op.metadata.id.replica = t.replicaId → op.metadata.id.counter ≤ t'.counter))
    (hclock : t.clock.counter ≤ t'.clock.counter ∧ op.metadata.lamport ≤ t'.clock.counter)
    (hnodes : HasRows (docOf (t.storage.ops ++ [op])).rows t'.nodes)
    (hpayloads : LawfulPayloadStore.Models t'.payloads (docOf (t.storage.ops ++ [op])).payloads) :
    t'.Live where
  toLogInv := h.toLogInv.push hid hl hs
    (by rw [hhead, getLast?_sortOps_push (h.toWf.push hid).distinct hlt])
  counter x hx hr := by
    rw [hs] at hx
    rw [hreplica] at hr
    rcases List.mem_append.mp hx with hx | hx
    · exact UInt64.le_trans (h.counter x hx hr) hcounter.1
    · rw [List.mem_singleton.mp hx] at hr ⊢
      exact hcounter.2 hr
  clock x hx := by
    rw [hs] at hx
    rcases List.mem_append.mp hx with hx | hx
    · exact UInt64.le_trans (h.clock x hx) hclock.1
    · rw [List.mem_singleton.mp hx]
      exact hclock.2
  nodes := by rw [hs]; exact hnodes
  payloads := by rw [hs]; exact hpayloads

/-- A live tree whose counter and clock went on. -/
theorem Live.advance {t t' : MemoryTree LamportClock} (h : t.Live) (hs : t'.storage = t.storage)
    (hhead : t'.head = t.head) (hreplica : t'.replicaId = t.replicaId)
    (hcounter : t.counter ≤ t'.counter) (hclock : t.clock.counter ≤ t'.clock.counter)
    (hnodes : HasRows (docOf t.storage.ops).rows t'.nodes) (hpayloads : t'.payloads = t.payloads) :
    t'.Live where
  ids := by rw [hs]; exact h.ids
  distinct := by rw [hs]; exact h.distinct
  lamport := by rw [hs]; exact h.lamport
  head := by rw [hs, hhead]; exact h.head
  counter := by
    rw [hs, hreplica]
    exact fun x hx hr => UInt64.le_trans (h.counter x hx hr) hcounter
  clock := by
    rw [hs]
    exact fun x hx => UInt64.le_trans (h.clock x hx) hclock
  nodes := by rw [hs]; exact hnodes
  payloads := by rw [hs, hpayloads]; exact h.payloads

/-! ## Replays -/

theorem le_observeLamports (c : LamportClock) (ops : List Operation) :
    c.counter.toNat ≤ (observeLamports c ops).counter.toNat ∧
      ∀ op ∈ ops, op.metadata.lamport.toNat ≤ (observeLamports c ops).counter.toNat := by
  induction ops generalizing c with
  | nil => simp [observeLamports]
  | cons op ops ih =>
    obtain ⟨hc, hops⟩ := ih (Clock.observe op.metadata.lamport c)
    have hmax : (Clock.observe op.metadata.lamport c).counter.toNat =
        max c.counter.toNat op.metadata.lamport.toNat := toNat_max _ _
    rw [hmax] at hc
    refine ⟨(le_max_left _ _).trans hc, fun x hx => ?_⟩
    rcases List.mem_cons.mp hx with rfl | hx
    · exact (le_max_right _ _).trans hc
    · exact hops x hx

theorem observeOps_dots (ops : List Operation) {vv : VersionVector} (h : vv.Canonical) :
    (observeOps vv ops).Canonical ∧ (∀ d ∈ vv.dots, d ∈ (observeOps vv ops).dots) ∧
      ∀ op ∈ ops, 1 ≤ op.metadata.id.counter.toNat →
        (op.metadata.id.replica, op.metadata.id.counter.toNat) ∈ (observeOps vv ops).dots := by
  induction ops generalizing vv with
  | nil => exact ⟨h, fun _ => id, by simp⟩
  | cons op ops ih =>
    have hmem := VersionVector.mem_dots_observe h op.metadata.id.replica op.metadata.id.counter
    obtain ⟨hcan, hkeep, hnew⟩ := ih (h.observe op.metadata.id.replica op.metadata.id.counter)
    refine ⟨hcan, fun d hd => hkeep d ((hmem d).mpr (Or.inl hd)), fun x hx h1 => ?_⟩
    rcases List.mem_cons.mp hx with rfl | hx
    · exact hkeep _ ((hmem _).mpr (Or.inr ⟨rfl, h1⟩))
    · exact hnew x hx h1

/-- The version vector of a replay bounds the counters of every replica. -/
theorem le_get_observeOps {ops : List Operation} {op : Operation} (hop : op ∈ ops) :
    op.metadata.id.counter.toNat ≤
      ((observeOps .new ops).get op.metadata.id.replica).toNat := by
  obtain ⟨hcan, -, hnew⟩ := observeOps_dots ops VersionVector.Canonical.new
  rcases Nat.eq_zero_or_pos op.metadata.id.counter.toNat with h0 | h1
  · omega
  · exact hcan.le_get (hnew op hop h1)

/-- A replay of a good log leaves a live tree. -/
theorem live_replayFromStorage {t : MemoryTree LamportClock} (hw : t.storage.Wf)
    (hl : ∀ op ∈ t.storage.ops, 0 < op.metadata.lamport) :
    ∃ t', replayFromStorage t = some (.ok (), t') ∧ t'.Live ∧ t'.storage = t.storage := by
  obtain ⟨t', hrun, hst, hrep, hclock, hcounter, hhead, hstores⟩ := replayFromStorage_log hl
  obtain ⟨s, hs, hmod⟩ := exists_forwardAll (sortOps t.storage.ops)
  rw [hstores] at hs
  cases hs
  have hmem : ∀ op ∈ t'.storage.ops, op ∈ sortOps t.storage.ops := fun op hop => by
    rw [hst] at hop
    exact (sortOps_perm _).mem_iff.mpr hop
  refine ⟨t', hrun, ?_, hst⟩
  exact {
    ids := by rw [hst]; exact hw.ids
    distinct := by rw [hst]; exact hw.distinct
    lamport := by rw [hst]; exact hl
    head := by rw [hst]; exact hhead
    counter := fun op hop hr => by
      rw [UInt64.le_iff_toNat_le, hcounter, toNat_max, ← hrep, ← hr]
      exact (le_get_observeOps (hmem op hop)).trans (le_max_right _ _)
    clock := fun op hop => by
      rw [UInt64.le_iff_toNat_le, hclock]
      exact (le_observeLamports _ _).2 op (hmem op hop)
    nodes := by rw [hst]; exact ⟨_, rfl, hmod.1⟩
    payloads := by rw [hst]; exact hmod.2 }

/-! ## Remote operations -/

/-- The in-order path takes an operation of the replica itself, without raising the counter. -/
def Unraised (t : MemoryTree LamportClock) (op : Operation) : Prop :=
  op.metadata.id.replica = t.replicaId ∧ t.counter < op.metadata.id.counter ∧
    op.metadata.id ∉ t.storage.ids ∧ t.isInOrder op

theorem applyRemote_live {t t' : MemoryTree LamportClock} (h : t.Live) {op : Operation}
    (hl : 0 < op.metadata.lamport) (hown : ¬ Unraised t op) {r : Except Error Unit}
    (hrun : applyRemote op t = some (r, t')) : t'.Live := by
  have hclock : (observed op t).clock.counter.toNat =
      max t.clock.counter.toNat op.metadata.lamport.toNat := toNat_max _ _
  rcases applyRemote_cases h.toLogInv op with ⟨hid, hdup⟩ | ⟨hid, hlt, hord⟩ | ⟨hid, -, hrep⟩
  · rw [hdup] at hrun
    cases hrun
    refine h.advance rfl rfl rfl (UInt64.le_refl _) ?_ h.nodes rfl
    rw [UInt64.le_iff_toNat_le, hclock]
    exact le_max_left _ _
  · obtain ⟨snap, s, hop, hnodes, hpayloads⟩ := h.applyForward_newest hid hlt
    rw [hord snap s hop] at hrun
    cases hrun
    refine h.push hid hl hlt rfl rfl rfl ⟨UInt64.le_refl _, fun hr => ?_⟩ ?_ hnodes hpayloads
    · by_contra hc
      exact hown ⟨hr, UInt64.not_le.mp hc, hid, (h.isInOrder_iff op).mpr hlt⟩
    · rw [UInt64.le_iff_toNat_le, UInt64.le_iff_toNat_le]
      show _ ≤ (observed op t).clock.counter.toNat ∧ _ ≤ (observed op t).clock.counter.toNat
      omega
  · have hlog : ({ observed op t with
        storage := t.storage.push op
        head := (sortOps (t.storage.ops ++ [op])).getLast? } : MemoryTree LamportClock).LogInv :=
      h.toLogInv.push hid hl rfl rfl
    obtain ⟨t₁, hrun₁, hlive, -⟩ :=
      live_replayFromStorage (t := { observed op t with storage := t.storage.push op })
        hlog.toWf hlog.lamport
    rw [hrep, hrun₁] at hrun
    cases hrun
    exact hlive

/-- With the counter raised first, every remote operation leaves a live tree. -/
theorem applyRemoteWithDelta_live {t t' : MemoryTree LamportClock} (h : t.Live) {op : Operation}
    (hl : 0 < op.metadata.lamport) {r : Except Error (Option ApplyDelta)}
    (hrun : applyRemoteWithDelta op t = some (r, t')) : t'.Live := by
  have hle : t.counter ≤ (raised op t).counter ∧
      (op.metadata.id.replica = t.replicaId →
        op.metadata.id.counter ≤ (raised op t).counter) := by
    simp only [UInt64.le_iff_toNat_le]
    unfold raised
    split
    · rw [toNat_max]
      exact ⟨le_max_left _ _, fun _ => le_max_right _ _⟩
    · exact ⟨le_refl _, fun hr => absurd hr (by assumption)⟩
  have hsame : (raised op t).storage = t.storage ∧ (raised op t).replicaId = t.replicaId ∧
      (raised op t).clock = t.clock ∧ (raised op t).nodes = t.nodes ∧
      (raised op t).payloads = t.payloads ∧ (raised op t).head = t.head := by
    unfold raised
    split <;> exact ⟨rfl, rfl, rfl, rfl, rfl, rfl⟩
  obtain ⟨hst, hrep, hclock, hnodes, hpayloads, hhead⟩ := hsame
  have hlive : (raised op t).Live :=
    h.advance hst hhead hrep hle.1 (by rw [hclock]; exact UInt64.le_refl _)
      (by rw [hnodes]; exact h.nodes) hpayloads
  have hrun' := applyRemoteWithDelta_eq op t
  rw [bind_run, hrun] at hrun'
  have hown : ¬ Unraised (raised op t) op := fun hu =>
    UInt64.not_lt.mpr (hle.2 (hrep ▸ hu.1)) hu.2.1
  cases r with
  | error e => exact applyRemote_live hlive hl hown hrun'.symm
  | ok d => exact applyRemote_live hlive hl hown hrun'.symm

/-! ## Local operations -/

/-- What a local operation leaves when it returns `Ok(op)`: the id of `op` is not in the log yet,
its key is the greatest, the log has it afterwards, and the stores are the fold of the log in
canonical order. -/
structure TakesEffect (t : MemoryTree LamportClock) (op : Operation)
    (t' : MemoryTree LamportClock) : Prop where
  fresh : ∀ a ∈ t.storage.ops, a.metadata.id ≠ op.metadata.id
  newest : ∀ a ∈ t.storage.ops, cmpOps op a = .gt
  stored : op ∈ t'.storage.ops
  stores : ∃ s, forwardAll (sortOps t'.storage.ops) (MemoryNodeStore.default, {}) =
    some (.ok (), s) ∧ SameReads (t'.nodes, t'.payloads) s

/-- Committing a new operation with the greatest key. -/
theorem commitLocal_live {t t' : MemoryTree LamportClock} (h : t.Live) {op : Operation}
    (hid : op.metadata.id ∉ t.storage.ids) (hl : 0 < op.metadata.lamport)
    (hlt : ∀ a ∈ t.storage.ops, a.key < op.key)
    (hcounter : op.metadata.id.counter ≤ t.counter) (hclock : op.metadata.lamport ≤ t.clock.counter)
    {r : Except Error Operation} (hrun : commitLocal op t = some (r, t')) :
    r = .ok op ∧ t'.Live ∧ t'.storage = t.storage.push op := by
  obtain ⟨snap, s, hop, hnodes, hpayloads⟩ := h.applyForward_newest hid hlt
  set t₁ : MemoryTree LamportClock := { t with
    versionVector := t.versionVector.observe t.replicaId op.metadata.id.counter } with ht₁
  have hst : Storage.apply op t₁.storage = some (.ok true, t.storage.push op) := by
    rw [MemoryStorage.apply_eq, if_neg hid]
  have hkeep := refreshTombstonesUpward_keeps (N := MemoryNodeStore) (E := fun _ => False)
    (r := (docOf (t.storage.ops ++ [op])).rows) (affectedParents snap.parent op.kind ++ [op.kind.node])
  unfold commitLocal at hrun
  rw [modify_bind_run, bind_of_ok (onStorage_run (t := t₁) hst)] at hrun
  simp only [Bool.not_true, Bool.false_eq_true, if_false] at hrun
  rw [bind_of_ok (onStores_run (t := { t₁ with storage := t.storage.push op }) hop)] at hrun
  -- The refresh returns with the same rows, or not at all.
  rcases bind_some hrun with ⟨e, hz, -⟩ | ⟨_, t₂, hz, hrun⟩
  · obtain ⟨n, href, -⟩ := onNodes_some hz
    exact (hkeep s.1 hnodes _ _ href).2.elim
  · obtain ⟨n, href, rfl⟩ := onNodes_some hz
    cases hrun
    exact ⟨rfl, h.push hid hl hlt rfl rfl rfl ⟨UInt64.le_refl _, fun _ => hcounter⟩
      ⟨UInt64.le_refl _, hclock⟩ (hkeep s.1 hnodes _ _ href).1 hpayloads, rfl⟩

/-- The counter and the clock of the replica are below `u64::MAX`. -/
def InRange (t : MemoryTree LamportClock) : Prop :=
  t.counter ≤ 0xFFFFFFFFFFFFFFFE ∧ t.clock.counter ≤ 0xFFFFFFFFFFFFFFFE

instance (t : MemoryTree LamportClock) : Decidable t.InRange := inferInstanceAs (Decidable (_ ∧ _))

private theorem lt_succ {a : UInt64} (h : a ≤ 0xFFFFFFFFFFFFFFFE) :
    (a + 1).toNat = a.toNat + 1 := by
  have h' : a.toNat ≤ 2 ^ 64 - 2 := UInt64.le_iff_toNat_le.mp h
  rw [UInt64.toNat_add]
  exact Nat.mod_eq_of_lt (by rw [UInt64.toNat_one]; omega)

/-- A local operation that returns has failed before its commit, or takes effect. -/
theorem localOp_live {t t' : MemoryTree LamportClock} (h : t.Live) (hin : t.InRange)
    {build : ReplicaId → UInt64 → Lamport → Exec Error MemoryNodeStore Operation}
    (hb : ∀ counter lamport, Keeps (HasRows (docOf t.storage.ops).rows) (fun _ => True)
      (build t.replicaId counter lamport) fun op =>
        op.metadata.id = ⟨t.replicaId, counter⟩ ∧ op.metadata.lamport = lamport)
    {r : Except Error Operation} (hrun : localOp build t = some (r, t')) :
    t'.Live ∧ ∀ op, r = .ok op → TakesEffect t op t' := by
  have hcounter := lt_succ hin.1
  have hclock := lt_succ hin.2
  set t₁ : MemoryTree LamportClock :=
    { t with counter := t.counter + 1, clock := ⟨t.clock.counter + 1⟩ } with ht₁
  have hlive : ∀ n, HasRows (docOf t.storage.ops).rows n →
      Live ({ t₁ with nodes := n } : MemoryTree LamportClock) := fun n hn =>
    h.advance rfl rfl rfl (by rw [UInt64.le_iff_toNat_le, hcounter]; omega)
      (by rw [UInt64.le_iff_toNat_le, hclock]; omega) hn rfl
  have hrun₁ : (onNodes (build t.replicaId (t.counter + 1) (t.clock.counter + 1)) >>= commitLocal)
      t₁ = some (r, t') := hrun
  rcases bind_some hrun₁ with ⟨e, hz, rfl⟩ | ⟨op, t₂, hz, hcommit⟩
  · obtain ⟨n, hn, rfl⟩ := onNodes_some hz
    exact ⟨hlive n (hb _ _ _ h.nodes _ _ hn).1, by simp⟩
  · obtain ⟨n, hn, rfl⟩ := onNodes_some hz
    obtain ⟨hrows, hid, hl⟩ := hb _ _ _ h.nodes _ _ hn
    have hfresh : op.metadata.id ∉ t.storage.ids := fun hmem => by
      obtain ⟨a, ha, he⟩ := List.mem_map.mp ((h.ids _).mp hmem)
      rw [hid] at he
      have hle := h.counter a ha (by rw [he])
      rw [he, UInt64.le_iff_toNat_le] at hle
      simp only [hcounter] at hle
      omega
    have hlt : ∀ a ∈ t.storage.ops, a.key < op.key := fun a ha => by
      have hle := UInt64.le_iff_toNat_le.mp (h.clock a ha)
      refine Prod.Lex.toLex_lt_toLex.mpr (Or.inl ?_)
      simp only [hl, hclock]
      omega
    have hpos : 0 < op.metadata.lamport := by
      rw [UInt64.lt_iff_toNat_lt, hl, hclock, UInt64.toNat_zero]
      omega
    obtain ⟨rfl, hlive', hst⟩ := commitLocal_live (hlive n hrows) hfresh hpos hlt
      (by rw [hid]; exact UInt64.le_refl _) (by rw [hl]; exact UInt64.le_refl _) hcommit
    refine ⟨hlive', fun op' hop' => ?_⟩
    cases hop'
    exact {
      fresh := fun a ha he => hfresh ((h.ids _).mpr (he ▸ List.mem_map_of_mem ha))
      newest := fun a ha => by rw [cmpOps_eq, cmp_eq_gt_iff]; exact hlt a ha
      stored := by rw [hst]; exact List.mem_append_right _ (List.mem_singleton_self op)
      stores := hlive'.stores }

/-! ## Runs -/

/-- A call of the interface of a tree. -/
inductive Call where
  | applyRemote (op : Operation)
  | applyRemoteWithDelta (op : Operation)
  | localInsertAfter (parent node : NodeId) (after : Option NodeId)
  | localInsertAfterWithPayload (parent node : NodeId) (after : Option NodeId) (payload : Bytes)
  | localMoveAfter (node newParent : NodeId) (after : Option NodeId)
  | localDelete (node : NodeId)
  | localSetPayload (node : NodeId) (payload : Bytes)
  | localClearPayload (node : NodeId)

/-- Make a call; a local one returns its operation. -/
def Call.run : Call → Exec Error (MemoryTree LamportClock) (Option Operation)
  | .applyRemote op => do
    TreeCrdt.applyRemote op
    return none
  | .applyRemoteWithDelta op => do
    let _ ← TreeCrdt.applyRemoteWithDelta op
    return none
  | .localInsertAfter parent node after => do
    return some (← TreeCrdt.localInsertAfter parent node after)
  | .localInsertAfterWithPayload parent node after payload => do
    return some (← TreeCrdt.localInsertAfterWithPayload parent node after payload)
  | .localMoveAfter node newParent after => do
    return some (← TreeCrdt.localMoveAfter node newParent after)
  | .localDelete node => do return some (← TreeCrdt.localDelete node)
  | .localSetPayload node payload => do return some (← TreeCrdt.localSetPayload node payload)
  | .localClearPayload node => do return some (← TreeCrdt.localClearPayload node)

/-- Lamport time and counter between 1 and `u64::MAX - 1`. -/
def OpInRange (op : Operation) : Prop :=
  1 ≤ op.metadata.lamport ∧ op.metadata.lamport ≤ 0xFFFFFFFFFFFFFFFE ∧
    1 ≤ op.metadata.id.counter ∧ op.metadata.id.counter ≤ 0xFFFFFFFFFFFFFFFE

def Call.InRange : Call → Prop
  | .applyRemote op => OpInRange op
  | .applyRemoteWithDelta op => OpInRange op
  | _ => True

/-- The call does not take the in-order path of `applyRemote` with an operation of the replica
itself that is beyond its counter. -/
def Call.Raises (t : MemoryTree LamportClock) : Call → Prop
  | .applyRemote op => ¬ Unraised t op
  | _ => True

/-- A new tree over a log, replayed if the log is not empty. -/
def StartsAt (replica : ReplicaId) (storage : MemoryStorage) (clock : LamportClock)
    (t : MemoryTree LamportClock) : Prop :=
  ∃ t₀ : MemoryTree LamportClock, TreeCrdt.new replica storage clock = .ok t₀ ∧
    if storage.ops = [] then t = t₀ else replayFromStorage t₀ = some (.ok (), t)

/-- The trees that calls in range make of `start`, where every call meets `P`. -/
inductive Run (P : MemoryTree LamportClock → Call → Prop) (start : MemoryTree LamportClock) :
    MemoryTree LamportClock → Prop
  | start : Run P start start
  | call {t t' c r} : Run P start t → t.InRange → c.InRange → P t c → c.run t = some (r, t') →
      Run P start t'

theorem live_start {replica : ReplicaId} {storage : MemoryStorage} {clock : LamportClock}
    {t : MemoryTree LamportClock} (hw : storage.Wf) (hin : ∀ op ∈ storage.ops, OpInRange op)
    (h : StartsAt replica storage clock t) : t.Live := by
  obtain ⟨t₀, hnew, hreplay⟩ := h
  cases hnew
  split at hreplay
  · rename_i hnil
    subst hreplay
    have hdoc : docOf storage.ops = Doc.initial := by
      rw [hnil, docOf, sortOps_nil]
      rfl
    refine ⟨⟨hw, ?_, ?_⟩, ?_, ?_, ?_, ?_⟩
    · simp [hnil]
    · simp [hnil]
    · simp [hnil]
    · simp [hnil]
    · simp only [hdoc]
      exact ⟨_, rfl, initial_models.1⟩
    · simp only [hdoc]
      exact initial_models.2
  · obtain ⟨t', hrun, hlive, -⟩ := live_replayFromStorage
      (t := ⟨replica, storage, _, _, MemoryNodeStore.default, _, {}, none, 0⟩) hw fun op hop => by
        have := UInt64.le_iff_toNat_le.mp (hin op hop).1
        rw [UInt64.lt_iff_toNat_lt]
        exact this
    rw [hrun] at hreplay
    cases hreplay
    exact hlive

/-- A local call is its operation. -/
private theorem some_localOp_live {t t' : MemoryTree LamportClock} (h : t.Live) (hin : t.InRange)
    {build : ReplicaId → UInt64 → Lamport → Exec Error MemoryNodeStore Operation}
    (hb : ∀ counter lamport, Keeps (HasRows (docOf t.storage.ops).rows) (fun _ => True)
      (build t.replicaId counter lamport) fun op =>
        op.metadata.id = ⟨t.replicaId, counter⟩ ∧ op.metadata.lamport = lamport)
    {r : Except Error (Option Operation)}
    (hrun : (do return some (← localOp build) : Exec Error (MemoryTree LamportClock) _) t =
      some (r, t')) : t'.Live ∧ ∀ op, r = .ok (some op) → TakesEffect t op t' := by
  rcases bind_some hrun with ⟨e, hc, rfl⟩ | ⟨op, t₁, hc, hret⟩
  · exact ⟨(localOp_live h hin hb hc).1, by simp⟩
  · cases hret
    obtain ⟨hlive, heff⟩ := localOp_live h hin hb hc
    refine ⟨hlive, fun op' he => ?_⟩
    cases he
    exact heff op rfl

/-- Every call keeps a tree live, and a local one takes effect. -/
theorem Call.run_live {t t' : MemoryTree LamportClock} {c : Call} (h : t.Live) (hin : t.InRange)
    (hc : c.InRange) (hraises : c.Raises t) {r : Except Error (Option Operation)}
    (hrun : c.run t = some (r, t')) :
    t'.Live ∧ ∀ op, r = .ok (some op) → TakesEffect t op t' := by
  have hkey := fun parent node after seed =>
    allocateChildKeyAfter_keeps (N := MemoryNodeStore) (r := (docOf t.storage.ops).rows) parent node
      after seed
  have hpos : ∀ {op : Operation}, OpInRange op → 0 < op.metadata.lamport := fun hop =>
    UInt64.lt_iff_toNat_lt.mpr (UInt64.le_iff_toNat_le.mp hop.1)
  cases c with
  | applyRemote op =>
    rcases bind_some hrun with ⟨e, hc', rfl⟩ | ⟨_, t₁, hc', hret⟩
    · exact ⟨applyRemote_live h (hpos hc) hraises hc', by simp⟩
    · cases hret
      exact ⟨applyRemote_live h (hpos hc) hraises hc', by simp⟩
  | applyRemoteWithDelta op =>
    rcases bind_some hrun with ⟨e, hc', rfl⟩ | ⟨_, t₁, hc', hret⟩
    · exact ⟨applyRemoteWithDelta_live h (hpos hc) hc', by simp⟩
    · cases hret
      exact ⟨applyRemoteWithDelta_live h (hpos hc) hc', by simp⟩
  | localInsertAfter parent node after =>
    exact some_localOp_live h hin
      (fun _ _ => (hkey _ _ _ _).bind fun _ _ => Keeps.pure ⟨rfl, rfl⟩) hrun
  | localInsertAfterWithPayload parent node after payload =>
    exact some_localOp_live h hin
      (fun _ _ => (hkey _ _ _ _).bind fun _ _ => Keeps.pure ⟨rfl, rfl⟩) hrun
  | localMoveAfter node newParent after =>
    exact some_localOp_live h hin
      (fun _ _ => (hkey _ _ _ _).bind fun _ _ => Keeps.pure ⟨rfl, rfl⟩) hrun
  | localDelete node =>
    exact some_localOp_live h hin
      (fun _ _ => (subtreeVersionVector_keeps node).bind fun _ _ => Keeps.pure ⟨rfl, rfl⟩) hrun
  | localSetPayload node payload =>
    exact some_localOp_live h hin (fun _ _ => Keeps.pure ⟨rfl, rfl⟩) hrun
  | localClearPayload node =>
    exact some_localOp_live h hin (fun _ _ => Keeps.pure ⟨rfl, rfl⟩) hrun

theorem Run.live {start t : MemoryTree LamportClock} (h : Run (fun t c => c.Raises t) start t)
    (hstart : start.Live) : t.Live := by
  induction h with
  | start => exact hstart
  | call _ hin hc hraises hrun ih => exact (Call.run_live ih hin hc hraises hrun).1

/-- **Local commit.** In every run whose `applyRemote` calls never take the in-order path with an
operation of the replica itself beyond its counter, every local operation takes effect. -/
theorem localOperation_takesEffect {replica : ReplicaId} {storage : MemoryStorage}
    {clock : LamportClock} {start t t' : MemoryTree LamportClock} (hw : storage.Wf)
    (hops : ∀ op ∈ storage.ops, OpInRange op) (hstart : StartsAt replica storage clock start)
    (hrun : Run (fun t c => c.Raises t) start t) (hin : t.InRange) {c : Call} (hc : c.InRange)
    (hraises : c.Raises t) {op : Operation} (hcall : c.run t = some (.ok (some op), t')) :
    TakesEffect t op t' :=
  (Call.run_live (hrun.live (live_start hw hops hstart)) hin hc hraises hcall).2 op rfl

/-- The payload operation that a device minted before and downloads again. -/
def redownloaded : Operation := .setPayload ⟨[1]⟩ 1 1 ⟨5⟩ [7]

private theorem redownloaded_inRange : OpInRange redownloaded := by
  unfold OpInRange
  decide

/-- The tree after a call. -/
def after (c : Call) (t : MemoryTree LamportClock) : MemoryTree LamportClock :=
  match c.run t with
  | some (_, t') => t'
  | none => t

def freshTree : MemoryTree LamportClock :=
  ⟨⟨[1]⟩, {}, ⟨0⟩, 0, MemoryNodeStore.default, .new, {}, none, 0⟩

/-- A device downloads an operation of its own with `applyRemoteWithDelta`, then mints another. -/
theorem localOperation_takesEffect_redownload :
    let t := after (.applyRemoteWithDelta redownloaded) freshTree
    TakesEffect t (.setPayload ⟨[1]⟩ 2 2 ⟨5⟩ [8]) (after (.localSetPayload ⟨5⟩ [8]) t) := by
  have hrun : Run (fun t c => c.Raises t) freshTree (after (.applyRemoteWithDelta redownloaded) freshTree) :=
    .call (c := .applyRemoteWithDelta redownloaded) (r := .ok none) .start (by decide)
      redownloaded_inRange trivial rfl
  have hstart : StartsAt ⟨[1]⟩ {} {} freshTree := ⟨_, rfl, rfl⟩
  exact localOperation_takesEffect MemoryStorage.Wf.default (by simp) hstart hrun (by decide)
    (c := .localSetPayload ⟨5⟩ [8]) trivial trivial rfl

/-- The same download with `applyRemote`: the next local operation gets the id of the download. -/
theorem localOperation_loses_redownload :
    ∃ start t t' op, StartsAt ⟨[1]⟩ {} {} start ∧ Run (fun _ _ => True) start t ∧ t.InRange ∧
      (Call.localSetPayload ⟨5⟩ [8]).run t = some (.ok (some op), t') ∧
      ¬ TakesEffect t op t' := by
  refine ⟨freshTree, after (.applyRemote redownloaded) freshTree, _, .setPayload ⟨[1]⟩ 1 2 ⟨5⟩ [8],
    ⟨_, rfl, rfl⟩, ?_, by decide, rfl, fun h => ?_⟩
  · exact .call (c := .applyRemote redownloaded) (r := .ok none) .start (by decide) redownloaded_inRange
      trivial rfl
  · exact h.fresh redownloaded (by decide) rfl

end TreeCrdt

end Treecrdt
