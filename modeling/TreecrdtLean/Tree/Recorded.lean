import TreecrdtLean.Core.Materialize

/-!
# What the derived state of an adapter mentions

The payload store names the last writers of the payloads, and the index the operations of its
records. `Recorded known` is what keeps both of them, and the log, among the operations that are
`known`; every way to materialize does then (`applyIncrementalOpsWithDelta_keeps`,
`replayFromStorageWithMaterialization_keeps`, `finalizeLocalWithPlan_keeps`), also where it fails.
-/

namespace Treecrdt

open Exec

variable {S C N P I : Type} [Storage S] [PayloadStore P] [ParentOpIndex I]

/-- The payload store is left alone. -/
theorem onNodeStore_keeps {N P α : Type} {H : P → Prop} (c : Exec Error N α) :
    Keeps (fun s : N × P => H s.2) (fun _ => True) (onNodeStore c) fun _ => True :=
  (Keeps.any c).zoom (fun _ _ => trivial) fun _ _ hs _ => hs

/-- An invariant of each of the log (`J`), the payload store (`H`) and the index (`G`). -/
structure Recorded (known : OperationId → Prop) (J : S → Prop) (H : P → Prop) (G : I → Prop) :
    Prop where
  scan : ∀ s lamport, J s → ∀ op, .ok op ∈ Storage.scanSince s lamport → known op.metadata.id
  apply : ∀ op, known op.metadata.id →
    Keeps J (fun _ => True) (Storage.apply op : Exec Error S Bool) fun _ => True
  resetPayloads : Keeps H (fun _ => True) (PayloadStore.reset : Exec Error P Unit) fun _ => True
  lastWriter : ∀ node, Keeps H (fun _ => True)
    (PayloadStore.lastWriter node : Exec Error P (Option (Lamport × OperationId)))
    fun writer => ∀ w ∈ writer, known w.2
  setPayload : ∀ node payload w, known w.2 → Keeps H (fun _ => True)
    (PayloadStore.setPayload node payload w : Exec Error P Unit) fun _ => True
  resetIndex : Keeps G (fun _ => True) (ParentOpIndex.reset : Exec Error I Unit) fun _ => True
  record : ∀ parent id seq, known id → Keeps G (fun _ => True)
    (ParentOpIndex.record parent id seq : Exec Error I Unit) fun _ => True

namespace Recorded

variable {known : OperationId → Prop} {J : S → Prop} {H : P → Prop} {G : I → Prop}
  (h : Recorded known J H G)
include h

/-- The invariants of a tree and its index. -/
abbrev Inv (_ : Recorded known J H G) (s : TreeCrdt S C N P × I) : Prop :=
  J s.1.storage ∧ H s.1.payloads ∧ G s.2

/-- The invariants of a tree. -/
abbrev TreeInv (_ : Recorded known J H G) (t : TreeCrdt S C N P) : Prop :=
  J t.storage ∧ H t.payloads

variable {α : Type} {Q : α → Prop}

/-! ## Parts of the state -/

theorem onTree_keeps {c : Exec Error (TreeCrdt S C N P) α}
    (hc : Keeps h.TreeInv (fun _ => True) c Q) :
    Keeps h.Inv (fun _ => True) (TreeCrdt.onTree c) Q :=
  hc.zoom (fun _ hs => ⟨hs.1, hs.2.1⟩) fun _ _ hs ht => ⟨ht.1, ht.2, hs.2.2⟩

theorem onIndex_keeps {c : Exec Error I α} (hc : Keeps G (fun _ => True) c Q) :
    Keeps (h.Inv (C := C) (N := N)) (fun _ => True) (TreeCrdt.onIndex c) Q :=
  hc.zoom (fun _ hs => hs.2.2) fun _ _ hs hi => ⟨hs.1, hs.2.1, hi⟩

theorem onStorage_keeps {c : Exec Error S α} (hc : Keeps J (fun _ => True) c Q) :
    Keeps (h.TreeInv (C := C) (N := N)) (fun _ => True) (TreeCrdt.onStorage c) Q :=
  hc.zoom (fun _ ht => ht.1) fun _ _ ht hs => ⟨hs, ht.2⟩

theorem onPayloads_keeps {c : Exec Error P α} (hc : Keeps H (fun _ => True) c Q) :
    Keeps (h.TreeInv (C := C) (N := N)) (fun _ => True) (TreeCrdt.onPayloads c) Q :=
  hc.zoom (fun _ ht => ht.2) fun _ _ ht hp => ⟨ht.1, hp⟩

theorem onNodes_keeps (c : Exec Error N α) :
    Keeps (h.TreeInv (C := C)) (fun _ => True) (TreeCrdt.onNodes c) fun _ => True :=
  (Keeps.any c).zoom (fun _ _ => trivial) fun _ _ ht _ => ht

theorem onStores_keeps {c : Exec Error (N × P) α}
    (hc : Keeps (fun s => H s.2) (fun _ => True) c Q) :
    Keeps (h.TreeInv (C := C)) (fun _ => True) (TreeCrdt.onStores c) Q :=
  hc.zoom (fun _ ht => ht.2) fun _ _ ht hs => ⟨ht.1, hs⟩

theorem modify_keeps {f : TreeCrdt S C N P → TreeCrdt S C N P}
    (hstorage : ∀ t, (f t).storage = t.storage) (hpayloads : ∀ t, (f t).payloads = t.payloads) :
    Keeps h.TreeInv (fun _ => True) (modify f : Exec Error _ Unit) fun _ => True :=
  Keeps.modify fun t ht => ⟨hstorage t ▸ ht.1, hpayloads t ▸ ht.2⟩

theorem scanSince_keeps : Keeps (h.TreeInv (C := C) (N := N)) (fun _ => True)
    (gets fun t => Storage.scanSince t.storage 0 : Exec Error _ _)
    fun rows => ∀ op, .ok op ∈ rows → known op.metadata.id :=
  Keeps.gets fun t ht => h.scan t.storage 0 ht.1

/-! ## Records -/

theorem recordParents_keeps (parents : List NodeId) {id : OperationId} (hid : known id)
    (seq : UInt64) :
    Keeps G (fun _ => True) (TreeCrdt.recordParents parents id seq) fun _ => True :=
  Keeps.forEach fun parent _ => h.record parent id seq hid

theorem recordPayloadWriter_keeps (parent node : NodeId) (seq : UInt64) :
    Keeps (h.Inv (C := C) (N := N)) (fun _ => True) (TreeCrdt.recordPayloadWriter parent node seq)
      fun _ => True := by
  refine (h.onTree_keeps (h.onPayloads_keeps (h.lastWriter node))).bind fun writer hwriter => ?_
  cases writer with
  | none => exact Keeps.pure trivial
  | some w => exact h.onIndex_keeps (h.record parent w.2 seq (hwriter w rfl))

/-! ## One operation -/

variable [NodeStore N]

theorem applyPayload_keeps {op : Operation} (hop : known op.metadata.id) (node : NodeId)
    (payload : Option Bytes) :
    Keeps (fun s : N × P => H s.2) (fun _ => True) (applyPayload op node payload)
      fun _ => True := by
  have onPayloads : ∀ {α : Type} {c : Exec Error P α} {Q : α → Prop},
      Keeps H (fun _ => True) c Q →
      Keeps (fun s : N × P => H s.2) (fun _ => True) (onPayloadStore c) Q :=
    fun hc => hc.zoom (fun _ hs => hs) fun _ _ _ hp => hp
  refine (onNodeStore_keeps _).bind fun _ _ => (onPayloads (h.lastWriter node)).bind
    fun writer _ => ?_
  split
  · exact Keeps.pure trivial
  · exact (onPayloads (h.setPayload node payload _ hop)).bind fun _ _ => onNodeStore_keeps _

theorem applyForward_keeps {op : Operation} (hop : known op.metadata.id) :
    Keeps (fun s : N × P => H s.2) (fun _ => True) (applyForward op) fun _ => True := by
  refine (onNodeStore_keeps _).bind fun snap _ => ?_
  cases op.kind with
  | insert parent node orderKey payload =>
    refine (onNodeStore_keeps _).bind fun _ _ => ?_
    split
    · exact (h.applyPayload_keeps hop node payload).bind fun _ _ => Keeps.pure trivial
    · exact Keeps.pure trivial
  | payload node payload =>
    exact (h.applyPayload_keeps hop node payload).bind fun _ _ => Keeps.pure trivial
  | move | delete | tombstone => exact (onNodeStore_keeps _).bind fun _ _ => Keeps.pure trivial

theorem indexPayload_keeps (seq : UInt64) (node : NodeId) :
    Keeps (h.Inv (C := C) (N := N)) (fun _ => True) (TreeCrdt.indexPayload seq node)
      fun _ => True := by
  unfold TreeCrdt.indexPayload
  split
  · exact Keeps.pure trivial
  refine (h.onTree_keeps (h.onNodes_keeps _)).bind fun parent _ => ?_
  cases parent with
  | none => exact Keeps.pure trivial
  | some parent =>
    dsimp only
    split
    · exact Keeps.pure trivial
    · exact h.recordPayloadWriter_keeps parent node seq

theorem finalizeLocalWithPlan_keeps {op : Operation} (hop : known op.metadata.id)
    (headSeq : UInt64) {plan : LocalFinalizePlan}
    (hplan : ∀ e ∈ plan.extraIndexRecords, known e.2) :
    Keeps (h.Inv (C := C) (N := N)) (fun _ => True)
      (TreeCrdt.finalizeLocalWithPlan op headSeq plan) fun _ => True := by
  refine Keeps.bind (Q := fun _ => True) ?_ fun _ _ => Keeps.pure trivial
  refine (h.onTree_keeps (h.onNodes_keeps _)).bind fun _ _ => ?_
  refine (h.onIndex_keeps (h.recordParents_keeps _ hop _)).bind fun _ _ => ?_
  refine h.onIndex_keeps (Keeps.forEach fun e he => ?_)
  exact h.record e.1 e.2 _ (hplan e (List.mem_of_mem_filter he))

theorem commitLocal_keeps {op : Operation} (hop : known op.metadata.id) :
    Keeps (h.TreeInv (C := C) (N := N)) (fun _ => True) (TreeCrdt.commitLocal op)
      fun _ => True := by
  refine Keeps.bind (h.modify_keeps (fun _ => rfl) fun _ => rfl) fun _ _ => ?_
  refine (h.onStorage_keeps (h.apply op hop)).bind fun added _ => ?_
  split
  · exact Keeps.pure trivial
  refine (h.onStores_keeps (h.applyForward_keeps hop)).bind fun _ _ => ?_
  refine (h.onNodes_keeps _).bind fun _ _ => ?_
  exact Keeps.bind (h.modify_keeps (fun _ => rfl) fun _ => rfl) fun _ _ => Keeps.pure trivial

/-! ## The tree -/

variable [Clock C]

theorem replayRows_keeps {rows : List (Except Error Operation)}
    (hrows : ∀ op, .ok op ∈ rows → known op.metadata.id) (head : Option Operation) (seq : UInt64) :
    Keeps (h.TreeInv (C := C) (N := N)) (fun _ => True) (TreeCrdt.replayRows rows head seq)
      fun _ => True := by
  induction rows generalizing head seq with
  | nil => exact Keeps.pure trivial
  | cons row rows ih =>
    cases row with
    | error e => exact Keeps.throw trivial
    | ok op =>
      refine Keeps.bind (h.modify_keeps (fun _ => rfl) fun _ => rfl) fun _ _ => ?_
      refine (h.onStores_keeps (h.applyForward_keeps (hrows op List.mem_cons_self))).bind
        fun _ _ => ?_
      exact ih (fun op hop => hrows op (List.mem_cons_of_mem _ hop)) _ _

theorem replayFromStorage_keeps :
    Keeps (h.TreeInv (C := C) (N := N)) (fun _ => True) TreeCrdt.replayFromStorage
      fun _ => True := by
  refine Keeps.bind (h.modify_keeps (fun _ => rfl) fun _ => rfl) fun _ _ => ?_
  refine (h.onNodes_keeps _).bind fun _ _ => ?_
  refine (h.onPayloads_keeps h.resetPayloads).bind fun _ _ => ?_
  refine Keeps.bind (h.modify_keeps (fun _ => rfl) fun _ => rfl) fun _ _ => ?_
  refine h.scanSince_keeps.bind fun rows hrows => ?_
  refine (h.replayRows_keeps hrows none 0).bind fun _ _ => ?_
  refine Keeps.bind (h.modify_keeps (fun _ => rfl) fun _ => rfl) fun _ _ => ?_
  exact h.modify_keeps (fun _ => rfl) fun _ => rfl

theorem applyRemoteWithDelta_keeps {op : Operation} (hop : known op.metadata.id) :
    Keeps (h.TreeInv (C := C) (N := N)) (fun _ => True) (TreeCrdt.applyRemoteWithDelta op)
      fun _ => True := by
  have hraised : ∀ t : TreeCrdt S C N P,
      (TreeCrdt.raised op t).storage = t.storage ∧ (TreeCrdt.raised op t).payloads = t.payloads := by
    intro t
    unfold TreeCrdt.raised
    split <;> exact ⟨rfl, rfl⟩
  refine Keeps.bind (h.modify_keeps (fun _ => rfl) fun _ => rfl) fun _ _ => ?_
  refine Keeps.bind (h.modify_keeps (fun t => (hraised t).1) fun t => (hraised t).2) fun _ _ => ?_
  refine (h.onStorage_keeps (h.apply op hop)).bind fun added _ => ?_
  split
  · exact Keeps.pure trivial
  refine (Keeps.gets (Q := fun _ => True) fun _ _ => trivial).bind fun inOrder _ => ?_
  split
  · refine (h.onStores_keeps (h.applyForward_keeps hop)).bind fun _ _ => ?_
    exact Keeps.bind (h.modify_keeps (fun _ => rfl) fun _ => rfl) fun _ _ => Keeps.pure trivial
  · exact h.replayFromStorage_keeps.bind fun _ _ => Keeps.pure trivial

/-! ## The index -/

theorem applyRemoteWithMaterialization_keeps {op : Operation} (hop : known op.metadata.id)
    (seq : UInt64) :
    Keeps (h.Inv (C := C) (N := N)) (fun _ => True)
      (TreeCrdt.applyRemoteWithMaterialization op seq) fun _ => True := by
  refine (h.onTree_keeps (h.applyRemoteWithDelta_keeps hop)).bind fun delta _ => ?_
  cases delta with
  | none => exact Keeps.pure trivial
  | some delta =>
    refine (h.onIndex_keeps (h.recordParents_keeps _ hop seq)).bind fun _ _ => ?_
    have hrest : ∀ nodes : List NodeId, Keeps (h.Inv (C := C) (N := N)) (fun _ => True)
        (TreeCrdt.onTree (TreeCrdt.onNodes (TreeCrdt.refreshTombstonesUpwardWithDelta nodes)))
        fun _ => True := fun nodes => h.onTree_keeps (h.onNodes_keeps _)
    cases op.kind.parentAfter with
    | none => exact (hrest _).bind fun _ _ => Keeps.pure trivial
    | some parentAfter =>
      dsimp only
      split
      · refine (h.recordPayloadWriter_keeps _ _ _).bind fun _ _ => ?_
        exact (hrest _).bind fun _ _ => Keeps.pure trivial
      · exact (hrest _).bind fun _ _ => Keeps.pure trivial

theorem applyEach_keeps {ops : List Operation} (hops : ∀ op ∈ ops, known op.metadata.id)
    (seq : UInt64) (affected : List NodeId) :
    Keeps (h.Inv (C := C) (N := N)) (fun _ => True) (TreeCrdt.applyEach ops seq affected)
      fun _ => True := by
  induction ops generalizing seq affected with
  | nil => exact Keeps.pure trivial
  | cons op ops ih =>
    rw [List.forall_mem_cons] at hops
    refine Keeps.bind (Q := fun _ => True) ?_ fun _ _ => ih hops.2 _ _
    exact (h.applyRemoteWithMaterialization_keeps hops.1 _).bind fun _ _ => Keeps.pure trivial

theorem applyIncrementalOpsWithDelta_keeps (cursor : TreeMeta) {ops : List Operation}
    (hops : ∀ op ∈ ops, known op.metadata.id) :
    Keeps (h.Inv (C := C) (N := N)) (fun _ => True)
      (TreeCrdt.applyIncrementalOpsWithDelta cursor ops) fun _ => True := by
  have hsorted : ∀ op ∈ sortOps ops, known op.metadata.id := fun op hop =>
    hops op ((sortOps_perm ops).mem_iff.mp hop)
  unfold TreeCrdt.applyIncrementalOpsWithDelta
  split_ifs
  · exact Keeps.pure trivial
  · exact Keeps.throw trivial
  · exact Keeps.throw trivial
  refine (h.applyEach_keeps hsorted _ _).bind fun _ _ => ?_
  refine (h.onTree_keeps (Keeps.gets (Q := fun _ => True) fun _ _ => trivial)).bind fun last _ => ?_
  cases last with
  | none => exact Keeps.throw trivial
  | some last => exact Keeps.pure trivial

theorem indexRows_keeps {rows : List (Except Error Operation)}
    (hrows : ∀ op, .ok op ∈ rows → known op.metadata.id) (head : Option Operation) (seq : UInt64) :
    Keeps (h.Inv (C := C) (N := N)) (fun _ => True) (TreeCrdt.indexRows rows head seq)
      fun _ => True := by
  induction rows generalizing head seq with
  | nil => exact Keeps.pure trivial
  | cons row rows ih =>
    cases row with
    | error e => exact Keeps.throw trivial
    | ok op =>
      have hop := hrows op List.mem_cons_self
      refine Keeps.bind (h.onTree_keeps (h.modify_keeps (fun _ => rfl) fun _ => rfl)) fun _ _ => ?_
      refine (h.onTree_keeps (h.onStores_keeps (h.applyForward_keeps hop))).bind fun snap _ => ?_
      refine (h.onIndex_keeps (h.recordParents_keeps _ hop _)).bind fun _ _ => ?_
      exact ih (fun op hop => hrows op (List.mem_cons_of_mem _ hop)) _ _

theorem replayFromStorageWithMaterialization_keeps :
    Keeps (h.Inv (C := C) (N := N)) (fun _ => True)
      TreeCrdt.replayFromStorageWithMaterialization fun _ => True := by
  have hmodify : ∀ f : TreeCrdt S C N P → TreeCrdt S C N P, (∀ t, (f t).storage = t.storage) →
      (∀ t, (f t).payloads = t.payloads) →
      Keeps h.Inv (fun _ => True) (TreeCrdt.onTree (modify f)) fun _ => True :=
    fun f hs hp => h.onTree_keeps (h.modify_keeps hs hp)
  refine (h.onIndex_keeps h.resetIndex).bind fun _ _ => ?_
  refine Keeps.bind (hmodify _ (fun _ => rfl) fun _ => rfl) fun _ _ => ?_
  refine (h.onTree_keeps (h.onNodes_keeps _)).bind fun _ _ => ?_
  refine (h.onTree_keeps (h.onPayloads_keeps h.resetPayloads)).bind fun _ _ => ?_
  refine Keeps.bind (hmodify _ (fun _ => rfl) fun _ => rfl) fun _ _ => ?_
  refine (h.onTree_keeps h.scanSince_keeps).bind fun rows hrows => ?_
  refine (h.indexRows_keeps hrows none 0).bind fun last _ => ?_
  refine Keeps.bind (hmodify _ (fun _ => rfl) fun _ => rfl) fun _ _ => ?_
  refine Keeps.bind (hmodify _ (fun _ => rfl) fun _ => rfl) fun _ _ => ?_
  refine (h.onTree_keeps (h.onNodes_keeps _)).bind fun _ _ => ?_
  refine (h.onTree_keeps (h.onNodes_keeps _)).bind fun nodes _ => ?_
  exact Keeps.forEach fun node _ => h.indexPayload_keeps _ node

end Recorded

/-! ## What a local operation leaves -/

namespace TreeCrdt

variable [NodeStore N] {t t' : TreeCrdt S C N P} {op : Operation}

/-- A commit ends with the log that took the operation, or had it. -/
theorem commitLocal_ok {op' : Operation} (h : commitLocal op t = some (.ok op', t')) :
    op' = op ∧ ∃ added, Storage.apply op t.storage = some (.ok added, t'.storage) := by
  obtain ⟨_, t₀, hmodify, h⟩ := bind_ok h
  cases hmodify
  obtain ⟨added, t₁, hstorage, h⟩ := bind_ok h
  obtain ⟨s, happly, rfl⟩ := zoom_some hstorage
  split at h
  · cases h
    exact ⟨rfl, added, happly⟩
  obtain ⟨snap, t₂, hstores, h⟩ := bind_ok h
  obtain ⟨stores, -, rfl⟩ := zoom_some hstores
  obtain ⟨_, t₃, hnodes, h⟩ := bind_ok h
  obtain ⟨nodes, -, rfl⟩ := zoom_some hnodes
  cases h
  exact ⟨rfl, added, happly⟩

/-- A local operation commits on top of the same log and payloads. -/
theorem localOp_ok [Clock C] {build : ReplicaId → UInt64 → Lamport → Exec Error N Operation}
    (h : localOp build t = some (.ok op, t')) :
    ∃ t₀, t₀.storage = t.storage ∧ t₀.payloads = t.payloads ∧
      commitLocal op t₀ = some (.ok op, t') := by
  obtain ⟨replica, t₁, hreplica, h⟩ := bind_ok h
  cases hreplica
  obtain ⟨counter, t₂, hcounter, h⟩ := bind_ok h
  cases hcounter
  obtain ⟨lamport, t₃, htick, h⟩ := bind_ok h
  cases htick
  obtain ⟨op', t₄, hnodes, h⟩ := bind_ok h
  obtain ⟨nodes, -, rfl⟩ := zoom_some hnodes
  obtain rfl := (commitLocal_ok h).1
  refine ⟨_, ?_, ?_, h⟩ <;> rfl

end TreeCrdt

end Treecrdt
