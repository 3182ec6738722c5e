import TreecrdtLean.Spec.Refresh
import TreecrdtLean.Tree.Flags

/-!
# Local calls that fail

A local operation mints its id before it looks for a place: the seed of the key holds the counter.
When there is no place (`after` is no child, no key lies between its neighbours), or the log fails,
the call has moved the counter and the clock on by one, and left the stores and the head alone
(`LocalCall.Failed`). Nothing fails behind the log: in a state that calls have reached, the parents
are a forest, so the operation applies, and the refresh only writes flags.
-/

namespace Treecrdt

open Exec Forest

namespace TreeCrdt

variable {S C I α : Type} {E : Error → Prop} {r : Rows}

/-! ## The stores along any run -/

/-- The stores stand for a document whose parents are a forest. -/
def Forested (t : StoreTree S C) : Prop := OnDocs (fun d => Acyclic d.rows.up) t

theorem Forested.withNodes {t : StoreTree S C} {n : MemoryNodeStore} (h : Forested t)
    (hn : ∀ r, Acyclic r.up → HasRows r t.nodes → ∃ r', Acyclic r'.up ∧ HasRows r' n) :
    Forested { t with nodes := n } := by
  obtain ⟨d, hd, hm⟩ := h
  obtain ⟨r, hr, ⟨rows, f⟩, rfl, hmodels⟩ := hn d.rows hd ⟨(d.rows, d.flags), rfl, hm.1⟩
  exact ⟨{ d with rows, flags := f }, hr, hmodels, hm.2⟩

/-- A method of the nodes that writes flags only. -/
theorem forested_onNodes {c : Exec Error MemoryNodeStore α} {Q : α → Prop}
    (h : ∀ r, Keeps (HasRows r) E c Q) :
    Keeps (Forested (S := S) (C := C)) E (onNodes c) Q := by
  intro t ht res t' hrun
  obtain ⟨n, hc, rfl⟩ := onNodes_some hrun
  obtain ⟨d, hd, hm⟩ := id ht
  have hres := (h d.rows t.nodes ⟨(d.rows, d.flags), rfl, hm.1⟩ _ _ hc).2
  exact ⟨ht.withNodes fun r hr hrows => ⟨r, hr, (h r t.nodes hrows _ _ hc).1⟩, hres⟩

theorem Reads.keeps {c : Exec Error MemoryNodeStore α} (h : Reads c) :
    Keeps (HasRows r) (fun _ => True) c fun _ => True := by
  intro s hs res s' hrun
  obtain ⟨rfl, hres⟩ := h s s rfl res s' hrun
  exact ⟨hs, hres⟩

/-- A write of the other fields of the tree. -/
theorem forested_modify_bind {β : Type} {f : StoreTree S C → StoreTree S C}
    {g : Unit → Exec Error (StoreTree S C) β} {Q : β → Prop}
    (hf : ∀ t, (f t).nodes = t.nodes ∧ (f t).payloads = t.payloads)
    (hg : Keeps Forested E (g ()) Q) : Keeps Forested E (modify f >>= g) Q :=
  (OnDocs.modify hf).bind fun _ _ => hg

theorem forested_applyForward (op : Operation) :
    Keeps (Forested (S := S) (C := C)) E (onStores (applyForward op)) fun _ => True :=
  OnDocs.onStores fun _ hd => ⟨_, Doc.acyclic_apply hd _ op,
    (applyForward_runs hd op).imp fun _ _ => trivial⟩

theorem forested_resetNodes :
    Keeps (Forested (S := S) (C := C)) E (onNodes NodeStore.reset) fun _ => True := by
  intro t ht res t' hrun
  cases hrun
  exact ⟨ht.withNodes fun _ _ _ =>
    ⟨Rows.initial, Doc.acyclic_initial, _, rfl, MemoryNodeStore.default_models⟩, trivial⟩

theorem forested_resetPayloads :
    Keeps (Forested (S := S) (C := C)) E (onPayloads PayloadStore.reset) fun _ => True := by
  rintro t ⟨d, hd, hm⟩ res t' hrun
  cases hrun
  exact ⟨⟨{ d with payloads := fun _ => {} }, hd, hm.1, MemoryPayloadStore.default_models⟩, trivial⟩

/-! ### The flags of a replay -/

theorem subtreeVvAt_reads (depth : ℕ) (visiting : List NodeId)
    (cache : List (NodeId × VersionVector)) (n : NodeId) :
    Reads (subtreeVvAt depth visiting cache n : Exec Error MemoryNodeStore _) := by
  intro s
  induction depth generalizing visiting cache n with
  | zero => exact Keeps.diverge
  | succ depth ih =>
    unfold subtreeVvAt
    split
    · exact Keeps.pure trivial
    split
    · exact Keeps.bind (Q := fun _ => False) (Keeps.throw trivial) fun _ h => h.elim
    refine (Reads.getState n s).bind fun vv _ => ?_
    refine (Reads.getState n s).bind fun children _ => ?_
    refine Keeps.bind (Q := fun _ => True) (Keeps.foldlM (fun c acc _ => ?_) trivial) fun _ _ =>
      Keeps.pure trivial
    exact (ih _ _ c).bind fun _ _ => Keeps.pure trivial

theorem tombstoneUpdates_reads (nodes : List NodeId) (cache : List (NodeId × VersionVector)) :
    Reads (tombstoneUpdates nodes cache : Exec Error MemoryNodeStore _) := by
  intro s
  induction nodes generalizing cache with
  | nil => exact Keeps.pure trivial
  | cons n nodes ih =>
    unfold tombstoneUpdates
    split
    · exact ih cache
    refine (Reads.getState n s).bind fun deleted _ => ?_
    cases deleted with
    | none => exact ih cache
    | some deletedVv =>
      refine (subtreeVvAt_reads walkLimit [] cache n s).bind fun x _ => ?_
      exact (ih x.2).bind fun _ _ => Keeps.pure trivial

theorem setTombstone_keeps (n : NodeId) (b : Bool) :
    Keeps (HasRows r) (fun _ => True)
      (NodeStore.setTombstone n b : Exec Error MemoryNodeStore Unit) fun _ => True := by
  by_cases hn : (r n).isSome
  · exact hasRows_keeps fun f => ⟨_, LawfulNodeStore.setTombstone r f n b hn⟩
  · rintro s ⟨⟨r', f⟩, rfl, hs⟩ res s' hrun
    have hview : s.view = r' := hs.1
    have hnone : s.view n = none := by
      rw [hview]
      exact Option.not_isSome_iff_eq_none.mp hn
    have hmissing : s.nodes.lookup n = none := Option.map_eq_none_iff.mp hnone
    replace hrun : MemoryNodeStore.updateState n _ s = some (res, s') := hrun
    rw [MemoryNodeStore.updateState, hmissing] at hrun
    cases hrun
    exact ⟨⟨_, rfl, hs⟩, trivial⟩

theorem refreshAllTombstones_keeps :
    Keeps (HasRows r) (fun _ => True) (refreshAllTombstones : Exec Error MemoryNodeStore Unit)
      fun _ => True := by
  unfold refreshAllTombstones
  refine Keeps.bind (Q := fun _ => True) (Keeps.gets fun _ _ => trivial) fun nodes _ => ?_
  refine (tombstoneUpdates_reads nodes []).keeps.bind fun updates _ => ?_
  exact Keeps.forEach fun e _ => setTombstone_keeps e.1 e.2

/-! ## Local operations -/

section

variable [Storage S] [Clock C]

/-- The tree when a local operation has its id. -/
def minted (t : StoreTree S C) : StoreTree S C :=
  { t with counter := t.counter + 1, clock := (Clock.tick t.clock).2 }

/-- What a local call that fails with `e` leaves. -/
inductive Failed (e : Error) (t : StoreTree S C) : StoreTree S C → Prop
  | unminted : Failed e t t
  | unplaced : Failed e t (minted t)
  | unstored {op : Operation} {st : S} (id : op.metadata.id = ⟨t.replicaId, t.counter + 1⟩)
      (fails : Storage.apply op t.storage = some (.error e, st)) :
      Failed e t { minted t with
        versionVector := t.versionVector.observe t.replicaId (t.counter + 1), storage := st }

/-- The call keeps the parents a forest, and an error comes before anything is applied. -/
def FailsFirst (c : Exec Error (StoreTree S C) α) : Prop :=
  ∀ t, Forested t → ∀ r t', c t = some (r, t') → Forested t' ∧ ∀ e, r = .error e → Failed e t t'

variable {β : Type} {c : Exec Error (StoreTree S C) α}

/-- What is done with the value of such a call. -/
theorem FailsFirst.bind {f : α → Exec Error (StoreTree S C) β} (hc : FailsFirst c)
    (hf : ∀ a, Keeps Forested (fun _ => False) (f a) fun _ => True) : FailsFirst (c >>= f) := by
  intro t ht r t' hrun
  obtain ⟨e, hcs, rfl⟩ | ⟨a, t₁, hcs, hrun⟩ := bind_some hrun
  · obtain ⟨ht', hfail⟩ := hc t ht _ _ hcs
    exact ⟨ht', fun e' he => by cases he; exact hfail e rfl⟩
  · obtain ⟨ht', hr⟩ := hf a t₁ (hc t ht _ _ hcs).1 r t' hrun
    exact ⟨ht', fun e he => by rw [he] at hr; exact hr.elim⟩

/-- What is read of the nodes before such a call. -/
theorem FailsFirst.behind {c : Exec Error MemoryNodeStore β}
    {f : β → Exec Error (StoreTree S C) α} (hc : Reads c) (hf : ∀ b, FailsFirst (f b)) :
    FailsFirst (onNodes c >>= f) := by
  intro t ht r t' hrun
  have hread : ∀ {r t₁}, onNodes c t = some (r, t₁) → t₁ = t := fun h => by
    obtain ⟨n, hn, rfl⟩ := onNodes_some h
    obtain ⟨rfl, -⟩ := hc t.nodes _ rfl _ _ hn
    rfl
  obtain ⟨e, hcs, rfl⟩ | ⟨b, t₁, hcs, hrun⟩ := bind_some hrun
  · rw [hread hcs]
    exact ⟨ht, fun _ _ => .unminted⟩
  · rw [hread hcs] at hrun
    exact hf b t ht r t' hrun

omit [Clock C] in
/-- A commit fails in the log only. -/
theorem commitLocal_some {op : Operation} {t t' : StoreTree S C} {r : Except Error Operation}
    (ht : Forested t) (hrun : commitLocal op t = some (r, t')) :
    Forested t' ∧ ∀ e, r = .error e → ∃ st, Storage.apply op t.storage = some (.error e, st) ∧
      t' = { t with
        versionVector := t.versionVector.observe t.replicaId op.metadata.id.counter
        storage := st } := by
  unfold commitLocal at hrun
  rw [modify_bind_run] at hrun
  obtain ⟨e, hstore, rfl⟩ | ⟨accepted, t₂, hstore, hrun⟩ := bind_some hrun
  · obtain ⟨st, hst, rfl⟩ := zoom_some hstore
    refine ⟨ht, fun e' he => ?_⟩
    cases he
    exact ⟨st, hst, rfl⟩
  obtain ⟨st, -, rfl⟩ := zoom_some hstore
  have hrest : Keeps (Forested (S := S) (C := C)) (fun _ => False) (do
      let snap ← onStores (applyForward op)
      onNodes (refreshTombstonesUpward (affectedParents snap.parent op.kind ++ [op.kind.node]))
      modify fun t => { t with opCount := t.opCount + 1, head := some op }
      return op) fun _ => True := by
    refine (forested_applyForward op).bind fun snap _ => ?_
    refine (forested_onNodes fun r => refreshTombstonesUpward_keeps _).bind fun _ _ => ?_
    exact forested_modify_bind (fun _ => ⟨rfl, rfl⟩) (Keeps.pure trivial)
  cases accepted with
  | false =>
    cases hrun
    exact ⟨ht, fun e he => (nomatch he)⟩
  | true =>
    simp only [Bool.not_true, Bool.false_eq_true, if_false] at hrun
    have h₁ : Forested { t with
        versionVector := t.versionVector.observe t.replicaId op.metadata.id.counter
        storage := st } := ht
    obtain ⟨ht', hr⟩ := hrest _ h₁ r t' hrun
    exact ⟨ht', fun e he => by rw [he] at hr; exact hr.elim⟩

/-- The frame of a local operation. -/
theorem localOp_failsFirst {build : ReplicaId → UInt64 → Lamport → Exec Error MemoryNodeStore Operation}
    (hread : ∀ r c l, Reads (build r c l))
    (hid : ∀ r c l s op s', build r c l s = some (.ok op, s') → op.metadata.id = ⟨r, c⟩) :
    FailsFirst (localOp build : Exec Error (StoreTree S C) Operation) := by
  intro t ht r t' hrun
  have hmint : localOp build t = (do
      let op ← onNodes (build t.replicaId (t.counter + 1) (Clock.tick t.clock).1)
      commitLocal op) (minted t) := rfl
  rw [hmint] at hrun
  obtain ⟨e, hbuild, rfl⟩ | ⟨op, t₁, hbuild, hrun⟩ := bind_some hrun
  · obtain ⟨n, hn, rfl⟩ := onNodes_some hbuild
    obtain ⟨rfl, -⟩ := hread _ _ _ t.nodes _ rfl _ _ hn
    exact ⟨ht, fun _ _ => .unplaced⟩
  · obtain ⟨n, hn, rfl⟩ := onNodes_some hbuild
    have hop := hid _ _ _ _ _ _ hn
    obtain ⟨rfl, -⟩ := hread _ _ _ t.nodes _ rfl _ _ hn
    obtain ⟨ht', hfail⟩ := commitLocal_some (t := minted t) ht hrun
    refine ⟨ht', fun e he => ?_⟩
    obtain ⟨st, hst, rfl⟩ := hfail e he
    have hcounter : op.metadata.id.counter = t.counter + 1 := by rw [hop]
    show Failed e t { minted t with
      versionVector := t.versionVector.observe t.replicaId op.metadata.id.counter, storage := st }
    rw [hcounter]
    exact .unstored hop hst

/-- The operations of the interface, without a plan. -/
private theorem localOps_failFirst (parent node : NodeId) (after : Option NodeId)
    (payload : Bytes) :
    FailsFirst (localInsertAfter (S := S) (C := C) parent node after) ∧
    FailsFirst (localInsertAfterWithPayload (S := S) (C := C) parent node after payload) ∧
    FailsFirst (localMoveAfter (S := S) (C := C) node parent after) ∧
    FailsFirst (localDelete (S := S) (C := C) node) ∧
    FailsFirst (localSetPayload (S := S) (C := C) node payload) ∧
    FailsFirst (localClearPayload (S := S) (C := C) node) := by
  have hkey : ∀ {parent node after seed} {f : Bytes → Operation},
      Reads (do return f (← allocateChildKeyAfter parent node after seed)) :=
    (allocateChildKeyAfter_reads _ _ _ _).map
  have hid : ∀ {α : Type} {c : Exec Error MemoryNodeStore α} {f : α → Operation} {id s op s'},
      (∀ a, (f a).metadata.id = id) → (do return f (← c)) s = some (.ok op, s') →
      op.metadata.id = id := fun hf h => by
    obtain ⟨a, s₁, -, hret⟩ := bind_ok h
    cases hret
    exact hf a
  refine ⟨localOp_failsFirst (fun _ _ _ => hkey) ?_, localOp_failsFirst (fun _ _ _ => hkey) ?_,
    localOp_failsFirst (fun _ _ _ => hkey) ?_,
    localOp_failsFirst (fun _ _ _ => (subtreeVersionVector_reads node).map) ?_,
    localOp_failsFirst (fun _ _ _ s => Keeps.pure trivial) ?_,
    localOp_failsFirst (fun _ _ _ s => Keeps.pure trivial) ?_⟩ <;> intro r c l s op s' h
  · exact hid (fun _ => rfl) h
  · exact hid (fun _ => rfl) h
  · exact hid (fun _ => rfl) h
  · exact hid (fun _ => rfl) h
  · cases h
    rfl
  · cases h
    rfl

theorem LocalCall.run_failsFirst (call : LocalCall) :
    FailsFirst (call.run : Exec Error (StoreTree S C) _) := by
  have hret : ∀ {α β : Type} {c : Exec Error (StoreTree S C) α} {f : α → β}, FailsFirst c →
      FailsFirst (do return f (← c)) := fun h => h.bind fun _ => Keeps.pure trivial
  cases call with
  | insertAfter parent node after => exact hret (localOps_failFirst parent node after []).1
  | insertAfterWithPayload parent node after payload =>
    exact hret (localOps_failFirst parent node after payload).2.1
  | moveAfter node newParent after => exact hret (localOps_failFirst newParent node after []).2.2.1
  | delete node => exact hret (localOps_failFirst node node none []).2.2.2.1
  | setPayload node payload => exact hret (localOps_failFirst node node none payload).2.2.2.2.1
  | clearPayload node => exact hret (localOps_failFirst node node none []).2.2.2.2.2
  | insertWithPlan parent node placement payload =>
    refine hret ?_
    unfold localInsertWithPlan
    refine FailsFirst.behind (resolveAfterForPlacement_reads _ _ _) fun after => ?_
    cases payload with
    | none => exact hret (localOps_failFirst parent node after []).1
    | some payload => exact hret (localOps_failFirst parent node after payload).2.1
  | moveWithPlan node newParent placement =>
    refine hret ?_
    unfold localMoveWithPlan
    refine FailsFirst.behind (parent_reads _) fun oldParent => ?_
    refine FailsFirst.behind (resolveAfterForPlacement_reads _ _ _) fun after => ?_
    refine (localOps_failFirst newParent node after []).2.2.1.bind fun op => ?_
    simp only
    split
    · have hwriter : Keeps (Forested (S := S) (C := C)) (fun _ => False) (payloadLastWriter node)
          fun _ => True := OnDocs.onPayloads fun d _ =>
        (LawfulPayloadStore.lastWriter d.payloads node).imp fun _ _ => trivial
      refine hwriter.bind fun w _ => ?_
      cases w <;> exact Keeps.pure trivial
    · exact Keeps.pure trivial
  | deleteWithPlan node =>
    refine hret ?_
    unfold localDeleteWithPlan
    exact FailsFirst.behind (parent_reads _) fun _ =>
      hret (localOps_failFirst node node none []).2.2.2.1
  | payloadWithPlan node payload =>
    refine hret ?_
    unfold localPayloadWithPlan
    refine FailsFirst.behind (parent_reads _) fun _ => ?_
    cases payload with
    | none => exact hret (localOps_failFirst node node none []).2.2.2.2.2
    | some payload => exact hret (localOps_failFirst node node none payload).2.2.2.2.1

end

/-! ## Runs -/

section

variable [Storage S] [Clock C] [ParentOpIndex I]

/-- The states that the calls of the interface reach, whether they fail or not. -/
inductive Reachable : StoreTree S C × I → Prop
  | new {replica : ReplicaId} {storage : S} {clock : C} {t : StoreTree S C} {i : I}
      (new : TreeCrdt.new replica storage clock = .ok t) : Reachable (t, i)
  | localCall {s s' : StoreTree S C × I} {call : LocalCall}
      {r : Except Error (Operation × Option LocalFinalizePlan)} (before : Reachable s)
      (run : onTree call.run s = some (r, s')) : Reachable s'
  | finalize {s s' : StoreTree S C × I} {op : Operation} {headSeq : UInt64}
      {plan : LocalFinalizePlan} {r : Except Error UInt64} (before : Reachable s)
      (run : finalizeLocalWithPlan op headSeq plan s = some (r, s')) : Reachable s'
  | remote {s s' : StoreTree S C × I} {op : Operation} {r : Except Error Unit}
      (before : Reachable s) (run : onTree (applyRemote op) s = some (r, s')) : Reachable s'
  | remoteWithDelta {s s' : StoreTree S C × I} {op : Operation}
      {r : Except Error (Option ApplyDelta)} (before : Reachable s)
      (run : onTree (applyRemoteWithDelta op) s = some (r, s')) : Reachable s'
  | remoteWithMaterialization {s s' : StoreTree S C × I} {op : Operation} {seq : UInt64}
      {r : Except Error (Option ApplyDelta)} (before : Reachable s)
      (run : applyRemoteWithMaterialization op seq s = some (r, s')) : Reachable s'
  | incremental {s s' : StoreTree S C × I} {cursor : TreeMeta} {ops : List Operation}
      {r : Except Error (Option MaterializationHead × List NodeId)} (before : Reachable s)
      (run : applyIncrementalOpsWithDelta cursor ops s = some (r, s')) : Reachable s'
  | replay {s s' : StoreTree S C × I} {r : Except Error Unit} (before : Reachable s)
      (run : onTree replayFromStorage s = some (r, s')) : Reachable s'
  | replayWithMaterialization {s s' : StoreTree S C × I} {r : Except Error Unit}
      (before : Reachable s) (run : replayFromStorageWithMaterialization s = some (r, s')) :
      Reachable s'

omit [Storage S] [ParentOpIndex I] in
theorem replayRows_keeps_forested (rows : List (Except Error Operation)) (head : Option Operation)
    (seq : UInt64) :
    Keeps (Forested (S := S) (C := C)) (fun _ => True) (replayRows rows head seq)
      fun _ => True := by
  induction rows generalizing head seq with
  | nil => exact Keeps.pure trivial
  | cons row rows ih =>
    cases row with
    | error e => exact Keeps.throw trivial
    | ok op =>
      unfold replayRows
      refine forested_modify_bind (fun _ => ⟨rfl, rfl⟩) ?_
      exact (forested_applyForward op).bind fun _ _ => ih _ _

omit [ParentOpIndex I] in
theorem replayFromStorage_keeps_forested :
    Keeps (Forested (S := S) (C := C)) (fun _ => True) replayFromStorage fun _ => True := by
  unfold replayFromStorage
  refine forested_modify_bind (fun _ => ⟨rfl, rfl⟩) ?_
  refine forested_resetNodes.bind fun _ _ => forested_resetPayloads.bind fun _ _ => ?_
  refine forested_modify_bind (fun _ => ⟨rfl, rfl⟩) ?_
  refine Keeps.bind (Q := fun _ => True) (Keeps.gets fun _ _ => trivial) fun rows _ => ?_
  refine (replayRows_keeps_forested rows none 0).bind fun _ _ => ?_
  refine forested_modify_bind (fun _ => ⟨rfl, rfl⟩) ?_
  exact OnDocs.modify fun _ => ⟨rfl, rfl⟩

omit [ParentOpIndex I] in
theorem applyRemote_keeps_forested (op : Operation) :
    Keeps (Forested (S := S) (C := C)) (fun _ => True) (applyRemote op) fun _ => True := by
  unfold applyRemote
  refine forested_modify_bind (fun _ => ⟨rfl, rfl⟩) ?_
  refine (OnDocs.onStorage _).bind fun accepted _ => ?_
  split
  · exact Keeps.pure trivial
  refine Keeps.bind (Q := fun _ => True) (Keeps.gets fun _ _ => trivial) fun inOrder _ => ?_
  split
  · refine (forested_applyForward op).bind fun _ _ => ?_
    exact forested_modify_bind (fun _ => ⟨rfl, rfl⟩) (Keeps.pure trivial)
  · exact replayFromStorage_keeps_forested

omit [ParentOpIndex I] in
theorem applyRemoteWithDelta_keeps_forested (op : Operation) :
    Keeps (Forested (S := S) (C := C)) (fun _ => True) (applyRemoteWithDelta op)
      fun _ => True := by
  unfold applyRemoteWithDelta
  refine forested_modify_bind (fun _ => ⟨rfl, rfl⟩) ?_
  refine forested_modify_bind (fun t => ?_) ?_
  · unfold raised
    split <;> exact ⟨rfl, rfl⟩
  refine (OnDocs.onStorage _).bind fun accepted _ => ?_
  split
  · exact Keeps.pure trivial
  refine Keeps.bind (Q := fun _ => True) (Keeps.gets fun _ _ => trivial) fun inOrder _ => ?_
  split
  · refine (forested_applyForward op).bind fun _ _ => ?_
    exact forested_modify_bind (fun _ => ⟨rfl, rfl⟩) (Keeps.pure trivial)
  · exact replayFromStorage_keeps_forested.bind fun _ _ => Keeps.pure trivial

/-! ### Next to the index -/

omit [Storage S] [Clock C] [ParentOpIndex I] in
theorem keeps_bind_onTree {β : Type} {c : Exec Error (StoreTree S C) α}
    {f : α → Exec Error (StoreTree S C × I) β} {Q : α → Prop} {Q' : β → Prop}
    (hc : Keeps Forested E c Q)
    (hf : ∀ a, Keeps (fun s : StoreTree S C × I => Forested s.1) E (f a) Q') :
    Keeps (fun s : StoreTree S C × I => Forested s.1) E (onTree c >>= f) Q' :=
  (keeps_onTree hc).bind fun a _ => hf a

omit [Storage S] [Clock C] in
theorem forested_refresh (starts : List NodeId) :
    Keeps (Forested (S := S) (C := C)) E (onNodes (refreshTombstonesUpwardWithDelta starts))
      fun _ => True := forested_onNodes fun _ => refreshLoop_keeps _ _ _ _

theorem applyRemoteWithMaterialization_keeps_forested (op : Operation) (seq : UInt64) :
    Keeps (fun s : StoreTree S C × I => Forested s.1) (fun _ => True)
      (applyRemoteWithMaterialization op seq) fun _ => True := by
  unfold applyRemoteWithMaterialization
  refine keeps_bind_onTree (applyRemoteWithDelta_keeps_forested op) fun delta => ?_
  cases delta with
  | none => exact Keeps.pure trivial
  | some delta =>
    refine (keeps_onIndex Forested _).bind fun _ _ => ?_
    cases op.kind.parentAfter with
    | none => exact keeps_bind_onTree (forested_refresh _) fun _ => Keeps.pure trivial
    | some parentAfter =>
      simp only
      split
      · refine (recordPayloadWriter_keeps_onDocs _ _ _).bind fun _ _ => ?_
        exact keeps_bind_onTree (forested_refresh _) fun _ => Keeps.pure trivial
      · exact keeps_bind_onTree (forested_refresh _) fun _ => Keeps.pure trivial

theorem applyEach_keeps_forested (ops : List Operation) (seq : UInt64) (affected : List NodeId) :
    Keeps (fun s : StoreTree S C × I => Forested s.1) (fun _ => True)
      (applyEach ops seq affected) fun _ => True := by
  induction ops generalizing seq affected with
  | nil => exact Keeps.pure trivial
  | cons op ops ih =>
    unfold applyEach applyRemoteWithMaterializationSeq
    refine Keeps.bind (Q := fun _ => True) ?_ fun x _ => ih _ _
    exact (applyRemoteWithMaterialization_keeps_forested op _).bind fun _ _ => Keeps.pure trivial

theorem applyIncrementalOpsWithDelta_keeps_forested (cursor : TreeMeta) (ops : List Operation) :
    Keeps (fun s : StoreTree S C × I => Forested s.1) (fun _ => True)
      (applyIncrementalOpsWithDelta cursor ops) fun _ => True := by
  unfold applyIncrementalOpsWithDelta
  split
  · exact Keeps.pure trivial
  split
  · exact Keeps.throw trivial
  split
  · exact Keeps.throw trivial
  refine (applyEach_keeps_forested _ _ _).bind fun x _ => ?_
  refine keeps_bind_onTree (Keeps.gets (Q := fun _ => True) fun _ _ => trivial) fun head => ?_
  cases head with
  | none => exact Keeps.throw trivial
  | some last => exact Keeps.pure trivial

omit [Storage S] [Clock C] in
theorem finalizeLocalWithPlan_keeps_forested (op : Operation) (headSeq : UInt64)
    (plan : LocalFinalizePlan) :
    Keeps (fun s : StoreTree S C × I => Forested s.1) (fun _ => True)
      (finalizeLocalWithPlan op headSeq plan) fun _ => True := by
  refine Keeps.bind (Q := fun _ => True) ?_ fun _ _ => Keeps.pure trivial
  refine keeps_bind_onTree (Q := fun _ => True) ?_ fun _ => ?_
  · exact forested_onNodes fun _ => refreshTombstonesUpward_keeps _
  · exact (keeps_onIndex Forested _).bind fun _ _ => keeps_onIndex Forested _

omit [Storage S] in
theorem indexRows_keeps_forested (rows : List (Except Error Operation)) (head : Option Operation)
    (seq : UInt64) :
    Keeps (fun s : StoreTree S C × I => Forested s.1) (fun _ => True) (indexRows rows head seq)
      fun _ => True := by
  induction rows generalizing head seq with
  | nil => exact Keeps.pure trivial
  | cons row rows ih =>
    cases row with
    | error e => exact Keeps.throw trivial
    | ok op =>
      unfold indexRows
      refine keeps_bind_onTree (OnDocs.modify (f := observed op) fun _ => ⟨rfl, rfl⟩) fun _ => ?_
      refine keeps_bind_onTree (forested_applyForward op) fun snap => ?_
      exact (keeps_onIndex Forested _).bind fun _ _ => ih _ _

omit [Storage S] [Clock C] in
theorem indexPayload_keeps_forested (seq : UInt64) (node : NodeId) :
    Keeps (fun s : StoreTree S C × I => Forested s.1) (fun _ => True) (indexPayload seq node)
      fun _ => True := by
  have hparent : Reads (NodeStore.parent node : Exec Error MemoryNodeStore _) := fun _ =>
    Keeps.gets fun _ _ => trivial
  unfold indexPayload
  split
  · exact Keeps.pure trivial
  refine keeps_bind_onTree (forested_onNodes fun _ => hparent.keeps) fun parent => ?_
  cases parent with
  | none => exact Keeps.pure trivial
  | some parent =>
    simp only
    split
    · exact Keeps.pure trivial
    · exact recordPayloadWriter_keeps_onDocs _ _ _

theorem replayFromStorageWithMaterialization_keeps_forested :
    Keeps (fun s : StoreTree S C × I => Forested s.1) (fun _ => True)
      replayFromStorageWithMaterialization fun _ => True := by
  have hall : Reads (NodeStore.allNodes : Exec Error MemoryNodeStore _) := fun _ =>
    Keeps.gets fun _ _ => trivial
  unfold replayFromStorageWithMaterialization
  refine (keeps_onIndex Forested _).bind fun _ _ => ?_
  refine keeps_bind_onTree (OnDocs.modify fun _ => ⟨rfl, rfl⟩) fun _ => ?_
  refine keeps_bind_onTree forested_resetNodes fun _ => ?_
  refine keeps_bind_onTree forested_resetPayloads fun _ => ?_
  refine keeps_bind_onTree (OnDocs.modify fun _ => ⟨rfl, rfl⟩) fun _ => ?_
  refine keeps_bind_onTree (Keeps.gets (Q := fun _ => True) fun _ _ => trivial) fun rows => ?_
  refine (indexRows_keeps_forested rows none 0).bind fun _ _ => ?_
  refine keeps_bind_onTree (OnDocs.modify fun _ => ⟨rfl, rfl⟩) fun _ => ?_
  refine keeps_bind_onTree (OnDocs.modify fun _ => ⟨rfl, rfl⟩) fun _ => ?_
  refine keeps_bind_onTree (forested_onNodes fun _ => refreshAllTombstones_keeps) fun _ => ?_
  refine keeps_bind_onTree (forested_onNodes fun _ => hall.keeps) fun nodes => ?_
  exact Keeps.forEach fun node _ => indexPayload_keeps_forested _ node

theorem Reachable.forested {s : StoreTree S C × I} (h : Reachable s) : Forested s.1 := by
  induction h with
  | new new =>
    obtain ⟨counter, -, hret⟩ := except_bind_ok new
    cases hret
    exact ⟨Doc.initial, Doc.acyclic_initial, initial_models⟩
  | localCall _ run ih =>
    obtain ⟨t, hrun, rfl⟩ := zoom_some run
    exact (LocalCall.run_failsFirst _ _ ih _ _ hrun).1
  | finalize _ run ih => exact (finalizeLocalWithPlan_keeps_forested _ _ _ _ ih _ _ run).1
  | remote _ run ih => exact (keeps_onTree (applyRemote_keeps_forested _) _ ih _ _ run).1
  | remoteWithDelta _ run ih =>
    exact (keeps_onTree (applyRemoteWithDelta_keeps_forested _) _ ih _ _ run).1
  | remoteWithMaterialization _ run ih =>
    exact (applyRemoteWithMaterialization_keeps_forested _ _ _ ih _ _ run).1
  | incremental _ run ih =>
    exact (applyIncrementalOpsWithDelta_keeps_forested _ _ _ ih _ _ run).1
  | replay _ run ih => exact (keeps_onTree replayFromStorage_keeps_forested _ ih _ _ run).1
  | replayWithMaterialization _ run ih =>
    exact (replayFromStorageWithMaterialization_keeps_forested _ ih _ _ run).1

/-- **A local call that fails** has applied nothing: at most the id is minted, and where the log
itself has failed, observed. -/
theorem localCall_failed {s : StoreTree S C × I} (h : Reachable s) {call : LocalCall} {e : Error}
    {t : StoreTree S C} (hrun : call.run s.1 = some (.error e, t)) : Failed e s.1 t :=
  (call.run_failsFirst s.1 h.forested _ _ hrun).2 e rfl

end

theorem sampleNew_reachable : Reachable sampleNew :=
  .new (t := sampleNew.1) (show TreeCrdt.new ⟨[1]⟩ {} ({} : LamportClock) = _ from rfl)

/-- An insert behind a node that is no child. -/
theorem sampleNew_insertAfter :
    (LocalCall.insertAfter NodeId.ROOT ⟨5⟩ (some ⟨9⟩)).run sampleNew.1 =
      some (.error (.invalidOperation "after node is not a child of parent"),
        minted sampleNew.1) := rfl

theorem localCall_failed_insert :
    Failed (.invalidOperation "after node is not a child of parent") sampleNew.1
      (minted sampleNew.1) := localCall_failed sampleNew_reachable sampleNew_insertAfter

/-- The counter of such an insert is gone. -/
theorem failed_insert_counts :
    ∃ (s : SampleState) (call : LocalCall) (e : Error) (t : StoreTree MemoryStorage LamportClock),
      Reachable s ∧ call.run s.1 = some (.error e, t) ∧ t.counter ≠ s.1.counter :=
  ⟨sampleNew, _, _, _, sampleNew_reachable, sampleNew_insertAfter, by decide⟩

end TreeCrdt

end Treecrdt
