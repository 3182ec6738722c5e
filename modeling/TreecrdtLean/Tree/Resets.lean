import TreecrdtLean.Core.Materialize

/-!
# Who resets the stores

`Watched` is a store that counts the calls of its `reset`. Of the methods that materialize an
operation only the replay calls it: what is applied in order leaves the counts
(`applyInOrder_keeps`), and a replay raises both of them (`applyRemoteWithDelta_replays`).
-/

namespace Treecrdt

open Exec

/-- A store with the number of times that it was reset. -/
structure Watched (A : Type) where
  store : A
  resets : ℕ := 0
  deriving DecidableEq

namespace Watched

variable {A N P α : Type}

/-- A method of the store that is not its `reset`. -/
def watch (c : Exec Error A α) : Exec Error (Watched A) α :=
  zoom store (fun a w => { w with store := a }) c

/-- The `reset` of the store. -/
def watchReset (c : Exec Error A α) : Exec Error (Watched A) α :=
  zoom store (fun a w => { store := a, resets := w.resets + 1 }) c

instance [NodeStore N] : NodeStore (Watched N) where
  reset := watchReset NodeStore.reset
  ensureNode n := watch (NodeStore.ensureNode n)
  nodeExists n := watch (NodeStore.nodeExists n)
  parent n := watch (NodeStore.parent n)
  orderKey n := watch (NodeStore.orderKey n)
  children n := watch (NodeStore.children n)
  detach n := watch (NodeStore.detach n)
  attach n p key := watch (NodeStore.attach n p key)
  tombstone n := watch (NodeStore.tombstone n)
  setTombstone n b := watch (NodeStore.setTombstone n b)
  lastChange n := watch (NodeStore.lastChange n)
  mergeLastChange n vv := watch (NodeStore.mergeLastChange n vv)
  deletedAt n := watch (NodeStore.deletedAt n)
  mergeDeletedAt n vv := watch (NodeStore.mergeDeletedAt n vv)
  hasDeletedAt n := watch (NodeStore.hasDeletedAt n)
  parentAndHasDeletedAt n := watch (NodeStore.parentAndHasDeletedAt n)
  allNodes := watch NodeStore.allNodes

instance [PayloadStore P] : PayloadStore (Watched P) where
  reset := watchReset PayloadStore.reset
  payload n := watch (PayloadStore.payload n)
  lastWriter n := watch (PayloadStore.lastWriter n)
  setPayload n payload writer := watch (PayloadStore.setPayload n payload writer)

variable {W V : ℕ → Prop}

/-- The count is in `W`. -/
abbrev Count (W : ℕ → Prop) (w : Watched A) : Prop := W w.resets

theorem watch_keeps (c : Exec Error A α) :
    Keeps (Count W) (fun _ => True) (watch c) fun _ => True :=
  (Keeps.any c).zoom (fun _ _ => trivial) fun _ _ h _ => h

theorem watchReset_some {c : Exec Error A α} {w w' : Watched A} {r : Except Error α}
    (h : watchReset c w = some (r, w')) : w'.resets = w.resets + 1 := by
  obtain ⟨_, _, rfl⟩ := zoom_some h
  rfl

/-! ## The node store -/

section

variable [NodeStore N]

theorem updateLastChange_keeps (op : Operation) (node : NodeId) :
    Keeps (Count W) (fun _ => True) (updateLastChange op node : Exec Error (Watched N) Unit)
      fun _ => True := by
  unfold updateLastChange
  refine (watch_keeps _).bind fun _ _ => ?_
  cases op.metadata.knownState with
  | none => exact Keeps.pure trivial
  | some knownState => exact watch_keeps _

theorem cycleWalk_keeps (node : NodeId) (steps : ℕ) (current : Option NodeId) :
    Keeps (Count W) (fun _ => True) (cycleWalk node steps current : Exec Error (Watched N) Bool)
      fun _ => True := by
  induction steps generalizing current with
  | zero =>
    cases current with
    | none => exact Keeps.pure trivial
    | some n => exact Keeps.diverge
  | succ steps ih =>
    cases current with
    | none => exact Keeps.pure trivial
    | some n =>
      unfold cycleWalk
      split_ifs
      · exact Keeps.pure trivial
      · exact Keeps.pure trivial
      · exact (watch_keeps _).bind fun _ _ => ih _

theorem introducesCycle_keeps (node parent : NodeId) :
    Keeps (Count W) (fun _ => True) (introducesCycle node parent : Exec Error (Watched N) Bool)
      fun _ => True := by
  unfold introducesCycle
  split
  · exact Keeps.pure trivial
  · exact cycleWalk_keeps _ _ _

theorem snapshot_keeps (op : Operation) :
    Keeps (Count W) (fun _ => True) (snapshot op : Exec Error (Watched N) NodeSnapshot)
      fun _ => True := by
  unfold snapshot
  refine (watch_keeps _).bind fun _ _ => ?_
  refine (watch_keeps _).bind fun _ _ => ?_
  exact (watch_keeps _).bind fun _ _ => Keeps.pure trivial

theorem applyInsert_keeps (op : Operation) (parent node : NodeId) (key : Bytes) :
    Keeps (Count W) (fun _ => True) (applyInsert op parent node key : Exec Error (Watched N) Unit)
      fun _ => True := by
  unfold applyInsert
  split
  · exact Keeps.pure trivial
  refine (introducesCycle_keeps _ _).bind fun cyclic _ => ?_
  split
  · exact Keeps.pure trivial
  refine (watch_keeps _).bind fun _ _ => ?_
  refine (watch_keeps _).bind fun _ _ => ?_
  refine (watch_keeps _).bind fun _ _ => ?_
  refine (watch_keeps _).bind fun _ _ => ?_
  exact (updateLastChange_keeps _ _).bind fun _ _ => updateLastChange_keeps _ _

theorem touchMoved_keeps (op : Operation) (node newParent : NodeId) (oldParent : Option NodeId) :
    Keeps (Count W) (fun _ => True)
      (touchMoved op node newParent oldParent : Exec Error (Watched N) Unit) fun _ => True := by
  have hlast : Keeps (Count W) (fun _ => True)
      (if newParent ≠ NodeId.TRASH then updateLastChange op newParent
        else pure () : Exec Error (Watched N) Unit) fun _ => True := by
    split
    · exact updateLastChange_keeps _ _
    · exact Keeps.pure trivial
  unfold touchMoved
  refine (updateLastChange_keeps _ _).bind fun _ _ => ?_
  cases oldParent with
  | none => exact hlast
  | some oldP =>
    dsimp only
    split
    · exact (updateLastChange_keeps _ _).bind fun _ _ => hlast
    · exact hlast

theorem applyMove_keeps (op : Operation) (node newParent : NodeId) (key : Bytes) :
    Keeps (Count W) (fun _ => True) (applyMove op node newParent key : Exec Error (Watched N) Unit)
      fun _ => True := by
  have hmove : Keeps (Count W) (fun _ => True)
      (do
        let oldParent ← NodeStore.parent node
        NodeStore.detach node
        NodeStore.attach node newParent key
        touchMoved op node newParent oldParent : Exec Error (Watched N) Unit) fun _ => True := by
    refine (watch_keeps _).bind fun _ _ => ?_
    refine (watch_keeps _).bind fun _ _ => ?_
    exact (watch_keeps _).bind fun _ _ => touchMoved_keeps _ _ _ _
  unfold applyMove
  split
  · exact Keeps.pure trivial
  refine (watch_keeps _).bind fun _ _ => ?_
  refine (watch_keeps _).bind fun _ _ => ?_
  split
  · refine (introducesCycle_keeps _ _).bind fun cyclic _ => ?_
    split
    · exact Keeps.pure trivial
    · exact hmove
  · exact hmove

theorem applyDelete_keeps (op : Operation) (node : NodeId) :
    Keeps (Count W) (fun _ => True) (applyDelete op node : Exec Error (Watched N) Unit)
      fun _ => True := by
  unfold applyDelete
  split
  · exact Keeps.pure trivial
  · exact (watch_keeps _).bind fun _ _ => watch_keeps _

theorem subtreeVersionVectorAt_keeps (depth : ℕ) (n : NodeId) :
    Keeps (Count W) (fun _ => True)
      (subtreeVersionVectorAt depth n : Exec Error (Watched N) VersionVector) fun _ => True := by
  induction depth generalizing n with
  | zero => exact Keeps.diverge
  | succ depth ih =>
    unfold subtreeVersionVectorAt
    refine (watch_keeps _).bind fun present _ => ?_
    split
    · exact Keeps.pure trivial
    refine (watch_keeps _).bind fun vv _ => ?_
    refine (watch_keeps _).bind fun children _ => ?_
    exact Keeps.foldlM (fun c vv _ => (ih c).bind fun _ _ => Keeps.pure trivial) trivial

theorem isTombstoned_keeps (n : NodeId) :
    Keeps (Count W) (fun _ => True) (TreeCrdt.isTombstoned n : Exec Error (Watched N) Bool)
      fun _ => True := by
  unfold TreeCrdt.isTombstoned
  refine (watch_keeps _).bind fun present _ => ?_
  split
  · exact Keeps.pure trivial
  refine (watch_keeps _).bind fun deleted _ => ?_
  cases deleted with
  | none => exact Keeps.pure trivial
  | some vv => exact (subtreeVersionVectorAt_keeps _ n).bind fun _ _ => Keeps.pure trivial

theorem refreshFlag_keeps (n : NodeId) :
    Keeps (Count W) (fun _ => True) (TreeCrdt.refreshFlag n : Exec Error (Watched N) Bool)
      fun _ => True := by
  unfold TreeCrdt.refreshFlag
  refine (watch_keeps _).bind fun previous _ => ?_
  refine (isTombstoned_keeps n).bind fun tombstoned _ => ?_
  split
  · exact Keeps.pure trivial
  · exact (watch_keeps _).bind fun _ _ => Keeps.pure trivial

theorem refreshLoop_keeps (steps : ℕ) (stack visited changed : List NodeId) :
    Keeps (Count W) (fun _ => True)
      (TreeCrdt.refreshLoop steps stack visited changed : Exec Error (Watched N) _)
      fun _ => True := by
  induction steps generalizing stack visited changed with
  | zero =>
    cases stack with
    | nil => exact Keeps.pure trivial
    | cons n stack => exact Keeps.diverge
  | succ steps ih =>
    cases stack with
    | nil => exact Keeps.pure trivial
    | cons n stack =>
      unfold TreeCrdt.refreshLoop
      split_ifs
      · exact ih _ _ _
      · exact ih _ _ _
      refine (watch_keeps _).bind fun o _ => ?_
      rcases o with _ | ⟨parent, hasDeletedAt⟩
      · exact ih _ _ _
      refine Keeps.bind (Q := fun _ => True) ?_ fun _ _ => ih _ _ _
      split_ifs
      · exact refreshFlag_keeps n
      · exact Keeps.pure trivial

end

/-! ## The two stores -/

variable [NodeStore N] [PayloadStore P]

/-- The counts of the two stores. -/
abbrev Counts (W V : ℕ → Prop) (s : Watched N × Watched P) : Prop := Count W s.1 ∧ Count V s.2

omit [NodeStore N] [PayloadStore P] in
theorem onNodeStore_keeps {c : Exec Error (Watched N) α}
    (hc : Keeps (Count W) (fun _ => True) c fun _ => True) :
    Keeps (Counts (P := P) W V) (fun _ => True) (onNodeStore c) fun _ => True :=
  hc.zoom (fun _ h => h.1) fun _ _ h hn => ⟨hn, h.2⟩

omit [NodeStore N] [PayloadStore P] in
theorem onPayloadStore_keeps {c : Exec Error (Watched P) α}
    (hc : Keeps (Count V) (fun _ => True) c fun _ => True) :
    Keeps (Counts (N := N) W V) (fun _ => True) (onPayloadStore c) fun _ => True :=
  hc.zoom (fun _ h => h.2) fun _ _ h hp => ⟨h.1, hp⟩

theorem applyPayload_keeps (op : Operation) (node : NodeId) (payload : Option Bytes) :
    Keeps (Counts (N := N) (P := P) W V) (fun _ => True) (applyPayload op node payload)
      fun _ => True := by
  unfold applyPayload
  refine (onNodeStore_keeps (watch_keeps _)).bind fun _ _ => ?_
  refine (onPayloadStore_keeps (watch_keeps _)).bind fun writer _ => ?_
  split
  · exact Keeps.pure trivial
  refine (onPayloadStore_keeps (watch_keeps _)).bind fun _ _ => ?_
  exact onNodeStore_keeps (updateLastChange_keeps _ _)

theorem applyForward_keeps (op : Operation) :
    Keeps (Counts (N := N) (P := P) W V) (fun _ => True) (applyForward op) fun _ => True := by
  unfold applyForward
  refine (onNodeStore_keeps (snapshot_keeps op)).bind fun snap _ => ?_
  cases op.kind with
  | insert parent node key payload =>
    refine (onNodeStore_keeps (applyInsert_keeps _ _ _ _)).bind fun _ _ => ?_
    split
    · exact (applyPayload_keeps _ _ _).bind fun _ _ => Keeps.pure trivial
    · exact Keeps.pure trivial
  | move node newParent key =>
    exact (onNodeStore_keeps (applyMove_keeps _ _ _ _)).bind fun _ _ => Keeps.pure trivial
  | delete node =>
    exact (onNodeStore_keeps (applyDelete_keeps _ _)).bind fun _ _ => Keeps.pure trivial
  | tombstone node =>
    exact (onNodeStore_keeps (applyDelete_keeps _ _)).bind fun _ _ => Keeps.pure trivial
  | payload node payload =>
    exact (applyPayload_keeps _ _ _).bind fun _ _ => Keeps.pure trivial

end Watched

/-! ## The tree -/

namespace TreeCrdt

open Watched

/-- A tree over watched stores, with no log. -/
abbrev WatchedTree (C N P : Type) := TreeCrdt NoopStorage C (Watched N) (Watched P)

variable {C N P I α : Type} {W V : ℕ → Prop}

/-- The counts of the stores of the tree. -/
abbrev StoreCounts (W V : ℕ → Prop) (t : WatchedTree C N P) : Prop :=
  Counts W V (t.nodes, t.payloads)

theorem watchedTree_keeps {K : WatchedTree C N P → Prop} {c : Exec Error (WatchedTree C N P) α}
    {Q : α → Prop} (hc : Keeps K (fun _ => True) c Q) :
    Keeps (fun s : WatchedTree C N P × I => K s.1) (fun _ => True) (onTree c) Q :=
  hc.zoom (fun _ h => h) fun _ _ _ h => h

theorem watchedIndex_keeps {K : WatchedTree C N P → Prop} (c : Exec Error I α) :
    Keeps (fun s : WatchedTree C N P × I => K s.1) (fun _ => True) (onIndex c) fun _ => True :=
  (Keeps.any c).zoom (fun _ _ => trivial) fun _ _ h _ => h

/-- The stores take no part in the head. -/
theorem head_onNodes (h : Option Operation) (c : Exec Error (Watched N) α) :
    Keeps (fun t : WatchedTree C N P => t.head = h) (fun _ => True) (onNodes c) fun _ => True :=
  (Keeps.any c).zoom (fun _ _ => trivial) fun _ _ h _ => h

theorem head_onPayloads (h : Option Operation) (c : Exec Error (Watched P) α) :
    Keeps (fun t : WatchedTree C N P => t.head = h) (fun _ => True) (onPayloads c) fun _ => True :=
  (Keeps.any c).zoom (fun _ _ => trivial) fun _ _ h _ => h

section

variable [NodeStore N] [PayloadStore P]

/-- The part of `apply_remote_with_delta` behind the test of the order. -/
def applyNext (op : Operation) : Exec Error (WatchedTree C N P) (Option ApplyDelta) := do
  let snap ← onStores (applyForward op)
  modify fun t => { t with opCount := t.opCount + 1, head := some op }
  return some { snapshot := snap, affectedNodes := directAffectedNodes snap.parent op.kind }

theorem applyNext_keeps (op : Operation) :
    Keeps (StoreCounts (C := C) (N := N) (P := P) W V) (fun _ => True) (applyNext op)
      fun _ => True := by
  unfold applyNext
  refine Keeps.bind (Q := fun _ => True) ?_ fun snap _ => ?_
  · exact (applyForward_keeps op).zoom (fun _ h => h) fun _ _ _ h => h
  · exact Keeps.bind (Keeps.modify fun _ h => h) fun _ _ => Keeps.pure trivial

omit [NodeStore N] in
theorem payloadLastWriter_keeps (node : NodeId) :
    Keeps (StoreCounts (C := C) (N := N) (P := P) W V) (fun _ => True) (payloadLastWriter node)
      fun _ => True := by
  unfold payloadLastWriter onPayloads
  have hread : Keeps (Count V) (fun _ => True)
      (PayloadStore.lastWriter node : Exec Error (Watched P) (Option (Lamport × OperationId)))
      fun _ => True := watch_keeps _
  exact Keeps.zoom hread (fun _ h => h.2) fun _ _ h hp => ⟨h.1, hp⟩

omit [PayloadStore P] in
theorem refreshUpward_keeps (starts : List NodeId) :
    Keeps (StoreCounts (C := C) (N := N) (P := P) W V) (fun _ => True)
      (onNodes (refreshTombstonesUpwardWithDelta starts)) fun _ => True :=
  (Watched.refreshLoop_keeps _ _ _ _).zoom (fun _ h => h.1) fun _ _ h hn => ⟨hn, h.2⟩

variable [Clock C]

/-- What an operation does before it is applied. -/
theorem applyRemoteWithDelta_run (op : Operation) (t : WatchedTree C N P) :
    applyRemoteWithDelta op t =
      if t.isInOrder op then applyNext op (raised op (observed op t))
      else (do replayFromStorage; return none : Exec Error _ (Option ApplyDelta))
        (raised op (observed op t)) := by
  have hhead : (raised op (observed op t)).isInOrder op = t.isInOrder op := by
    unfold raised observed
    split <;> rfl
  have hadmit : (onStorage (Storage.apply op) : Exec Error (WatchedTree C N P) Bool)
      (raised op (observed op t)) = some (.ok true, raised op (observed op t)) := rfl
  unfold applyRemoteWithDelta
  rw [modify_bind_run, modify_bind_run, bind_of_ok hadmit]
  simp only [Bool.not_true, Bool.false_eq_true, if_false]
  rw [gets_bind_run, hhead]
  split <;> rfl

theorem scanSince_noop (s : NoopStorage) (lamport : Lamport) : Storage.scanSince s lamport = [] := by
  have hsorted : sortOps [] = [] := List.eq_nil_of_length_eq_zero (sortOps_perm []).length_eq
  show (sortOps []).map Except.ok = []
  rw [hsorted, List.map_nil]

/-- A replay of no log resets both stores. -/
theorem replayFromStorage_resets {t t' : WatchedTree C N P}
    (h : replayFromStorage t = some (.ok (), t')) :
    t'.nodes.resets = t.nodes.resets + 1 ∧ t'.payloads.resets = t.payloads.resets + 1 := by
  unfold replayFromStorage at h
  rw [modify_bind_run] at h
  obtain ⟨_, t₁, hnodes, h⟩ := bind_ok h
  obtain ⟨n, hn, rfl⟩ := zoom_some hnodes
  obtain ⟨_, t₂, hpayloads, h⟩ := bind_ok h
  obtain ⟨p, hp, rfl⟩ := zoom_some hpayloads
  rw [modify_bind_run, gets_bind_run, scanSince_noop] at h
  cases h
  exact ⟨watchReset_some hn, watchReset_some hp⟩

/-- What resets can only raise is kept by the replay as well. -/
theorem replayFromStorage_keeps (hW : ∀ k, W k → W (k + 1)) (hV : ∀ k, V k → V (k + 1)) :
    Keeps (StoreCounts (C := C) (N := N) (P := P) W V) (fun _ => True) replayFromStorage
      fun _ => True := by
  have hnodes : Keeps (StoreCounts (C := C) (N := N) (P := P) W V) (fun _ => True)
      (onNodes NodeStore.reset) fun _ => True := by
    intro t ht r t' hrun
    obtain ⟨n, hn, rfl⟩ := zoom_some hrun
    refine ⟨⟨?_, ht.2⟩, by cases r <;> trivial⟩
    show W n.resets
    rw [watchReset_some hn]
    exact hW _ ht.1
  have hpayloads : Keeps (StoreCounts (C := C) (N := N) (P := P) W V) (fun _ => True)
      (onPayloads PayloadStore.reset) fun _ => True := by
    intro t ht r t' hrun
    obtain ⟨p, hp, rfl⟩ := zoom_some hrun
    refine ⟨⟨ht.1, ?_⟩, by cases r <;> trivial⟩
    show V p.resets
    rw [watchReset_some hp]
    exact hV _ ht.2
  unfold replayFromStorage
  refine Keeps.bind (Keeps.modify fun _ h => h) fun _ _ => ?_
  refine hnodes.bind fun _ _ => hpayloads.bind fun _ _ => ?_
  refine Keeps.bind (Keeps.modify fun _ h => h) fun _ _ => ?_
  refine Keeps.bind (Keeps.gets (Q := fun rows => rows = []) fun t _ => scanSince_noop _ 0)
    fun rows hrows => ?_
  subst hrows
  refine Keeps.bind (Keeps.pure trivial (Q := fun _ => True)) fun _ _ => ?_
  exact Keeps.bind (Keeps.modify fun _ h => h) fun _ _ => Keeps.modify fun _ h => h

variable [ParentOpIndex I]

/-- The part of `apply_remote_with_materialization` behind `apply_remote_with_delta`. -/
def materialize (op : Operation) (seq : UInt64) (delta : ApplyDelta) :
    Exec Error (WatchedTree C N P × I) (Option ApplyDelta) := do
  let parents := affectedParents delta.snapshot.parent op.kind
  onIndex (recordParents parents op.metadata.id seq)
  match op.kind.parentAfter with
  | some parentAfter =>
    if parentAfter ≠ NodeId.TRASH ∧ delta.snapshot.parent ≠ some parentAfter then
      recordPayloadWriter parentAfter op.kind.node seq
  | none => pure ()
  let changed ← onTree (onNodes (refreshTombstonesUpwardWithDelta (parents ++ [op.kind.node])))
  return some { delta with
    affectedNodes := sortedNodeIds (delta.affectedNodes ++ changed.filter (· ≠ NodeId.TRASH)) }

omit [Clock C] in
theorem materialize_keeps {K : WatchedTree C N P → Prop}
    (hnodes : ∀ starts, Keeps K (fun _ => True)
      (onNodes (refreshTombstonesUpwardWithDelta starts)) fun _ => True)
    (hwriter : ∀ node, Keeps K (fun _ => True) (payloadLastWriter node) fun _ => True)
    (op : Operation) (seq : UInt64) (delta : ApplyDelta) :
    Keeps (fun s : WatchedTree C N P × I => K s.1) (fun _ => True) (materialize op seq delta)
      fun r => r.isSome := by
  have hrefresh : Keeps (fun s : WatchedTree C N P × I => K s.1) (fun _ => True)
      (do
        let changed ← onTree (onNodes (refreshTombstonesUpwardWithDelta
          (affectedParents delta.snapshot.parent op.kind ++ [op.kind.node])))
        return some { delta with
          affectedNodes :=
            sortedNodeIds (delta.affectedNodes ++ changed.filter (· ≠ NodeId.TRASH)) })
      fun r => r.isSome :=
    (watchedTree_keeps (hnodes _)).bind fun _ _ => Keeps.pure rfl
  unfold materialize
  refine (watchedIndex_keeps _).bind fun _ _ => ?_
  cases op.kind.parentAfter with
  | none => exact hrefresh
  | some parentAfter =>
    dsimp only
    split
    · refine Keeps.bind (Q := fun _ => True) ?_ fun _ _ => hrefresh
      unfold recordPayloadWriter
      refine (watchedTree_keeps (hwriter _)).bind fun writer _ => ?_
      cases writer with
      | none => exact Keeps.pure trivial
      | some w => exact watchedIndex_keeps _
    · exact hrefresh

theorem applyRemoteWithMaterialization_eq (op : Operation) (seq : UInt64) :
    (applyRemoteWithMaterialization op seq : Exec Error (WatchedTree C N P × I) _) =
      onTree (applyRemoteWithDelta op) >>= fun delta =>
        match delta with
        | none => pure none
        | some delta => materialize op seq delta := by
  funext s
  unfold applyRemoteWithMaterialization
  refine bind_congr_ok rfl fun delta s' _ => ?_
  cases delta with
  | none => rfl
  | some delta => rfl

variable {op : Operation} {seq : UInt64} {t : WatchedTree C N P} {s s' : WatchedTree C N P × I}

/-- An operation in order becomes the head, is reported, and resets nothing. -/
theorem applyRemoteWithMaterialization_inOrder {r : Option ApplyDelta}
    (hord : s.1.isInOrder op = true)
    (hrun : applyRemoteWithMaterialization op seq s = some (.ok r, s')) :
    s'.1.head = some op ∧ r.isSome ∧ s'.1.nodes.resets = s.1.nodes.resets ∧
      s'.1.payloads.resets = s.1.payloads.resets := by
  rw [applyRemoteWithMaterialization_eq] at hrun
  obtain ⟨delta, s₁, hdelta, hrest⟩ := bind_ok hrun
  obtain ⟨t₁, hone, rfl⟩ := zoom_some hdelta
  rw [applyRemoteWithDelta_run, if_pos hord] at hone
  have hcounts := (applyNext_keeps op (W := (· = s.1.nodes.resets))
    (V := (· = s.1.payloads.resets)) _ (by unfold raised observed; split <;> exact ⟨rfl, rfl⟩)
    _ _ hone).1
  unfold applyNext at hone
  obtain ⟨snap, t₂, -, hnext⟩ := bind_ok hone
  cases hnext
  simp only at hrest
  have hkept := materialize_keeps (refreshUpward_keeps (W := (· = s.1.nodes.resets))
    (V := (· = s.1.payloads.resets))) payloadLastWriter_keeps op seq _ _ hcounts _ _ hrest
  have hhead := (materialize_keeps (fun _ => head_onNodes (some op) _)
    (fun _ => head_onPayloads (some op) _) op seq _ _ rfl _ _ hrest).1
  exact ⟨hhead, hkept.2, hkept.1⟩

/-- An operation out of order resets both stores, and nothing more happens. -/
theorem applyRemoteWithMaterialization_replays {r : Option ApplyDelta}
    (hord : ¬ s.1.isInOrder op = true)
    (hrun : applyRemoteWithMaterialization op seq s = some (.ok r, s')) :
    s'.1.nodes.resets = s.1.nodes.resets + 1 := by
  rw [applyRemoteWithMaterialization_eq] at hrun
  obtain ⟨delta, s₁, hdelta, hrest⟩ := bind_ok hrun
  obtain ⟨t₁, hone, rfl⟩ := zoom_some hdelta
  rw [applyRemoteWithDelta_run, if_neg hord] at hone
  obtain ⟨_, t₂, hreplay, hnone⟩ := bind_ok hone
  cases hnone
  cases hrest
  rw [(replayFromStorage_resets hreplay).1]
  unfold raised observed
  split <;> rfl

/-- What resets can only raise is kept by every operation. -/
theorem applyRemoteWithMaterialization_keeps (hW : ∀ k, W k → W (k + 1))
    (hV : ∀ k, V k → V (k + 1)) (op : Operation) (seq : UInt64) :
    Keeps (fun s : WatchedTree C N P × I => StoreCounts W V s.1) (fun _ => True)
      (applyRemoteWithMaterialization op seq) fun _ => True := by
  have hdelta : Keeps (StoreCounts (C := C) (N := N) (P := P) W V) (fun _ => True)
      (applyRemoteWithDelta op) fun _ => True := by
    intro t ht r t' hrun
    have ht' : StoreCounts W V (raised op (observed op t)) := by
      unfold raised observed
      split <;> exact ht
    rw [applyRemoteWithDelta_run] at hrun
    split at hrun
    · exact applyNext_keeps op _ ht' _ _ hrun
    · exact ((replayFromStorage_keeps hW hV).bind fun _ _ => Keeps.pure trivial) _ ht' _ _ hrun
  rw [applyRemoteWithMaterialization_eq]
  refine (watchedTree_keeps hdelta).bind fun delta _ => ?_
  cases delta with
  | none => exact Keeps.pure trivial
  | some delta =>
    exact (materialize_keeps refreshUpward_keeps payloadLastWriter_keeps op seq delta).imp
      fun _ _ => trivial

theorem applyEach_keeps (hW : ∀ k, W k → W (k + 1)) (hV : ∀ k, V k → V (k + 1))
    (ops : List Operation) (seq : UInt64) (affected : List NodeId) :
    Keeps (fun s : WatchedTree C N P × I => StoreCounts W V s.1) (fun _ => True)
      (applyEach ops seq affected) fun _ => True := by
  induction ops generalizing seq affected with
  | nil => exact Keeps.pure trivial
  | cons op ops ih =>
    refine Keeps.bind (Q := fun _ => True) ?_ fun _ _ => ih _ _
    exact (applyRemoteWithMaterialization_keeps hW hV op _).bind fun _ _ => Keeps.pure trivial

end

end TreeCrdt

end Treecrdt
