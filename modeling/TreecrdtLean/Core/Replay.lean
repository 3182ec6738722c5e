import TreecrdtLean.Core.Tree

/-!
# What a replay and a remote operation do

When the log reads back as `ops`, `replayFromStorage` leaves the stores that `forwardAll ops` makes
of the reset stores, and the clock, the version vector and the counter have seen every operation.
-/

namespace Treecrdt

open Exec

/-- The version vector after observing operations. -/
def observeOps (vv : VersionVector) (ops : List Operation) : VersionVector :=
  ops.foldl (fun vv op => vv.observe op.metadata.id.replica op.metadata.id.counter) vv

/-- The clock after observing operations. -/
def observeLamports {C : Type} [Clock C] (clock : C) (ops : List Operation) : C :=
  ops.foldl (fun clock op => Clock.observe op.metadata.lamport clock) clock

namespace TreeCrdt

section

variable {S C N P : Type}

theorem onNodes_run {α : Type} {t : TreeCrdt S C N P} {c : Exec Error N α} {a : α} {n : N}
    (h : c t.nodes = some (.ok a, n)) : onNodes c t = some (.ok a, { t with nodes := n }) :=
  zoom_of_ok h

theorem onNodes_some {α : Type} {t t' : TreeCrdt S C N P} {c : Exec Error N α}
    {r : Except Error α} (h : onNodes c t = some (r, t')) :
    ∃ n, c t.nodes = some (r, n) ∧ t' = { t with nodes := n } := zoom_some h

theorem onPayloads_run {α : Type} {t : TreeCrdt S C N P} {c : Exec Error P α} {a : α} {p : P}
    (h : c t.payloads = some (.ok a, p)) :
    onPayloads c t = some (.ok a, { t with payloads := p }) := zoom_of_ok h

theorem onStores_run {α : Type} {t : TreeCrdt S C N P} {c : Exec Error (N × P) α} {a : α}
    {s : N × P} (h : c (t.nodes, t.payloads) = some (.ok a, s)) :
    onStores c t = some (.ok a, { t with nodes := s.1, payloads := s.2 }) := zoom_of_ok h

theorem onStorage_run {α : Type} {t : TreeCrdt S C N P} {c : Exec Error S α} {a : α} {s : S}
    (h : c t.storage = some (.ok a, s)) : onStorage c t = some (.ok a, { t with storage := s }) :=
  zoom_of_ok h

end

variable {S C N P : Type} [Clock C] [NodeStore N] [PayloadStore P]

theorem replayRows_run {ops : List Operation} {t : TreeCrdt S C N P} {s : N × P}
    (h : forwardAll ops (t.nodes, t.payloads) = some (.ok (), s)) (head : Option Operation)
    (seq : UInt64) :
    ∃ seq', replayRows (ops.map .ok) head seq t = some (.ok (ops.getLast?.or head, seq'),
      { t with
        clock := observeLamports t.clock ops
        versionVector := observeOps t.versionVector ops
        nodes := s.1, payloads := s.2 }) := by
  induction ops generalizing t head seq with
  | nil =>
    cases h
    exact ⟨seq, rfl⟩
  | cons op ops ih =>
    obtain ⟨snap, s₁, hop, hrest⟩ := forwardAll_cons_ok h
    let t₁ : TreeCrdt S C N P := { t with
      clock := Clock.observe op.metadata.lamport t.clock
      versionVector := t.versionVector.observe op.metadata.id.replica op.metadata.id.counter }
    have hrun : replayRows ((op :: ops).map .ok) head seq t =
        replayRows (ops.map .ok) (some op) (seq + 1) { t₁ with nodes := s₁.1, payloads := s₁.2 } := by
      rw [List.map_cons, replayRows, modify_bind_run, bind_of_ok (onStores_run (t := t₁) hop)]
    obtain ⟨seq', hih⟩ := ih (t := { t₁ with nodes := s₁.1, payloads := s₁.2 }) hrest (some op)
      (seq + 1)
    refine ⟨seq', ?_⟩
    rw [hrun, hih]
    cases ops <;> rfl

/-- A replay whose fold returns: the stores are those of the fold, `head` is the last operation of
the log, and the counter covers what the version vector saw. -/
theorem replayFromStorage_run [Storage S] {ops : List Operation} {t : TreeCrdt S C N P} {n : N} {p : P}
    {s : N × P} (hrows : Storage.scanSince t.storage 0 = ops.map .ok)
    (hn : NodeStore.reset t.nodes = some (.ok (), n))
    (hp : PayloadStore.reset t.payloads = some (.ok (), p))
    (h : forwardAll ops (n, p) = some (.ok (), s)) :
    ∃ opCount, replayFromStorage t = some (.ok (), { t with
      clock := observeLamports t.clock ops
      versionVector := observeOps .new ops
      nodes := s.1, payloads := s.2
      head := ops.getLast?
      opCount
      counter := max t.counter ((observeOps .new ops).get t.replicaId) }) := by
  let t₁ : TreeCrdt S C N P := { t with
    versionVector := .new, nodes := n, payloads := p, head := none, opCount := 0 }
  obtain ⟨seq, hrun⟩ := replayRows_run (t := t₁) h none 0
  refine ⟨seq, ?_⟩
  have hreset : replayFromStorage t = (do
      let r ← replayRows (ops.map .ok) none 0
      modify fun t => { t with head := r.1, opCount := r.2 }
      modify fun t => { t with counter := max t.counter (t.versionVector.get t.replicaId) }) t₁ := by
    unfold replayFromStorage
    rw [modify_bind_run, bind_of_ok (onNodes_run (t := { t with versionVector := .new }) hn),
      bind_of_ok (onPayloads_run (t := { t with versionVector := .new, nodes := n }) hp),
      modify_bind_run, gets_bind_run]
    simp only [hrows]
    rfl
  rw [hreset, bind_of_ok hrun]
  simp only [modify_bind_run, modify_run, Option.or_none]
  rfl

/-! ## Remote operations -/

variable [Storage S] {op : Operation} {t : TreeCrdt S C N P} {st : S}

theorem applyRemote_duplicate (h : Storage.apply op t.storage = some (.ok false, st)) :
    applyRemote op t = some (.ok (), { observed op t with storage := st }) := by
  unfold applyRemote
  rw [modify_bind_run, bind_of_ok (onStorage_run (t := observed op t) h)]
  rfl

theorem applyRemote_inOrder {snap : NodeSnapshot} {s : N × P}
    (h : Storage.apply op t.storage = some (.ok true, st)) (hord : t.isInOrder op)
    (hop : applyForward op (t.nodes, t.payloads) = some (.ok snap, s)) :
    applyRemote op t = some (.ok (), { observed op t with
      storage := st, nodes := s.1, payloads := s.2
      opCount := t.opCount + 1, head := some op }) := by
  unfold applyRemote
  rw [modify_bind_run, bind_of_ok (onStorage_run (t := observed op t) h)]
  simp only [Bool.not_true, Bool.false_eq_true, if_false]
  rw [gets_bind_run, if_pos (show isInOrder { observed op t with storage := st } op = true from hord),
    bind_of_ok (onStores_run (t := { observed op t with storage := st }) hop), modify_bind_run]
  rfl

theorem applyRemote_replay (h : Storage.apply op t.storage = some (.ok true, st))
    (hord : ¬ t.isInOrder op) :
    applyRemote op t = replayFromStorage { observed op t with storage := st } := by
  unfold applyRemote
  rw [modify_bind_run, bind_of_ok (onStorage_run (t := observed op t) h)]
  simp only [Bool.not_true, Bool.false_eq_true, if_false]
  rw [gets_bind_run,
    if_neg (show ¬ isInOrder { observed op t with storage := st } op = true from hord)]

/-- But for the delta, `applyRemoteWithDelta` is `applyRemote` with the counter raised first. -/
theorem applyRemoteWithDelta_eq (op : Operation) (t : TreeCrdt S C N P) :
    (do let _ ← applyRemoteWithDelta op) t = applyRemote op (raised op t) := by
  have hcomm : raised op (observed op t) = observed op (raised op t) := by
    unfold raised observed
    split_ifs <;> rfl
  unfold applyRemoteWithDelta applyRemote
  simp only [bind_assoc, modify_bind_run, hcomm]
  generalize observed op (raised op t) = t₁
  simp only [bind_run]
  rcases onStorage (Storage.apply op) t₁ with _ | ⟨e | _ | _, t₂⟩
  · rfl
  · rfl
  · rfl
  simp only [Bool.not_true, Bool.false_eq_true, if_false, gets_bind_run]
  by_cases hord : t₂.isInOrder op
  · simp only [hord, if_true, bind_run]
    rcases onStores (applyForward op) t₂ with _ | ⟨e | snap, t₃⟩ <;> rfl
  · simp only [hord, Bool.false_eq_true, if_false, bind_run]
    rcases replayFromStorage t₂ with _ | ⟨e | _, t₃⟩ <;> rfl

/-! ## Another log -/

section

variable {S S' C N P : Type}

/-- The tree over another log. -/
def withStorage (storage : S') (t : TreeCrdt S C N P) : TreeCrdt S' C N P :=
  ⟨t.replicaId, storage, t.clock, t.counter, t.nodes, t.versionVector, t.payloads, t.head, t.opCount⟩

variable [Clock C] [NodeStore N] [PayloadStore P]

theorem replayRows_mirrors (storage : S') (rows : List (Except Error Operation))
    (head : Option Operation) (seq : UInt64) :
    Mirrors (withStorage (S := S) (C := C) (N := N) (P := P) storage) (replayRows rows head seq)
      (replayRows rows head seq) := by
  induction rows generalizing head seq with
  | nil => exact .pure _
  | cons row rows ih =>
    cases row with
    | error e => exact .throw e
    | ok op =>
      refine .bind (.modify fun _ => rfl) fun _ => .bind ?_ fun _ => ih _ _
      exact .zoom _ (fun _ => rfl) fun _ _ => rfl

/-- The replay over the rows that the log has. -/
def replayScanned (rows : List (Except Error Operation)) : Exec Error (TreeCrdt S C N P) Unit := do
  modify fun t => { t with versionVector := .new }
  onNodes NodeStore.reset
  onPayloads PayloadStore.reset
  modify fun t => { t with head := none, opCount := 0 }
  let (head, seq) ← replayRows rows none 0
  modify fun t => { t with head, opCount := seq }
  modify fun t => { t with counter := max t.counter (t.versionVector.get t.replicaId) }

theorem replayFromStorage_eq [Storage S] (t : TreeCrdt S C N P) :
    replayFromStorage t = replayScanned (Storage.scanSince t.storage 0) t := by
  unfold replayFromStorage replayScanned
  rw [modify_bind_run, modify_bind_run]
  refine bind_congr_ok rfl fun _ t₁ h₁ => bind_congr_ok rfl fun _ t₂ h₂ => ?_
  obtain ⟨n, -, rfl⟩ := zoom_some h₁
  obtain ⟨p, -, rfl⟩ := zoom_some h₂
  rfl

theorem replayScanned_mirrors (storage : S') (rows : List (Except Error Operation)) :
    Mirrors (withStorage (S := S) (C := C) (N := N) (P := P) storage) (replayScanned rows)
      (replayScanned rows) := by
  unfold replayScanned
  refine .bind (.modify fun _ => rfl) fun _ => .bind (.zoom _ (fun _ => rfl) fun _ _ => rfl) fun _ =>
    .bind (.zoom _ (fun _ => rfl) fun _ _ => rfl) fun _ => .bind (.modify fun _ => rfl) fun _ =>
    .bind (replayRows_mirrors storage rows none 0) fun _ => .bind (.modify fun _ => rfl) fun _ =>
    .modify fun _ => rfl

/-- The replay knows the log by its rows only. -/
theorem replayFromStorage_withStorage [Storage S] [Storage S'] {storage : S'} {t : TreeCrdt S C N P}
    (h : Storage.scanSince storage 0 = Storage.scanSince t.storage 0) :
    replayFromStorage (t.withStorage storage) =
      (replayFromStorage t).map fun r => (r.1, r.2.withStorage storage) := by
  rw [replayFromStorage_eq, replayFromStorage_eq, ← replayScanned_mirrors]
  exact congrArg (fun rows => replayScanned rows (t.withStorage storage)) h

end

end TreeCrdt

end Treecrdt
