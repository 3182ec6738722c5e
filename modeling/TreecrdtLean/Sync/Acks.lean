import TreecrdtLean.Sync.Batches

/-!
# The answer to an upload

The queue of a filter goes on behind a batch whose handler throws, and nothing remembers that it
threw. So the answer is sent for the first last batch that is handled, whatever came before it, and
it says that all was handled if and only if no handler throws before that batch
(`ackMeansSuccess_iff`).
-/

namespace Treecrdt

namespace Sync

variable {W Op OpAuth : Type}

/-- What becomes of a batch. -/
structure Outcome where
  done : Bool
  /-- Its handler came to its end. -/
  handled : Bool
  deriving DecidableEq

/-- A batch that may be answered. -/
def Outcome.completes (x : Outcome) : Bool := x.done && x.handled

structure Report extends Outcome where
  /-- The empty batch was sent in answer to it. -/
  acked : Bool
  deriving DecidableEq

/-- The batches of the queue of a filter; one that never returns holds up what is behind it. -/
def handleAll (callbacks : Callbacks W Op OpAuth) :
    SyncPeer W → List (IncomingBatch Op OpAuth) → List Report
  | _, [] => []
  | s, batch :: batches =>
    match handleOpsBatch callbacks batch s with
    | some (.ok handled, s') =>
      { done := batch.done, handled
        acked := (s'.sent.drop s.sent.length).contains (.doneOpsBatch batch.filterId) } ::
          handleAll callbacks s' batches
    | _ => []

/-- Where a batch is answered, every batch before it was handled. -/
def AckMeansSuccess (reports : List Report) : Prop :=
  ∀ before report after, reports = before ++ report :: after → report.acked →
    ∀ x ∈ before, x.handled

/-! ## What the callbacks do -/

/-- What the callbacks do with the batches, and what the sessions of the initiator see of it. -/
def outcomes (callbacks : Callbacks W Op OpAuth) :
    W → Initiator → List (IncomingBatch Op OpAuth) → List Outcome
  | _, _, [] => []
  | world, initiator, batch :: batches =>
    match handleOps callbacks batch (purposeOf initiator batch.filterId) world with
    | none => []
    | some (.ok (), world) =>
      ⟨batch.done, true⟩ :: outcomes callbacks world (finishSession batch initiator) batches
    | some (.error message, world) =>
      ⟨batch.done, false⟩ :: outcomes callbacks world
        (onError (opsBatchError initiator batch.filterId message) initiator) batches

/-- Whether an answer is owed to a handled last batch behind as many others of them: to the first if
the responder waits for one, to the second if a session and an upload were open at once. -/
def owed (session : Option ResponderSession) (upload : Bool) : ℕ → Bool
  | 0 => session.elim upload (·.awaitingIncomingDone)
  | 1 => session.isSome && upload
  | _ => false

def SyncPeer.owed (s : SyncPeer W) (filterId : String) : ℕ → Bool :=
  Sync.owed (s.responderSessions filterId) (s.responderAwaitingUploadAcks filterId)

/-- No handler throws before a handled last batch that is owed an answer. -/
def Clean (owed : ℕ → Bool) (outcomes : List Outcome) : Prop :=
  ∀ before x after, outcomes = before ++ x :: after → x.completes →
    owed (before.countP Outcome.completes) → ∀ y ∈ before, y.handled

/-! ## One batch -/

section

variable {callbacks : Callbacks W Op OpAuth} {batch : IncomingBatch Op OpAuth} {s : SyncPeer W}
variable {world : W}

@[simp] theorem acknowledge_initiator : (acknowledge batch s).initiator = s.initiator := by
  unfold acknowledge
  split <;> split <;> rfl

@[simp] theorem acknowledge_world : (acknowledge batch s).world = s.world := by
  unfold acknowledge
  split <;> split <;> rfl

theorem handleOpsBatch_ok
    (h : handleOps callbacks batch (purposeOf s.initiator batch.filterId) s.world =
      some (.ok (), world)) :
    handleOpsBatch callbacks batch s = some (.ok true, { acknowledge batch { s with world } with
      initiator := finishSession batch s.initiator }) := by
  simp [handleOpsBatch, onOpsBatch, Exec.orElse, Exec.zoom, Exec.bind_run, h]

theorem handleOpsBatch_error {message : String}
    (h : handleOps callbacks batch (purposeOf s.initiator batch.filterId) s.world =
      some (.error message, world)) :
    handleOpsBatch callbacks batch s = some (.ok false, { s with
      world
      initiator := onError (opsBatchError s.initiator batch.filterId message) s.initiator
      sent := s.sent ++ [.error (opsBatchError s.initiator batch.filterId message)] }) := by
  simp [handleOpsBatch, onOpsBatch, Exec.orElse, Exec.zoom, Exec.bind_run, h]

theorem handleOpsBatch_none
    (h : handleOps callbacks batch (purposeOf s.initiator batch.filterId) s.world = none) :
    handleOpsBatch callbacks batch s = none := by
  simp [handleOpsBatch, onOpsBatch, Exec.orElse, Exec.zoom, Exec.bind_run, h]

/-- The answer is sent if it is owed, and the next one is then the first. -/
theorem acknowledge_spec (batch : IncomingBatch Op OpAuth) (s : SyncPeer W) :
    (acknowledge batch s).sent =
        s.sent ++ (if batch.done && s.owed batch.filterId 0 then [.doneOpsBatch batch.filterId]
          else []) ∧
      ∀ k, (acknowledge batch s).owed batch.filterId k =
        s.owed batch.filterId (k + if batch.done then 1 else 0) := by
  cases hsession : s.responderSessions batch.filterId with
  | none =>
    cases hdone : batch.done <;> cases hupload : s.responderAwaitingUploadAcks batch.filterId <;>
      refine ⟨by simp [acknowledge, SyncPeer.owed, owed, hsession, hdone, hupload], fun k => ?_⟩ <;>
      rcases k with _ | _ | k <;>
      simp [acknowledge, SyncPeer.owed, owed, hsession, hdone, hupload]
  | some session =>
    cases hdone : batch.done <;> cases hawaits : session.awaitingIncomingDone <;>
      refine ⟨by simp [acknowledge, SyncPeer.owed, owed, hsession, hdone, hawaits], fun k => ?_⟩ <;>
      rcases k with _ | _ | k <;>
      simp [acknowledge, SyncPeer.owed, owed, hsession, hdone, hawaits]

/-- A last batch is answered if it is handled and owed an answer; what throws is forgotten. -/
theorem handleOpsBatch_spec {s' : SyncPeer W} {handled : Bool}
    (h : handleOpsBatch callbacks batch s = some (.ok handled, s')) :
    (s'.sent.drop s.sent.length).contains (.doneOpsBatch batch.filterId) =
        ((batch.done && handled) && s.owed batch.filterId 0) ∧
      ∀ k, s'.owed batch.filterId k =
        s.owed batch.filterId (k + if batch.done && handled then 1 else 0) := by
  rcases hrun : handleOps callbacks batch (purposeOf s.initiator batch.filterId) s.world with
    _ | ⟨message | _, world⟩
  · rw [handleOpsBatch_none hrun] at h
    cases h
  · rw [handleOpsBatch_error hrun] at h
    cases h
    rw [Bool.and_false, Bool.false_and, List.drop_left]
    exact ⟨rfl, fun k => rfl⟩
  · rw [handleOpsBatch_ok hrun] at h
    cases h
    obtain ⟨hsent, howed⟩ := acknowledge_spec batch { s with world }
    rw [Bool.and_true, hsent, List.drop_left]
    refine ⟨?_, howed⟩
    rw [show SyncPeer.owed { s with world } = s.owed from rfl]
    cases batch.done && s.owed batch.filterId 0 <;> simp

end

/-! ## The queue -/

variable {callbacks : Callbacks W Op OpAuth} {s : SyncPeer W}
variable {batches : List (IncomingBatch Op OpAuth)} {filterId : String}

/-- The peer handles and throws as its callbacks do. -/
theorem handleAll_outcomes :
    (handleAll callbacks s batches).map Report.toOutcome =
      outcomes callbacks s.world s.initiator batches := by
  induction batches generalizing s with
  | nil => rfl
  | cons batch batches ih =>
    rw [handleAll, outcomes]
    rcases hrun : handleOps callbacks batch (purposeOf s.initiator batch.filterId) s.world with
      _ | ⟨message | _, world⟩
    · rw [handleOpsBatch_none hrun]
      rfl
    · rw [handleOpsBatch_error hrun]
      exact congrArg (_ :: ·) ih
    · rw [handleOpsBatch_ok hrun]
      refine congrArg (_ :: ·) (ih.trans ?_)
      rw [acknowledge_world]

theorem handleAll_cons_eq {batch : IncomingBatch Op OpAuth} {before : List Report}
    {report : Report} {after : List Report}
    (h : handleAll callbacks s (batch :: batches) = before ++ report :: after) :
    ∃ handled s', handleOpsBatch callbacks batch s = some (.ok handled, s') ∧
      (before = [] ∧ report = ⟨⟨batch.done, handled⟩,
          (s'.sent.drop s.sent.length).contains (.doneOpsBatch batch.filterId)⟩ ∨
        ∃ first rest, before = first :: rest ∧ first.toOutcome = ⟨batch.done, handled⟩ ∧
          handleAll callbacks s' batches = rest ++ report :: after) := by
  rw [handleAll] at h
  split at h
  · rename_i handled s' hrun
    refine ⟨handled, s', hrun, ?_⟩
    obtain ⟨hbefore, hreport⟩ | ⟨rest, hbefore, hrest⟩ := List.cons_eq_append_iff.mp h
    · exact Or.inl ⟨hbefore, (List.cons.inj hreport).1⟩
    · exact Or.inr ⟨_, rest, hbefore, rfl, hrest⟩
  · simp at h

/-- What is answered: a handled last batch that an answer is owed to. -/
theorem handleAll_acked (hstream : ∀ batch ∈ batches, batch.filterId = filterId)
    {before : List Report} {report : Report} {after : List Report}
    (h : handleAll callbacks s batches = before ++ report :: after) :
    report.acked = (report.completes &&
      s.owed filterId (before.countP fun x => x.completes)) := by
  induction batches generalizing s before with
  | nil => simp [handleAll] at h
  | cons batch batches ih =>
    obtain ⟨rfl, hstream⟩ := List.forall_mem_cons.mp hstream
    obtain ⟨handled, s', hrun, ⟨rfl, rfl⟩ | ⟨first, rest, rfl, hfirst, hrest⟩⟩ :=
      handleAll_cons_eq h
    · exact (handleOpsBatch_spec hrun).1
    · rw [ih hstream hrest, (handleOpsBatch_spec hrun).2, List.countP_cons, hfirst]
      rfl

/-- The answer to an upload says that all of it was handled if and only if no handler throws before
the handled last batch that is answered. -/
theorem ackMeansSuccess_iff (callbacks : Callbacks W Op OpAuth) (s : SyncPeer W) (filterId : String)
    (batches : List (IncomingBatch Op OpAuth))
    (hstream : ∀ batch ∈ batches, batch.filterId = filterId) :
    AckMeansSuccess (handleAll callbacks s batches) ↔
      Clean (s.owed filterId) (outcomes callbacks s.world s.initiator batches) := by
  rw [← handleAll_outcomes]
  constructor
  · intro h before x after hsplit hcompletes howed
    obtain ⟨before, rest, hreports, rfl, hrest⟩ := List.map_eq_append_iff.mp hsplit
    obtain ⟨report, after, rfl, rfl, rfl⟩ := List.map_eq_cons_iff.mp hrest
    have hacked := handleAll_acked hstream hreports
    rw [List.countP_map] at howed
    rw [hcompletes, show s.owed filterId (before.countP fun x => x.completes) = true from howed]
      at hacked
    exact List.forall_mem_map.mpr (h before report after hreports hacked)
  · intro h before report after hreports hacked
    rw [handleAll_acked hstream hreports, Bool.and_eq_true] at hacked
    have hsplit : (handleAll callbacks s batches).map Report.toOutcome =
        before.map Report.toOutcome ++ report.toOutcome :: after.map Report.toOutcome := by
      rw [hreports, List.map_append, List.map_cons]
    refine List.forall_mem_map.mp (h _ _ _ hsplit hacked.1 ?_)
    rw [List.countP_map]
    exact hacked.2

/-! An upload of two batches, of which the backend cannot apply the first. -/

/-- The backend holds the operations that it applied, and has no room for `1`. -/
def fullCallbacks : Callbacks (List ℕ) ℕ Unit where
  verifyOps := none
  onVerifiedOps := none
  storePendingOps := none
  listPendingOps := none
  deletePendingOps := none
  applyOps ops := do
    if 1 ∈ ops then Exec.throw "database or disk is full"
    Exec.modify (· ++ ops)

/-- A responder that waits for the upload of `f`. -/
def awaitingPeer : SyncPeer (List ℕ) where
  world := []
  initiator := ⟨.empty, .empty, [], []⟩
  responderSessions _ := none
  responderAwaitingUploadAcks filterId := filterId = "f"
  sent := []

def upload (ops : List ℕ) : List (IncomingBatch ℕ Unit) :=
  ops.map fun op => { filterId := "f", ops := [op], auth := none, done := op = 3 }

/-- Of three batches that are handled the last is answered. -/
theorem ackMeansSuccess_iff_upload :
    (handleAll fullCallbacks awaitingPeer (upload [0, 2, 3])).map Report.acked =
        [false, false, true] ∧
      AckMeansSuccess (handleAll fullCallbacks awaitingPeer (upload [0, 2, 3])) := by
  refine ⟨by decide +kernel, (ackMeansSuccess_iff fullCallbacks awaitingPeer "f" _ ?_).mpr ?_⟩
  · intro batch hbatch
    obtain ⟨op, -, rfl⟩ := List.mem_map.mp hbatch
    rfl
  · have hhandled : ∀ x ∈ outcomes fullCallbacks [] awaitingPeer.initiator (upload [0, 2, 3]),
        x.handled := by decide +kernel
    rintro before x after hsplit - - y hy
    exact hhandled y (hsplit ▸ List.mem_append_left _ hy)

/-- The first batch is lost, and the upload is answered. -/
theorem lost_batch_acknowledged :
    ¬ AckMeansSuccess (handleAll fullCallbacks awaitingPeer (upload [1, 3])) := by
  intro h
  have hreports : handleAll fullCallbacks awaitingPeer (upload [1, 3]) =
      [⟨⟨false, false⟩, false⟩, ⟨⟨true, true⟩, true⟩] := by decide +kernel
  exact absurd (h _ _ _ (hreports.trans rfl) rfl _ (List.mem_singleton_self _)) (by decide)

end Sync

end Treecrdt
