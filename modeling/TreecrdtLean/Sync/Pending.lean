import TreecrdtLean.Sync.Handlers

/-!
# Pending operations are retried

After its work every handler wants the pending operations retried, and one pass runs at a time. If
no handler comes while a pass runs, and none fails with its work half done, no operation that is
allowed stays behind (`settled_of_finished`): a handler that has changed something is still to
start a pass, or its pass has yet to look at what is pending. A handler that comes while a pass runs
only waits for it, and that pass may have looked already (`second_stranded`).
-/

namespace Treecrdt

namespace Sync

open Auth

variable {FilterId Op OpAuth Ref AuthSt Applied : Type} [DecidableEq Ref]
variable {hooks : Hooks Op OpAuth Ref AuthSt Applied}
variable {s s' : Peer FilterId Op OpAuth Ref AuthSt Applied} {action : Action FilterId Op OpAuth}

/-- No pending operation is one that `verifyOps` allows now. -/
def Peer.Settled (hooks : Hooks Op OpAuth Ref AuthSt Applied)
    (s : Peer FilterId Op OpAuth Ref AuthSt Applied) : Prop :=
  ∀ p ∈ s.pending.values, retry hooks s.auth s.applied p ≠ .apply

/-- Nothing is under way. -/
structure Peer.Finished (s : Peer FilterId Op OpAuth Ref AuthSt Applied) : Prop where
  pass : s.pass = none
  handlers : ∀ filterId, s.handlers filterId = none
  queues : ∀ filterId, s.queues filterId = []

/-- No handler comes to `reprocessPendingOps` while a pass runs, none fails behind
`onVerifiedOps`, and no pass fails. -/
def undisturbed (s : Peer FilterId Op OpAuth Ref AuthSt Applied) :
    Action FilterId Op OpAuth → Bool
  | .enter _ => s.pass.isNone
  | .fail filterId =>
    match s.handlers filterId with
    | some (.verified _ _) => true
    | _ => false
  | .failPass => false
  | _ => true

/-! ## The invariant -/

/-- The handler has changed something, and has not come to `reprocessPendingOps`. -/
def Handler.Dirty : Handler FilterId Op OpAuth → Prop
  | storing _ _ | applying _ | entering => True
  | _ => False

def Peer.Dirty (s : Peer FilterId Op OpAuth Ref AuthSt Applied) : Prop :=
  ∃ filterId, ∃ handler ∈ s.handlers filterId, handler.Dirty

/-- What the pass has seen so far: if it made no progress, what it has looked at stays. -/
def Peer.Seen (hooks : Hooks Op OpAuth Ref AuthSt Applied)
    (s : Peer FilterId Op OpAuth Ref AuthSt Applied) : Prop :=
  match s.pass with
  | none => s.Settled hooks
  | some (.checking _ progress remaining) => progress = true ∨
      ∀ p ∈ s.pending.values, p ∉ remaining → retry hooks s.auth s.applied p ≠ .apply
  | some _ => True

/-- The invariant of undisturbed runs. -/
def Peer.Attended (hooks : Hooks Op OpAuth Ref AuthSt Applied)
    (s : Peer FilterId Op OpAuth Ref AuthSt Applied) : Prop :=
  s.Dirty ∨ s.Seen hooks

/-! ## Handlers -/

section

variable [DecidableEq FilterId]

omit [DecidableEq Ref] in
/-- A clean handler goes on. -/
theorem Peer.Attended.setHandler {filterId : FilterId}
    {handler : Option (Handler FilterId Op OpAuth)} (h : s.Attended hooks)
    (hclean : ∀ old ∈ s.handlers filterId, ¬ old.Dirty) :
    (s.setHandler filterId handler).Attended hooks := by
  obtain ⟨other, old, hold, hdirty⟩ | hseen := h
  · have hne : other ≠ filterId := by
      rintro rfl
      exact hclean old hold hdirty
    exact Or.inl ⟨other, old, by simpa [Peer.setHandler, hne] using hold, hdirty⟩
  · exact Or.inr hseen

omit [DecidableEq Ref] in
theorem Peer.dirty_setHandler {filterId : FilterId} {handler : Handler FilterId Op OpAuth}
    (h : handler.Dirty) : (s.setHandler filterId (some handler)).Dirty :=
  ⟨filterId, handler, by simp [Peer.setHandler], h⟩

end

omit [DecidableEq Ref] in
/-- Only a pending entry without auth is an error. -/
theorem splitEntries_ok {entries : List (Op × Option OpAuth × Disposition)}
    (h : ∀ entry ∈ entries, entry.2.1.isSome) : ∃ split, splitEntries entries = .ok split := by
  induction entries with
  | nil => exact ⟨_, rfl⟩
  | cons entry rest ih =>
    rw [List.forall_mem_cons] at h
    obtain ⟨split, hsplit⟩ := ih h.2
    obtain ⟨op, auth, disposition⟩ := entry
    obtain ⟨a, rfl⟩ := Option.isSome_iff_exists.mp h.1
    cases disposition <;> simp [splitEntries, hsplit, bind, Except.bind, pure, Except.pure]

omit [DecidableEq Ref] in
/-- A batch whose loop fails has filed nothing. -/
theorem fileAuth_of_split_error {auth auth' : AuthSt} {batch : OpsBatch FilterId Op OpAuth}
    {dispositions : Option (List Disposition)} {message : String}
    (h : splitEntries (batchEntries batch dispositions) = .error message)
    (hfile : fileAuth hooks auth batch = .ok auth') : auth' = auth := by
  cases hauth : batch.auth with
  | none =>
    rw [fileAuth, hauth] at hfile
    exact (Except.ok.inj hfile).symm
  | some entries =>
    obtain ⟨split, hsplit⟩ : ∃ split, splitEntries (batchEntries batch dispositions) = .ok split := by
      refine splitEntries_ok fun entry hentry => ?_
      rw [batchEntries, hauth] at hentry
      obtain ⟨op, a, d⟩ := entry
      have hzip := (List.of_mem_zip (List.of_mem_zip hentry).2).1
      obtain ⟨x, -, rfl⟩ := List.mem_map.mp hzip
      rfl
    cases hsplit.symm.trans h

variable [DecidableEq FilterId]

/-- A handler that goes on: it does its part, and a change makes it dirty until it starts a
pass. -/
theorem Peer.Attended.handle {filterId : FilterId} {handler : Handler FilterId Op OpAuth}
    (h : s.Attended hooks) (hhandler : s.handlers filterId = some handler)
    (hpass : ∀ other, action = .enter other → s.pass = none)
    (hfail : ∀ other, action = .fail other → ¬ handler.Dirty)
    (hstep : s.handle hooks filterId action handler = some s') : s'.Attended hooks := by
  have hclean : ¬ handler.Dirty → ∀ old ∈ s.handlers filterId, ¬ old.Dirty := by
    rintro hnot old hold
    obtain rfl : handler = old := Option.some.inj (hhandler.symm.trans hold)
    exact hnot
  cases handler with
  | verifying batch =>
    cases action <;> try cases hstep
    simp only [Peer.handle] at hstep
    split at hstep <;> cases hstep <;> exact h.setHandler (hclean id)
  | verified batch dispositions =>
    cases action <;> try cases hstep
    · simp only [Peer.handle] at hstep
      split at hstep
      · cases hstep
        exact h.setHandler (hclean id)
      · rename_i hfile hsplit
        obtain rfl := fileAuth_of_split_error hsplit hfile
        cases hstep
        exact h.setHandler (hclean id)
      · cases hstep
        exact Or.inl (Peer.dirty_setHandler trivial)
    · exact h.setHandler (hclean id)
  | storing pending allowed =>
    cases action <;> try cases hstep
    · exact Or.inl (Peer.dirty_setHandler trivial)
    · exact absurd trivial (hfail _ rfl)
  | applying allowed =>
    cases action <;> try cases hstep
    · exact Or.inl (Peer.dirty_setHandler trivial)
    · exact absurd trivial (hfail _ rfl)
  | entering =>
    cases action <;> try cases hstep
    -- The handler starts a pass, which has yet to look.
    have hnone := hpass _ rfl
    simp only [Peer.handle, hnone, Option.isSome_none, Bool.false_eq_true, if_false] at hstep
    cases hstep
    exact Or.inr trivial
  | waiting pass =>
    cases action <;> try cases hstep
    simp only [Peer.handle] at hstep
    split at hstep <;> cases hstep
    exact h.setHandler (hclean id)

/-! ## The pass -/

omit [DecidableEq FilterId] in
/-- The pass goes on: what it has looked at without progress stays pending. -/
theorem Peer.Seen.retryPending {pass : Pass Op OpAuth} (h : s.Seen hooks)
    (hpass : s.pass = some pass) (hfail : action ≠ .failPass)
    (hstep : s.retryPending hooks action pass = some s') : s'.Seen hooks := by
  unfold Peer.Seen at h
  rw [hpass] at h
  cases pass with
  | listing round =>
    cases action <;> try cases hstep
    · simp only [Peer.retryPending] at hstep
      split at hstep <;> rename_i hempty <;> cases hstep
      · intro p hp
        rw [List.isEmpty_iff] at hempty
        rw [show s.endPass.pending = s.pending from rfl, hempty] at hp
        cases hp
      · exact Or.inr fun p hp hnot => absurd hp hnot
    · exact absurd rfl hfail
  | checking round progress remaining =>
    cases action <;> try cases hstep
    · cases remaining with
      | nil =>
        simp only [Peer.retryPending] at hstep
        split at hstep
        · rename_i hprogress
          cases hstep
          obtain hprog | hseen := h
          · simp [hprog] at hprogress
          · exact fun p hp => hseen p hp List.not_mem_nil
        · split at hstep <;> cases hstep
          exact trivial
      | cons p remaining =>
        simp only [Peer.retryPending] at hstep
        split at hstep <;> rename_i hretry <;> cases hstep
        · exact trivial
        · obtain hprog | hseen := h
          · exact Or.inl hprog
          · refine Or.inr fun q hq hnot => ?_
            by_cases hqp : q = p
            · subst hqp
              exact fun happly => nomatch hretry.symm.trans happly
            · exact hseen q hq (by simp [hqp, hnot])
        · exact trivial
    · exact absurd rfl hfail
  | applying round p remaining =>
    cases action <;> try cases hstep
    · exact trivial
    · exact absurd rfl hfail
  | deleting round p remaining =>
    cases action <;> try cases hstep
    · exact Or.inl rfl
    · exact absurd rfl hfail

omit [DecidableEq FilterId] in
theorem Peer.retryPending_handlers {pass : Pass Op OpAuth}
    (hstep : s.retryPending hooks action pass = some s') : s'.handlers = s.handlers := by
  unfold Peer.retryPending at hstep
  split at hstep
  · split at hstep <;> cases hstep <;> rfl
  · split at hstep
    · cases hstep; rfl
    · split at hstep <;> cases hstep; rfl
  · split at hstep <;> cases hstep <;> rfl
  · cases hstep; rfl
  · cases hstep; rfl
  · cases hstep; rfl
  · cases hstep

/-! ## Runs -/

theorem Peer.Attended.step (h : s.Attended hooks) (hok : undisturbed s action)
    (hstep : s.step hooks action = some s') : s'.Attended hooks := by
  have hhandler : ∀ filterId, (∀ other, action = .enter other → s.pass = none) →
      (∀ other, action = .fail other → ∀ handler ∈ s.handlers filterId, ¬ handler.Dirty) →
      (s.handlers filterId).bind (s.handle hooks filterId action) = some s' →
      s'.Attended hooks := by
    intro filterId hpass hfail hbind
    obtain ⟨handler, hsome, hstep⟩ := Option.bind_eq_some_iff.mp hbind
    exact h.handle hsome hpass (fun other hother => hfail other hother handler hsome) hstep
  have hpass : action ≠ .failPass → s.pass.bind (s.retryPending hooks action) = some s' →
      s'.Attended hooks := by
    intro hfail hbind
    obtain ⟨pass, hsome, hstep⟩ := Option.bind_eq_some_iff.mp hbind
    obtain ⟨filterId, handler, hmem, hdirty⟩ | hseen := h
    · exact Or.inl ⟨filterId, handler, by rwa [retryPending_handlers hstep], hdirty⟩
    · exact Or.inr (hseen.retryPending hsome hfail hstep)
  cases action with
  | receive batch =>
    cases hstep
    exact h
  | begin filterId =>
    simp only [Peer.step] at hstep
    split at hstep
    · rename_i hnone
      cases hstep
      exact Peer.Attended.setHandler (s := { s with queues := _ }) h (by simp [hnone])
    · cases hstep
  | enter filterId =>
    exact hhandler filterId (fun _ _ => Option.isNone_iff_eq_none.mp hok) (fun _ e => nomatch e)
      hstep
  | fail filterId =>
    refine hhandler filterId (fun _ e => nomatch e) (fun _ _ handler hmem => ?_) hstep
    rw [undisturbed, Option.mem_def.mp hmem] at hok
    cases handler <;> first | exact id | cases hok
  | verify filterId | onVerified filterId | store filterId | apply filterId | resume filterId =>
    exact hhandler filterId (fun _ e => nomatch e) (fun _ e => nomatch e) hstep
  | list | check | applyPending | deletePending => exact hpass (fun e => nomatch e) hstep
  | failPass => cases hok

/-- In every undisturbed run, once nothing is under way, no pending operation is one that
`verifyOps` would allow. -/
theorem settled_of_finished (hooks : Hooks Op OpAuth Ref AuthSt Applied)
    (s₀ s : Peer FilterId Op OpAuth Ref AuthSt Applied) (hstart : s₀.Finished)
    (hsettled : s₀.Settled hooks) (hrun : Peer.Run hooks (fun s action => undisturbed s action) s₀ s) (hend : s.Finished) :
    s.Settled hooks := by
  have hinv : s.Attended hooks := by
    clear hend
    induction hrun with
    | start =>
      refine Or.inr ?_
      rw [Peer.Seen, hstart.pass]
      exact hsettled
    | step _ hok hstep ih => exact ih.step hok hstep
  obtain ⟨filterId, handler, hmem, -⟩ | hseen := hinv
  · rw [hend.handlers filterId] at hmem
    cases hmem
  · rwa [Peer.Seen, hend.pass] at hseen

/-! Operation `2` needs the context of operation `1`. A pass has looked at `2` when the handler of
`1` applies it, and that handler only waits. -/

def contextHooks : Hooks ℕ Unit ℕ Unit (List ℕ) where
  verifyOps _ applied ops _ :=
    .ok (some (ops.map fun op => if op = 2 ∧ 1 ∉ applied then .pendingContext else .allow))
  onVerifiedOps auth _ _ := .ok auth
  applyOps applied ops := applied ++ ops
  opRef := id

/-- A peer with two filters that was just made. -/
def quietPeer : Peer Bool ℕ Unit ℕ Unit (List ℕ) where
  auth := ()
  applied := []
  pending := .empty
  queues := fun _ => []
  handlers := fun _ => none
  pass := none
  passes := 0

def strandingRun : List (Action Bool ℕ Unit) :=
  [.receive ⟨false, [2], some [()]⟩, .begin false, .verify false, .onVerified false, .store false,
    .apply false, .enter false, .list,
    .receive ⟨true, [1], some [()]⟩, .begin true, .verify true, .onVerified true, .store true,
    .check, .apply true, .enter true, .check, .resume false, .resume true]

theorem quietPeer_finished : quietPeer.Finished := ⟨rfl, fun _ => rfl, fun _ => rfl⟩

theorem quietPeer_settled : quietPeer.Settled contextHooks := fun _ hp => nomatch hp

/-- Both handlers have finished, and `2` stays pending. -/
theorem second_stranded : ∃ s, Peer.Run contextHooks (fun _ _ => true) quietPeer s ∧
    s.Finished ∧ ¬ s.Settled contextHooks := by
  have hrun : (Peer.steps contextHooks (fun _ _ => true) quietPeer strandingRun).any (fun s =>
      s.pass.isNone && (s.handlers false).isNone && (s.handlers true).isNone &&
        (s.queues false).isEmpty && (s.queues true).isEmpty &&
        s.pending.values.any fun p => retry contextHooks s.auth s.applied p = .apply) = true := by
    decide +kernel
  obtain ⟨s, hsteps, hs⟩ := Option.any_eq_true _ _ |>.mp hrun
  simp only [Bool.and_eq_true, Option.isNone_iff_eq_none, List.isEmpty_iff, List.any_eq_true,
    decide_eq_true_eq] at hs
  obtain ⟨⟨⟨⟨⟨hpass, hh⟩, hh'⟩, hq⟩, hq'⟩, p, hp, happly⟩ := hs
  exact ⟨s, Peer.Run.steps .start hsteps, ⟨hpass, Bool.forall_bool.mpr ⟨hh, hh'⟩,
    Bool.forall_bool.mpr ⟨hq, hq'⟩⟩, fun hsettled => hsettled p hp happly⟩

/-- The same batches, one handled after the other. -/
def attendedRun : List (Action Bool ℕ Unit) :=
  [.receive ⟨false, [2], some [()]⟩, .begin false, .verify false, .onVerified false, .store false,
    .apply false, .enter false, .list, .check, .check, .resume false,
    .receive ⟨true, [1], some [()]⟩, .begin true, .verify true, .onVerified true, .store true,
    .apply true, .enter true, .list, .check, .applyPending, .deletePending, .check, .list,
    .resume true]

/-- The witness: both operations are applied, and nothing stays pending. -/
theorem settled_of_finished_attended : ∃ s,
    Peer.Run contextHooks (fun s action => undisturbed s action) quietPeer s ∧
      s.applied = [1, 2] ∧ s.Settled contextHooks := by
  have hrun : (Peer.steps contextHooks undisturbed quietPeer attendedRun).any (fun s =>
      s.pass.isNone && (s.handlers false).isNone && (s.handlers true).isNone &&
        (s.queues false).isEmpty && (s.queues true).isEmpty && s.applied = [1, 2]) = true := by
    decide +kernel
  obtain ⟨s, hsteps, hs⟩ := Option.any_eq_true _ _ |>.mp hrun
  simp only [Bool.and_eq_true, Option.isNone_iff_eq_none, List.isEmpty_iff,
    decide_eq_true_eq] at hs
  obtain ⟨⟨⟨⟨⟨hpass, hh⟩, hh'⟩, hq⟩, hq'⟩, happlied⟩ := hs
  have hrun := Peer.Run.steps .start hsteps
  exact ⟨s, hrun, happlied, settled_of_finished contextHooks quietPeer s quietPeer_finished
    quietPeer_settled hrun ⟨hpass, Bool.forall_bool.mpr ⟨hh, hh'⟩,
      Bool.forall_bool.mpr ⟨hq, hq'⟩⟩⟩

end Sync

end Treecrdt
