import TreecrdtLean.Lib.Trace
import TreecrdtLean.Sync.DocLifecycle

/-!
# Writes under way when a document closes

A context runs the batches of its `applyQueue` one after another, so that the writes of a document
do not overlap. Nothing that closes a context looks at the queue: the last handle may be given back,
the timer fire or the store shut down while a batch runs, and a handle that is given back still
takes batches. The backend is then closed under the batch, and a context that opens the document
again runs its own queue beside the old one.

Where each step that closes a context finds its queue empty, and no batch is handed to a closed one,
a closed context has nothing to run, and so at most one batch of a document runs at a time
(`Store.run_drained_iff`).
-/

namespace Treecrdt

namespace Sync

namespace DocStore

variable {Op : Type}

/-- No call of `backend.applyOps` is running or queued. -/
def DocContext.Idle (ctx : DocContext Op) : Prop := ctx.applyQueue = [] ∧ ctx.running = none

theorem DocContext.idle_shut {ctx : DocContext Op} : ctx.shut.Idle ↔ ctx.Idle := by
  unfold shut
  split <;> rfl

theorem DocContext.shut_shut (ctx : DocContext Op) : ctx.shut.shut = ctx.shut :=
  if_pos ctx.closed_shut

namespace Store

/-- No call of `applyOps` is running or queued at a closed backend. -/
def ClosedIdle (s : Store Op) : Prop :=
  ∀ x ctx, s.context? x = some ctx → ctx.closed = true → ctx.Idle

/-- Nor do two calls run at once for one document. -/
structure Drained (s : Store Op) : Prop where
  closed_idle : s.ClosedIdle
  one_running : ∀ x x' ctx ctx', s.context? x = some ctx → s.context? x' = some ctx' →
    ctx.running ≠ none → ctx'.running ≠ none → ctx.docId = ctx'.docId → x = x'

/-- The step closes no context that has a batch running or queued, and queues none at a closed
context. -/
def Drains (idleCloseMs : ℚ) (s : Store Op) : Event Op → Prop
  | .release c => ∀ x ctx, s.calls c = some (.handle x false) → s.context? x = some ctx →
      ctx.closed = false → ctx.connections ≤ 1 → s.closing = true ∨ idleCloseMs = 0 → ctx.Idle
  | .closeTimer x => ∀ ctx, s.context? x = some ctx → ctx.connections = 0 → ctx.Idle
  | .openingsSettled => ∀ x ∈ s.docs.values, ∀ ctx, s.context? x = some ctx → ctx.Idle
  | .applyOps c ops => ∀ x released ctx, s.calls c = some (.handle x released) →
      s.context? x = some ctx → ops.length ≠ 0 → ctx.closed = false
  | _ => True

variable {s s' : Store Op} {x y c : Id} {op op' : Opening Op} {ctx ctx' : DocContext Op}

/-- What runs is not at a closed context, and the others are one for each document. -/
theorem Sound.drained_iff (h : s.Sound) : s.Drained ↔ s.ClosedIdle := by
  refine ⟨Drained.closed_idle, fun hidle => ⟨hidle, ?_⟩⟩
  have hopen : ∀ x ctx, s.context? x = some ctx → ctx.running ≠ none → ctx.closed = false :=
    fun x ctx hctx hrunning => by
      by_contra hclosed
      exact hrunning (hidle x ctx hctx (by simpa using hclosed)).2
  exact fun x x' ctx ctx' hctx hctx' hrunning hrunning' =>
    h.lifecycleKept.one_live x x' ctx ctx' hctx hctx' (hopen x ctx hctx hrunning)
      (hopen x' ctx' hctx' hrunning')

/-! ## One step -/

/-- A step that leaves the contexts as they are. -/
theorem ClosedIdle.congr (h : s.ClosedIdle) (hctx : ∀ y, s'.context? y = s.context? y) :
    s'.ClosedIdle :=
  fun x ctx hx => h x ctx (hctx x ▸ hx)

theorem context?_setOpening :
    (s.setOpening x op).context? y = if y = x then op.context else s.context? y := by
  rw [context?, openings_setOpening]
  split <;> rfl

theorem context?_setOpening_same (hop : s.openings x = some op)
    (hsame : op'.context = op.context) : (s.setOpening x op').context? y = s.context? y := by
  rw [context?_setOpening]
  split
  · rename_i hy
    rw [hy, context?_of_openings hop, hsame]
  · rfl

theorem ClosedIdle.setContext_iff (h : s.ClosedIdle) (hctx : s.context? x = some ctx) :
    (s.setContext x ctx').ClosedIdle ↔ (ctx'.closed = true → ctx'.Idle) := by
  constructor
  · exact fun h' => h' x ctx' ((context?_setContext hctx).trans (if_pos rfl))
  · intro hidle y ctx'' hy
    rw [context?_setContext hctx] at hy
    split at hy
    · cases hy
      exact hidle
    · exact h y ctx'' hy

theorem ClosedIdle.closeContext_iff (h : s.ClosedIdle) :
    (s.closeContext x).ClosedIdle ↔ ∀ ctx, s.context? x = some ctx → ctx.Idle := by
  constructor
  · intro h' ctx hctx
    have hshut : (s.closeContext x).context? x = some ctx.shut := by
      rw [context?_closeContext, if_pos rfl, hctx, Option.map_some]
    exact DocContext.idle_shut.mp (h' x _ hshut ctx.closed_shut)
  · intro hidle y ctx hy hclosed
    rw [context?_closeContext] at hy
    split at hy
    · obtain ⟨before, hbefore, rfl⟩ := Option.map_eq_some_iff.mp hy
      exact DocContext.idle_shut.mpr (hidle before hbefore)
    · exact h y ctx hy hclosed

theorem context?_closeContexts {l : List Id} : (s.closeContexts l).context? y =
    if y ∈ l then (s.context? y).map DocContext.shut else s.context? y := by
  induction l generalizing s with
  | nil => rfl
  | cons x l ih =>
    rw [show s.closeContexts (x :: l) = (s.closeContext x).closeContexts l from rfl, ih,
      context?_closeContext]
    rcases eq_or_ne y x with rfl | hne
    · rw [if_pos rfl, if_pos List.mem_cons_self]
      split
      · rw [Option.map_map]
        exact congrArg (Option.map · (s.context? y)) (funext DocContext.shut_shut)
      · rfl
    · rw [if_neg hne]
      simp only [List.mem_cons, hne, false_or]

theorem ClosedIdle.closeContexts_iff {l : List Id} (h : s.ClosedIdle) :
    (s.closeContexts l).ClosedIdle ↔ ∀ x ∈ l, ∀ ctx, s.context? x = some ctx → ctx.Idle := by
  constructor
  · intro h' x hmem ctx hctx
    have hshut : (s.closeContexts l).context? x = some ctx.shut := by
      rw [context?_closeContexts, if_pos hmem, hctx, Option.map_some]
    exact DocContext.idle_shut.mp (h' x _ hshut ctx.closed_shut)
  · intro hidle y ctx hy hclosed
    rw [context?_closeContexts] at hy
    split at hy
    · rename_i hmem
      obtain ⟨before, hbefore, rfl⟩ := Option.map_eq_some_iff.mp hy
      exact DocContext.idle_shut.mpr (hidle y hmem before hbefore)
    · exact h y ctx hy hclosed

theorem ClosedIdle.providerOpen {docId : String} (hs : s.Sound) (h : s.ClosedIdle)
    (hc : s.calls c = none) : (s.providerOpen c docId).ClosedIdle := by
  unfold Store.providerOpen
  split
  · exact h
  split
  · exact h
  split
  · exact h
  split
  · exact h
  · refine h.congr fun y => ?_
    have hopening : (s.setOpening c { docId }).context? y = _ := context?_setOpening
    refine hopening.trans ?_
    split
    · rename_i hy
      rw [hy, context?, hs.called c hc]
      rfl
    · rfl

theorem ClosedIdle.optionsReady (h : s.ClosedIdle) (hop : s.openings x = some op) :
    (s.optionsReady x op).ClosedIdle := by
  unfold Store.optionsReady
  split
  · exact h.congr fun y => context?_setOpening_same hop rfl
  split
  · exact h.congr fun y => context?_setOpening_same hop rfl
  · intro y ctx hy
    replace hy := context?_setOpening.symm.trans hy
    split at hy
    · cases hy
      exact fun hclosed => by cases hclosed
    · exact h y ctx hy

theorem ClosedIdle.scheduleClose_iff {idleCloseMs : ℚ} (h : s.ClosedIdle)
    (hctx : s.context? x = some ctx) (hopen : ctx.closed = false) :
    (s.scheduleClose idleCloseMs x).ClosedIdle ↔
      (s.closing = true ∨ idleCloseMs = 0 → ctx.Idle) := by
  rw [Store.scheduleClose, hctx]
  dsimp only
  rw [if_neg (by simp [hopen])]
  split
  · rename_i hnow
    rw [h.closeContext_iff, hctx]
    simp [hnow]
  · rename_i hlater
    refine iff_of_true ?_ fun hnow => absurd hnow hlater
    split
    · exact h
    · exact (h.setContext_iff hctx).mpr fun hclosed => by cases hopen.symm.trans hclosed

theorem ClosedIdle.release_iff {idleCloseMs : ℚ} (h : s.ClosedIdle)
    (hctx : s.context? x = some ctx) :
    (s.release idleCloseMs c x ctx).ClosedIdle ↔
      (ctx.closed = false → ctx.connections ≤ 1 → s.closing = true ∨ idleCloseMs = 0 →
        ctx.Idle) := by
  unfold Store.release
  dsimp only
  split
  · rename_i hclosed
    exact iff_of_true h fun hopen => by cases hopen.symm.trans hclosed
  rename_i hopen
  rw [Bool.not_eq_true] at hopen
  have hcount : ((s.setCall c (.handle x true)).setContext x
      { ctx with connections := ctx.connections - 1 }).ClosedIdle :=
    (ClosedIdle.setContext_iff (s := s.setCall c (.handle x true)) h hctx).mpr fun hclosed => by
      cases hopen.symm.trans hclosed
  have hctx' : ((s.setCall c (.handle x true)).setContext x
      { ctx with connections := ctx.connections - 1 }).context? x =
      some { ctx with connections := ctx.connections - 1 } :=
    (context?_setContext hctx).trans (if_pos rfl)
  rw [forall_prop_of_true hopen]
  split
  · rename_i hlent
    exact iff_of_true hcount fun hlast => by omega
  rename_i hlast
  rw [iff_true_intro (show ctx.connections ≤ 1 by omega), true_imp_iff]
  split
  · rename_i hclosing
    have hclosing : s.closing = true := hclosing
    rw [hcount.closeContext_iff, hctx']
    simp [hclosing, DocContext.Idle]
  · exact Iff.trans (hcount.scheduleClose_iff hctx' hopen) Iff.rfl

theorem ClosedIdle.closeTimer_iff {idleCloseMs : ℚ} (h : s.ClosedIdle)
    (hctx : s.context? x = some ctx) :
    (let s := s.setContext x { ctx with closeTimer := false }
      if 0 < ctx.connections then s else s.closeContext x).ClosedIdle ↔
      s.Drains idleCloseMs (.closeTimer x) := by
  have hfired : (s.setContext x { ctx with closeTimer := false }).ClosedIdle :=
    (h.setContext_iff hctx).mpr fun hclosed => h x ctx hctx hclosed
  dsimp only [Drains]
  split
  · rename_i hlent
    refine iff_of_true hfired fun ctx' hctx' hnone => ?_
    cases hctx.symm.trans hctx'
    omega
  · rename_i hidle
    rw [hfired.closeContext_iff, (context?_setContext hctx).trans (if_pos rfl)]
    have hnone := Nat.eq_zero_of_not_pos hidle
    simp [hctx, hnone, DocContext.Idle]

/-- A batch waits at a context that is not closed, or is empty. -/
theorem ClosedIdle.applyOps_iff {ops : List Op} (h : s.ClosedIdle)
    (hctx : s.context? x = some ctx) :
    (if ops.length = 0 then s
      else s.setContext x { ctx with applyQueue := ctx.applyQueue ++ [ops] }).ClosedIdle ↔
      (ops.length ≠ 0 → ctx.closed = false) := by
  split
  · rename_i hnil
    exact iff_of_true h fun hne => absurd hnil hne
  · rename_i hne
    rw [h.setContext_iff hctx, forall_prop_of_true hne]
    simp [DocContext.Idle]

/-- A step of a drained store drains exactly where it says it does. -/
theorem ClosedIdle.step_iff {idleCloseMs : ℚ} {e : Event Op} (hs : s.Sound) (h : s.ClosedIdle)
    (hstep : s.step idleCloseMs e = some s') : s'.ClosedIdle ↔ s.Drains idleCloseMs e := by
  cases e with
  | openDoc c docId =>
    simp only [Store.step] at hstep
    split at hstep <;> cases hstep
    rename_i hc
    exact iff_of_true (h.providerOpen hs hc) trivial
  | backendOpened o | backendFailed o message | optionsFailed o message =>
    simp only [Store.step] at hstep
    split at hstep <;> cases hstep
    rename_i hop
    exact iff_of_true (h.congr fun y => context?_setOpening_same hop rfl) trivial
  | optionsReady o =>
    simp only [Store.step] at hstep
    split at hstep <;> cases hstep
    rename_i hop
    exact iff_of_true (h.optionsReady hop) trivial
  | closeSettled x | backendClosed x =>
    simp only [Store.step] at hstep
    split at hstep
    · rename_i hop
      split at hstep <;> cases hstep
      exact iff_of_true (h.congr fun y => context?_setOpening_same hop rfl) trivial
    · cases hstep
  | resumed c =>
    simp only [Store.step] at hstep
    split at hstep
    · split at hstep <;> cases hstep
      refine iff_of_true ?_ trivial
      unfold Store.resumed
      dsimp only
      split
      · exact h
      · exact h
    · cases hstep
  | handedOut c =>
    simp only [Store.step] at hstep
    split at hstep
    · obtain ⟨ctx, hctx, rfl⟩ := Option.map_eq_some_iff.mp hstep
      refine iff_of_true ?_ trivial
      unfold Store.handedOut
      split
      · exact h
      · rename_i hguard
        exact (h.setContext_iff hctx).mpr fun hclosed => absurd (.inr hclosed) hguard
    · cases hstep
  | release c =>
    simp only [Store.step] at hstep
    split at hstep
    · rename_i x hc
      obtain ⟨ctx, hctx, rfl⟩ := Option.map_eq_some_iff.mp hstep
      refine (h.release_iff hctx).trans
        ⟨fun hidle x' ctx' hc' hctx' => ?_, fun hdrains => hdrains x ctx hc hctx⟩
      cases hc.symm.trans hc'
      cases hctx.symm.trans hctx'
      exact hidle
    · rename_i hc
      cases hstep
      refine iff_of_true h ?_
      rintro x ctx hheld
      cases hc.symm.trans hheld
    · cases hstep
  | closeTimer x =>
    simp only [Store.step] at hstep
    split at hstep
    · rename_i ctx hctx
      split at hstep <;> cases hstep
      exact h.closeTimer_iff hctx
    · cases hstep
  | closeAll =>
    simp only [Store.step] at hstep
    split at hstep <;> cases hstep
    · exact iff_of_true h trivial
    · exact iff_of_true h trivial
  | openingsSettled =>
    simp only [Store.step] at hstep
    split at hstep
    · split at hstep <;> cases hstep
      exact h.closeContexts_iff
    · cases hstep
  | contextsClosed =>
    simp only [Store.step] at hstep
    split at hstep
    · split at hstep <;> cases hstep
      exact iff_of_true h trivial
    · cases hstep
  | applyOps c ops =>
    simp only [Store.step] at hstep
    split at hstep
    · rename_i x released hc
      obtain ⟨ctx, hctx, rfl⟩ := Option.map_eq_some_iff.mp hstep
      refine (h.applyOps_iff hctx).trans
        ⟨fun hopen x' released' ctx' hc' hctx' => ?_, fun hdrains => hdrains x released ctx hc hctx⟩
      cases hc.symm.trans hc'
      cases hctx.symm.trans hctx'
      exact hopen
    · cases hstep
  | applyStarts x =>
    simp only [Store.step] at hstep
    split at hstep <;> cases hstep
    rename_i hctx
    refine iff_of_true ((h.setContext_iff hctx).mpr fun hclosed => ?_) trivial
    cases (h x _ hctx hclosed).1
  | applySettles x =>
    simp only [Store.step] at hstep
    split at hstep <;> cases hstep
    rename_i hctx
    refine iff_of_true ((h.setContext_iff hctx).mpr fun hclosed => ?_) trivial
    cases (h x _ hctx hclosed).2

/-! ## Runs -/

theorem run_concat {idleCloseMs : ℚ} {events : List (Event Op)} {e : Event Op} :
    run idleCloseMs (events ++ [e]) =
      (run idleCloseMs events).bind fun s => s.step idleCloseMs e := by
  simp [run, List.foldlM_append]

/-- The steps of a run that close a context find it idle, and none queues a batch at a closed one. -/
def DrainsAlong (idleCloseMs : ℚ) (events : List (Event Op)) : Prop :=
  EachBehind (fun before e => ∀ s ∈ run idleCloseMs before, (s.step idleCloseMs e).isSome = true →
    s.Drains idleCloseMs e) events

theorem Sound.drained_step {idleCloseMs : ℚ} {e : Event Op} (hs : s.Sound) (h : s.Drained)
    (hstep : s.step idleCloseMs e = some s') : s'.Drained ↔ s.Drains idleCloseMs e :=
  (hs.step hstep).drained_iff.trans (h.closed_idle.step_iff hs hstep)

/-- Every state of a run is drained exactly when each step drains what it closes. -/
theorem run_drained_iff {idleCloseMs : ℚ} {events : List (Event Op)} :
    (∀ before, before <+: events → ∀ s ∈ run idleCloseMs before, s.Drained) ↔
      DrainsAlong idleCloseMs events := by
  induction events using List.reverseRecOn with
  | nil =>
    refine iff_of_true (fun before hprefix s hs => ?_) eachBehind_nil
    cases List.prefix_nil.mp hprefix
    cases hs
    exact Sound.empty.drained_iff.mpr nofun
  | append_singleton events e ih =>
    have hlast : (∀ before, before <+: events ++ [e] → ∀ s ∈ run idleCloseMs before, s.Drained) ↔
        (∀ before, before <+: events → ∀ s ∈ run idleCloseMs before, s.Drained) ∧
          ∀ s ∈ run idleCloseMs (events ++ [e]), s.Drained := by
      simp only [List.prefix_concat_iff, or_imp, forall_and, forall_eq]
      exact and_comm
    rw [hlast, DrainsAlong, eachBehind_concat, ← DrainsAlong, ← ih]
    refine and_congr_right fun hbefore => ?_
    rw [run_concat]
    cases hrun : run idleCloseMs events with
    | none => exact iff_of_true nofun nofun
    | some s =>
    have hdrained := hbefore events (List.prefix_refl _) s hrun
    simp only [Option.bind_some, Option.mem_def, Option.some.injEq, forall_eq']
    cases hstep : s.step idleCloseMs e with
    | none => exact iff_of_true nofun nofun
    | some s' =>
      simpa using (sound_run hrun).drained_step hdrained hstep

/-- The last handle goes while its batch runs, and the document is opened again. -/
theorem running_closed :
    let events : List (Event Unit) := [.openDoc 0 "a", .backendOpened 0, .optionsReady 0,
      .resumed 0, .handedOut 0, .applyOps 0 [()], .applyStarts 0, .release 0, .openDoc 1 "a",
      .backendOpened 1, .optionsReady 1, .resumed 1, .handedOut 1, .applyOps 1 [()],
      .applyStarts 1]
    (∃ s ∈ run 0 events, (s.context? 0).map (fun ctx => (ctx.docId, ctx.closed, ctx.running)) =
        some ("a", true, some [()]) ∧
      (s.context? 1).map (fun ctx => (ctx.docId, ctx.running)) = some ("a", some [()]) ∧
      (s.backend? 0).map Backend.closes = some 1) ∧
    ¬ ∀ before, before <+: events → ∀ s ∈ run 0 before, s.Drained := by
  refine ⟨⟨_, rfl, rfl, rfl, rfl⟩, fun h => ?_⟩
  have hidle := (h _ (List.prefix_refl _) _ rfl).closed_idle 0 _ rfl rfl
  cases hidle.2

end Store

end DocStore

end Sync

end Treecrdt
