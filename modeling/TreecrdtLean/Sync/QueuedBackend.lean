import Mathlib.Algebra.Order.Group.Int
import Mathlib.Data.List.MinMax
import TreecrdtLean.Lib.PromiseChain

/-!
# The queued backend (`in-memory.ts`)

`makeQueuedSyncBackend` runs the calls of `applyOps` one after another, on a chain of promises that
does not outlive a rejection: every later call rejects with it, and its operations are never
applied. `maxLamport` counts the operations of a call before their run, so it counts those that are
lost.

Once all calls have settled, each has had its run, and `maxLamport` is that of what was applied,
exactly if no run but the last rejected, and that one raised nothing (`kept_iff`).
-/

namespace Treecrdt

namespace Sync

namespace QueuedBackend

open PromiseChain

/-- The options of `makeQueuedSyncBackend` that the queue uses. -/
structure Options (Op : Type) where
  initialMaxLamport : ℤ
  maxLamportFromOps : List Op → ℤ

/-- The variables of the backend. -/
structure Queued (Op ε : Type) where
  maxLamportValue : ℤ
  lastApply : Chain (List Op) ε := {}

inductive Event (Op ε : Type) where
  | applyOps (ops : List Op)
  /-- The promise of a call goes on when the one before it has settled. -/
  | goOn (i : ℕ)
  /-- The run of a call settles. -/
  | runSettles (i : ℕ) (result : Except ε Unit)

variable {Op ε : Type}

def makeQueuedSyncBackend (opts : Options Op) : Queued Op ε :=
  { maxLamportValue := opts.initialMaxLamport }

namespace Queued

def applyOps (opts : Options Op) (ops : List Op) (s : Queued Op ε) : Queued Op ε :=
  if ops.length = 0 then s
  else
    let nextMax := opts.maxLamportFromOps ops
    { maxLamportValue := if nextMax > s.maxLamportValue then nextMax else s.maxLamportValue
      lastApply := s.lastApply.add ops }

def step (opts : Options Op) (s : Queued Op ε) : Event Op ε → Option (Queued Op ε)
  | .applyOps ops => some (s.applyOps opts ops)
  | .goOn i => (s.lastApply.goOn true i).map fun lastApply => { s with lastApply }
  | .runSettles i result =>
    (s.lastApply.settle i result).map fun lastApply => { s with lastApply }

def run (opts : Options Op) (events : List (Event Op ε)) : Option (Queued Op ε) :=
  events.foldlM (step opts) (makeQueuedSyncBackend opts)

/-- The largest lamport of some calls, from the initial one. -/
def maxOf (opts : Options Op) (calls : List (List Op)) : ℤ :=
  calls.foldl (fun lamport ops => max lamport (opts.maxLamportFromOps ops)) opts.initialMaxLamport

def isFulfilled : LinkState ε → Bool
  | .fulfilled => true
  | _ => false

/-- The calls whose runs have fulfilled. -/
def applied (s : Queued Op ε) : List (List Op) :=
  (s.lastApply.links.filter fun link => isFulfilled link.state).map Link.job

/-- The calls have had their runs, one after another, and `maxLamport` is that of what was
applied. -/
structure Kept (opts : Options Op) (s : Queued Op ε) : Prop where
  /-- A call settles as its run. -/
  own_run : ∀ link ∈ s.lastApply.links,
    link.state = .fulfilled ∨ ∃ e, link.state = .rejected e
  in_order : s.lastApply.log =
    (List.range s.lastApply.links.length).flatMap fun i => [.started i, .ended i]
  maxLamport : s.maxLamportValue = maxOf opts s.applied

/-- No run has rejected, but the last, whose operations raise nothing. -/
def Harmless (opts : Options Op) (s : Queued Op ε) : Prop :=
  ∀ before link after e, s.lastApply.links = before ++ link :: after →
    link.state = .rejected e →
    after = [] ∧ opts.maxLamportFromOps link.job ≤ maxOf opts (before.map Link.job)

variable {opts : Options Op} {s s' : Queued Op ε} {links before after : List (Link (List Op) ε)}
variable {link : Link (List Op) ε}

theorem maxOf_concat {calls : List (List Op)} {ops : List Op} :
    maxOf opts (calls ++ [ops]) = max (maxOf opts calls) (opts.maxLamportFromOps ops) :=
  List.foldl_concat ..

/-! ## Runs -/

/-- The value is that of all calls, whatever becomes of them. -/
structure Sound (opts : Options Op) (s : Queued Op ε) : Prop where
  chain : s.lastApply.Sound true
  value : s.maxLamportValue = maxOf opts (s.lastApply.links.map Link.job)

theorem Sound.step {e : Event Op ε} (h : s.Sound opts) (hstep : s.step opts e = some s') :
    s'.Sound opts := by
  cases e with
  | applyOps ops =>
    cases hstep
    unfold Queued.applyOps
    split
    · exact h
    · refine ⟨h.chain.add, ?_⟩
      rw [Chain.add, List.map_append, List.map_singleton, maxOf_concat, ← h.value]
      change (if opts.maxLamportFromOps ops > s.maxLamportValue then opts.maxLamportFromOps ops
        else s.maxLamportValue) = max s.maxLamportValue (opts.maxLamportFromOps ops)
      split <;> omega
  | goOn i =>
    obtain ⟨lastApply, hgoOn, rfl⟩ := Option.map_eq_some_iff.mp hstep
    exact ⟨h.chain.goOn hgoOn, by rw [Chain.map_job_goOn hgoOn]; exact h.value⟩
  | runSettles i result =>
    obtain ⟨lastApply, hsettle, rfl⟩ := Option.map_eq_some_iff.mp hstep
    exact ⟨h.chain.settle hsettle, by rw [Chain.map_job_settle hsettle]; exact h.value⟩

theorem sound_run {events : List (Event Op ε)} (hrun : run opts events = some s) :
    s.Sound opts := by
  unfold run at hrun
  generalize hstart : makeQueuedSyncBackend opts = start at hrun
  have hs : start.Sound opts := hstart ▸ ⟨.empty, rfl⟩
  clear hstart
  induction events generalizing start with
  | nil =>
    cases hrun
    exact hs
  | cons e events ih =>
    obtain ⟨next, hnext, hrun⟩ := Option.bind_eq_some_iff.mp hrun
    exact ih next hrun (hs.step hnext)

/-! ## When all calls have settled -/

theorem applied_of_all (h : ∀ link ∈ s.lastApply.links, link.state = .fulfilled) :
    s.applied = s.lastApply.links.map Link.job := by
  rw [applied, List.filter_eq_self.mpr fun link hlink => by rw [h link hlink]; rfl]

theorem applied_of_last {e : ε} (hlinks : s.lastApply.links = before ++ [link])
    (hbefore : ∀ link ∈ before, link.state = .fulfilled) (hlink : link.state = .rejected e) :
    s.applied = before.map Link.job := by
  rw [applied, hlinks, List.filter_append,
    List.filter_eq_self.mpr fun link hmem => by rw [hbefore link hmem]; rfl,
    List.filter_eq_nil_iff.mpr fun x hx => by rw [List.mem_singleton.mp hx, hlink]; exact nofun,
    List.append_nil]

/-- In front of a rejection all runs have fulfilled. -/
theorem Sound.fulfilled_before {e : ε} (h : s.Sound opts)
    (hran : ∀ link ∈ s.lastApply.links, link.state = .fulfilled ∨ ∃ e, link.state = .rejected e)
    (hlinks : s.lastApply.links = before ++ link :: after) (hlink : link.state = .rejected e) :
    ∀ earlier ∈ before, earlier.state = .fulfilled := by
  intro earlier hmem
  refine (hran earlier (by rw [hlinks]; exact List.mem_append_left _ hmem)).resolve_right ?_
  rintro ⟨e', hearlier⟩
  obtain ⟨i, hi⟩ := List.getElem?_of_mem hmem
  have hlt := (List.getElem?_eq_some_iff.mp hi).1
  have hi' : s.lastApply.links[i]? = some earlier := by
    rw [hlinks, List.getElem?_append_left hlt, hi]
  have hj : s.lastApply.links[before.length]? = some link := by
    rw [hlinks, List.getElem?_append_right le_rfl, Nat.sub_self]
    rfl
  rcases h.chain.skipped hi' (.inl hearlier) hlt hj with hstate | hstate
  · cases hlink.symm.trans hstate
  · cases hlink.symm.trans hstate

/-- Every call has had its run, if none comes behind a rejection. -/
theorem Sound.ran_of_harmless (h : s.Sound opts)
    (hsettled : ∀ link ∈ s.lastApply.links, link.state.IsSettled) (hharmless : s.Harmless opts) :
    ∀ link ∈ s.lastApply.links, link.state = .fulfilled ∨ ∃ e, link.state = .rejected e := by
  intro link hmem
  have hlink := hsettled link hmem
  cases hstate : link.state with
  | waiting | running =>
    rw [hstate] at hlink
    cases hlink
  | fulfilled => exact .inl rfl
  | rejected e => exact .inr ⟨e, rfl⟩
  | skipped e =>
    obtain ⟨j, hj⟩ := List.getElem?_of_mem hmem
    obtain ⟨i, hij, rejected, hi, hrejected⟩ := h.chain.rejected_before hj hstate
    obtain ⟨hlt, rfl⟩ := List.getElem?_eq_some_iff.mp hi
    have hsplit : s.lastApply.links = s.lastApply.links.take i ++
        s.lastApply.links[i] :: s.lastApply.links.drop (i + 1) := by
      rw [← List.drop_eq_getElem_cons hlt, List.take_append_drop]
    have hlength := List.drop_eq_nil_iff.mp (hharmless _ _ _ e hsplit hrejected).1
    have := (List.getElem?_eq_some_iff.mp hj).1
    omega

theorem Sound.kept_iff_harmless (h : s.Sound opts)
    (hsettled : ∀ link ∈ s.lastApply.links, link.state.IsSettled) :
    s.Kept opts ↔ s.Harmless opts := by
  constructor
  · intro hkept before link after e hlinks hlink
    have hafter : after = [] := by
      cases after with
      | nil => rfl
      | cons next after =>
        have hnext : next ∈ s.lastApply.links := by simp [hlinks]
        have hi : s.lastApply.links[before.length]? = some link := by simp [hlinks]
        have hj : s.lastApply.links[before.length + 1]? = some next := by simp [hlinks]
        rcases h.chain.skipped hi (.inl hlink) (Nat.lt_succ_self _) hj with hstate | hstate <;>
          rcases hkept.own_run next hnext with hown | ⟨_, hown⟩ <;>
            cases hstate.symm.trans hown
    subst hafter
    have hbefore := h.fulfilled_before hkept.own_run hlinks hlink
    have hvalue := h.value
    rw [hkept.maxLamport, applied_of_last hlinks hbefore hlink, hlinks, List.map_append,
      List.map_singleton, maxOf_concat] at hvalue
    exact ⟨rfl, by omega⟩
  · intro hharmless
    have hran := h.ran_of_harmless hsettled hharmless
    refine ⟨hran, h.chain.log_of_ran hran, ?_⟩
    by_cases hall : ∀ link ∈ s.lastApply.links, link.state = .fulfilled
    · rw [applied_of_all hall, h.value]
    · simp only [not_forall] at hall
      obtain ⟨link, hmem, hfailed⟩ := hall
      obtain ⟨e, hlink⟩ := (hran link hmem).resolve_left hfailed
      obtain ⟨before, after, hlinks⟩ := List.append_of_mem hmem
      obtain ⟨rfl, hmax⟩ := hharmless before link after e hlinks hlink
      rw [applied_of_last hlinks (h.fulfilled_before hran hlinks hlink) hlink, h.value, hlinks,
        List.map_append, List.map_singleton, maxOf_concat]
      omega

/-- Once all calls have settled, they have had their runs and `maxLamport` is right exactly if no
run but the last rejected, and that one raised nothing. -/
theorem kept_iff {events : List (Event Op ε)} (hrun : run opts events = some s)
    (hsettled : ∀ link ∈ s.lastApply.links, link.state.IsSettled) :
    s.Kept opts ↔ s.Harmless opts :=
  (sound_run hrun).kept_iff_harmless hsettled

/-- Two calls, the last of which rejects and raises nothing. -/
theorem kept_iff_last :
    let opts : Options ℤ := ⟨0, fun ops => ops.foldl max 0⟩
    let events : List (Event ℤ String) := [.applyOps [2], .applyOps [1], .goOn 0,
      .runSettles 0 (.ok ()), .goOn 1, .runSettles 1 (.error "boom")]
    ∃ hrun : (run opts events).isSome = true,
      ((run opts events).get hrun).Kept opts ↔ ((run opts events).get hrun).Harmless opts := by
  refine ⟨rfl, kept_iff (Option.some_get _).symm ?_⟩
  decide

/-- The call behind a rejection rejects with it and is not run. -/
theorem call_skipped :
    let opts : Options ℤ := ⟨0, fun ops => ops.foldl max 0⟩
    let events : List (Event ℤ String) := [.applyOps [1], .goOn 0, .runSettles 0 (.error "boom"),
      .applyOps [2], .goOn 1]
    ¬ ∀ s, run opts events = some s → (∀ link ∈ s.lastApply.links, link.state.IsSettled) →
      s.Kept opts := by
  intro opts events h
  rcases (h _ rfl (by decide)).own_run _ (List.mem_cons_of_mem _ List.mem_cons_self) with
    hown | ⟨_, hown⟩
  · cases hown
  · cases hown

end Queued

end QueuedBackend

end Sync

end Treecrdt
