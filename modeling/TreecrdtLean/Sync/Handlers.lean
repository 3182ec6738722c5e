import Mathlib.Logic.Function.Basic
import TreecrdtLean.Lib.OrderedMap
import TreecrdtLean.Auth.CoseCwt

/-!
# The handlers of incoming operations (`sync.ts`)

A `SyncPeer` handles the batches of one filter one after the other (`enqueueOpsBatch`), and the
filters at once: every `await` of `onOpsBatch` and of `reprocessPendingOps` is a place where other
handlers go on. A handler verifies its batch, files the auth entries, stores what is pending,
applies what is allowed, and then retries the pending operations, or waits for the pass that is
retrying them.

The auth, the backend and the operations are parameters (`Hooks`): the peer is written against
their interfaces.
-/

namespace Treecrdt

namespace Sync

open Auth

structure OpsBatch (FilterId Op OpAuth : Type) where
  filterId : FilterId
  ops : List Op
  auth : Option (List OpAuth)

structure PendingOp (Op OpAuth : Type) where
  op : Op
  auth : OpAuth

/-- What a peer calls: `SyncAuth` over its state, `SyncBackend` over what is applied. -/
structure Hooks (Op OpAuth Ref AuthSt Applied : Type) where
  verifyOps : AuthSt → Applied → List Op → Option (List OpAuth) →
    Except String (Option (List Disposition))
  onVerifiedOps : AuthSt → List Op → List OpAuth → Except String AuthSt
  applyOps : Applied → List Op → Applied
  opRef : Op → Ref

/-! ## The state of a peer -/

/-- Where a handler is. -/
inductive Handler (FilterId Op OpAuth : Type) where
  | verifying (batch : OpsBatch FilterId Op OpAuth)
  | verified (batch : OpsBatch FilterId Op OpAuth) (dispositions : Option (List Disposition))
  | storing (pending : List (PendingOp Op OpAuth)) (allowed : List Op)
  | applying (allowed : List Op)
  | entering
  /-- Awaits the pass of this number, its own or another's. -/
  | waiting (pass : ℕ)

/-- Where the pass is that retries the pending operations. -/
inductive Pass (Op OpAuth : Type) where
  | listing (round : ℕ)
  | checking (round : ℕ) (progress : Bool) (remaining : List (PendingOp Op OpAuth))
  | applying (round : ℕ) (p : PendingOp Op OpAuth) (remaining : List (PendingOp Op OpAuth))
  | deleting (round : ℕ) (p : PendingOp Op OpAuth) (remaining : List (PendingOp Op OpAuth))

structure Peer (FilterId Op OpAuth Ref AuthSt Applied : Type) where
  auth : AuthSt
  applied : Applied
  pending : OrderedMap Ref (PendingOp Op OpAuth)
  /-- `opsBatchQueues`: the batches behind the one that is handled. -/
  queues : FilterId → List (OpsBatch FilterId Op OpAuth)
  handlers : FilterId → Option (Handler FilterId Op OpAuth)
  /-- `reprocessPendingRunning` and `reprocessPendingInFlight`. -/
  pass : Option (Pass Op OpAuth)
  /-- The passes that have ended. -/
  passes : ℕ

/-! ## The parts of the handlers -/

variable {FilterId Op OpAuth Ref AuthSt Applied : Type}

/-- `verifyOps`, with the checks on the lengths of the lists. -/
def verifyBatch (hooks : Hooks Op OpAuth Ref AuthSt Applied) (auth : AuthSt) (applied : Applied)
    (batch : OpsBatch FilterId Op OpAuth) : Except String (Option (List Disposition)) := do
  if let some entries := batch.auth then
    throwIf (entries.length ≠ batch.ops.length)
      ("OpsBatch.auth length " ++ toString entries.length ++ " does not match ops length " ++
        toString batch.ops.length)
  let dispositions ← hooks.verifyOps auth applied batch.ops batch.auth
  if let some ds := dispositions then
    throwIf (ds.length ≠ batch.ops.length)
      ("verifyOps returned " ++ toString ds.length ++ " dispositions for " ++
        toString batch.ops.length ++ " ops")
  return dispositions

/-- The operations with their auth entries and dispositions. -/
def batchEntries (batch : OpsBatch FilterId Op OpAuth) (dispositions : Option (List Disposition)) :
    List (Op × Option OpAuth × Disposition) :=
  let auths := batch.auth.elim (batch.ops.map fun _ => none) (·.map some)
  batch.ops.zip (auths.zip (dispositions.getD (batch.ops.map fun _ => .allow)))

/-- The pending operations and the allowed ones. -/
def splitEntries : List (Op × Option OpAuth × Disposition) →
    Except String (List (PendingOp Op OpAuth) × List Op)
  | [] => .ok ([], [])
  | (op, _, .allow) :: rest => do
    let (pending, allowed) ← splitEntries rest
    return (pending, op :: allowed)
  | (op, some auth, .pendingContext) :: rest => do
    let (pending, allowed) ← splitEntries rest
    return ({ op, auth } :: pending, allowed)
  | (_, none, .pendingContext) :: _ =>
    .error "verifyOps returned pending_context but OpsBatch.auth is missing"

/-- `onVerifiedOps`, called for the entries of a batch that has some. -/
def fileAuth (hooks : Hooks Op OpAuth Ref AuthSt Applied) (auth : AuthSt)
    (batch : OpsBatch FilterId Op OpAuth) : Except String AuthSt :=
  match batch.auth with
  | some (entry :: entries) => hooks.onVerifiedOps auth batch.ops (entry :: entries)
  | _ => .ok auth

variable [DecidableEq FilterId] [DecidableEq Ref]

/-- `storePendingOps` (`INSERT OR REPLACE`): the newest is the last. -/
def storePendingOps (hooks : Hooks Op OpAuth Ref AuthSt Applied)
    (pending : OrderedMap Ref (PendingOp Op OpAuth)) (ps : List (PendingOp Op OpAuth)) :
    OrderedMap Ref (PendingOp Op OpAuth) :=
  ps.foldl (fun m p => (m.erase (hooks.opRef p.op)).set (hooks.opRef p.op) p) pending

/-- What a pass makes of the check of one operation. -/
inductive Retry where
  | drop
  | keep
  | apply
  deriving DecidableEq

/-- An exception drops the operation, and only `pending_context` keeps it. -/
def retry (hooks : Hooks Op OpAuth Ref AuthSt Applied) (auth : AuthSt) (applied : Applied)
    (p : PendingOp Op OpAuth) : Retry :=
  match hooks.verifyOps auth applied [p.op] (some [p.auth]) with
  | .error _ => .drop
  | .ok dispositions =>
    if dispositions.bind List.head? = some .pendingContext then .keep else .apply

def maxRounds : ℕ := 100

/-! ## Steps -/

/-- A step: a message, the end of an `await` of a handler or of the pass, or a failure. -/
inductive Action (FilterId Op OpAuth : Type) where
  | receive (batch : OpsBatch FilterId Op OpAuth)
  | begin (filterId : FilterId)
  | verify (filterId : FilterId)
  | onVerified (filterId : FilterId)
  | store (filterId : FilterId)
  | apply (filterId : FilterId)
  | enter (filterId : FilterId)
  | resume (filterId : FilterId)
  | fail (filterId : FilterId)
  | list
  | check
  | applyPending
  | deletePending
  | failPass

namespace Peer

def setHandler (s : Peer FilterId Op OpAuth Ref AuthSt Applied) (filterId : FilterId)
    (handler : Option (Handler FilterId Op OpAuth)) :
    Peer FilterId Op OpAuth Ref AuthSt Applied :=
  { s with handlers := Function.update s.handlers filterId handler }

/-- The pass ends: its promise settles, and `finally` clears the flag. -/
def endPass (s : Peer FilterId Op OpAuth Ref AuthSt Applied) :
    Peer FilterId Op OpAuth Ref AuthSt Applied :=
  { s with pass := none, passes := s.passes + 1 }

def setPass (s : Peer FilterId Op OpAuth Ref AuthSt Applied) (pass : Pass Op OpAuth) :
    Peer FilterId Op OpAuth Ref AuthSt Applied :=
  { s with pass := some pass }

/-- What a handler does when it goes on. -/
def handle (hooks : Hooks Op OpAuth Ref AuthSt Applied)
    (s : Peer FilterId Op OpAuth Ref AuthSt Applied) (filterId : FilterId) :
    Action FilterId Op OpAuth → Handler FilterId Op OpAuth →
    Option (Peer FilterId Op OpAuth Ref AuthSt Applied)
  | .verify _, .verifying batch =>
    match verifyBatch hooks s.auth s.applied batch with
    | .error _ => some (s.setHandler filterId none)
    | .ok dispositions => some (s.setHandler filterId (some (.verified batch dispositions)))
  | .onVerified _, .verified batch dispositions =>
    match fileAuth hooks s.auth batch, splitEntries (batchEntries batch dispositions) with
    | .error _, _ => some (s.setHandler filterId none)
    | .ok auth, .error _ => some ({ s with auth }.setHandler filterId none)
    | .ok auth, .ok (pending, allowed) =>
      some ({ s with auth }.setHandler filterId (some (.storing pending allowed)))
  | .store _, .storing pending allowed =>
    some ({ s with pending := storePendingOps hooks s.pending pending }.setHandler filterId
      (some (.applying allowed)))
  | .apply _, .applying allowed =>
    some ({ s with applied := hooks.applyOps s.applied allowed }.setHandler filterId
      (some .entering))
  | .enter _, .entering =>
    -- `reprocessPendingOps`: wait for the running pass, or start one.
    if s.pass.isSome then some (s.setHandler filterId (some (.waiting s.passes)))
    else some ((s.setPass (.listing 0)).setHandler filterId (some (.waiting s.passes)))
  | .resume _, .waiting pass => if pass < s.passes then some (s.setHandler filterId none) else none
  | .fail _, .verified _ _ | .fail _, .storing _ _ | .fail _, .applying _ =>
    some (s.setHandler filterId none)
  | _, _ => none

/-- What the pass does when it goes on. -/
def retryPending (hooks : Hooks Op OpAuth Ref AuthSt Applied)
    (s : Peer FilterId Op OpAuth Ref AuthSt Applied) :
    Action FilterId Op OpAuth → Pass Op OpAuth →
    Option (Peer FilterId Op OpAuth Ref AuthSt Applied)
  | .list, .listing round =>
    if s.pending.values.isEmpty then some s.endPass
    else some (s.setPass (.checking round false s.pending.values))
  | .check, .checking round progress [] =>
    -- Behind the last round the pass throws (`failPass`).
    if !progress then some s.endPass
    else if round + 1 < maxRounds then some (s.setPass (.listing (round + 1)))
    else none
  | .check, .checking round progress (p :: remaining) =>
    match retry hooks s.auth s.applied p with
    | .drop => some (s.setPass (.deleting round p remaining))
    | .keep => some (s.setPass (.checking round progress remaining))
    | .apply => some (s.setPass (.applying round p remaining))
  | .applyPending, .applying round p remaining =>
    some ({ s with applied := hooks.applyOps s.applied [p.op] }.setPass
      (.deleting round p remaining))
  | .deletePending, .deleting round p remaining =>
    some ({ s with pending := s.pending.erase (hooks.opRef p.op) }.setPass
      (.checking round true remaining))
  | .failPass, _ => some s.endPass
  | _, _ => none

def step (hooks : Hooks Op OpAuth Ref AuthSt Applied)
    (s : Peer FilterId Op OpAuth Ref AuthSt Applied) (action : Action FilterId Op OpAuth) :
    Option (Peer FilterId Op OpAuth Ref AuthSt Applied) :=
  match action with
  | .receive batch =>
    some { s with
      queues := Function.update s.queues batch.filterId (s.queues batch.filterId ++ [batch]) }
  | .begin filterId =>
    match s.queues filterId, s.handlers filterId with
    | batch :: queue, none =>
      some ({ s with queues := Function.update s.queues filterId queue }.setHandler filterId
        (some (.verifying batch)))
    | _, _ => none
  | .verify filterId | .onVerified filterId | .store filterId | .apply filterId
  | .enter filterId | .resume filterId | .fail filterId =>
    (s.handlers filterId).bind (s.handle hooks filterId action)
  | .list | .check | .applyPending | .deletePending | .failPass =>
    s.pass.bind (s.retryPending hooks action)

/-- The steps that a run takes, one after the other. -/
inductive Run (hooks : Hooks Op OpAuth Ref AuthSt Applied)
    (ok : Peer FilterId Op OpAuth Ref AuthSt Applied → Action FilterId Op OpAuth → Prop)
    (s₀ : Peer FilterId Op OpAuth Ref AuthSt Applied) :
    Peer FilterId Op OpAuth Ref AuthSt Applied → Prop
  | start : Run hooks ok s₀ s₀
  | step {s s' : Peer FilterId Op OpAuth Ref AuthSt Applied} {action : Action FilterId Op OpAuth}
      (before : Run hooks ok s₀ s) (meets : ok s action) (next : s.step hooks action = some s') :
      Run hooks ok s₀ s'

/-- A run of given steps. -/
def steps (hooks : Hooks Op OpAuth Ref AuthSt Applied)
    (ok : Peer FilterId Op OpAuth Ref AuthSt Applied → Action FilterId Op OpAuth → Bool)
    (s : Peer FilterId Op OpAuth Ref AuthSt Applied) :
    List (Action FilterId Op OpAuth) → Option (Peer FilterId Op OpAuth Ref AuthSt Applied)
  | [] => some s
  | action :: actions =>
    if ok s action then (s.step hooks action).bind fun s' => steps hooks ok s' actions else none

theorem Run.steps {hooks : Hooks Op OpAuth Ref AuthSt Applied}
    {ok : Peer FilterId Op OpAuth Ref AuthSt Applied → Action FilterId Op OpAuth → Bool}
    {s₀ s s' : Peer FilterId Op OpAuth Ref AuthSt Applied}
    {actions : List (Action FilterId Op OpAuth)}
    (h : Run hooks (fun s action => ok s action) s₀ s)
    (hsteps : Peer.steps hooks ok s actions = some s') :
    Run hooks (fun s action => ok s action) s₀ s' := by
  induction actions generalizing s with
  | nil => cases hsteps; exact h
  | cons action actions ih =>
    rw [Peer.steps] at hsteps
    split at hsteps
    · rename_i hok
      obtain ⟨s₁, hstep, hrest⟩ := Option.bind_eq_some_iff.mp hsteps
      exact ih (.step h hok hstep) hrest
    · cases hsteps

end Peer

end Sync

end Treecrdt
