import Mathlib.Data.List.Nodup
import Mathlib.Logic.Function.Basic
import TreecrdtLean.Sync.Protobuf

/-!
# The push loop of subscriptions (`SyncPeer`, `sync.ts`)

One loop at a time pushes to the subscriptions of other peers. `notifyLocalUpdate` leaves a note for
it (the ops of the update, or that a full scan is due) and starts it where it does not run; a pass
takes the notes and goes through the subscriptions.

The model runs what the event loop runs between two `await`s as one event. Calls of the backend, of
the hooks and of the transports succeed, and an op is named by its ref. Of `onSubscribe` it has what
follows the checks that let a subscription in.
-/

namespace Treecrdt

namespace Sync

namespace Push

variable {W T C Ref : Type}

/-! ## The model -/

/-- The backend and the options of a peer: `W` is what they answer from, `C` are the capabilities of
another peer. -/
structure Source (W C Ref : Type) where
  listOpRefs : W → V0.Filter → List Ref
  /-- A ref is listed once. -/
  nodup : ∀ world filter, (listOpRefs world filter).Nodup
  filterOutgoingOps : Option (W → C → V0.Filter → Ref → Bool)
  /-- There is a `deriveOpRef`. -/
  derivesOpRef : Bool
  maxOpsPerBatch : ℕ

/-- A ref that `filterOutgoingOps` did not let through, and what it answered from. -/
structure Denial (W C Ref : Type) where
  world : W
  capabilities : C
  ref : Ref
  deriving DecidableEq

/-- `ResponderSubscription`; the last three fields are history. -/
structure Subscription (W T C Ref : Type) where
  filter : V0.Filter
  transport : T
  sentOpRefs : List Ref
  /-- What `listOpRefs` listed for the registration. -/
  snapshot : List Ref
  /-- The ops of the batches that were sent. -/
  sent : List Ref := []
  denied : List (Denial W C Ref) := []

/-- An entry of `responderSubscriptions`: the map goes by `stamp`, and `sub` is the object. -/
structure Entry where
  stamp : ℕ
  subscriptionId : String
  sub : ℕ
  deriving DecidableEq

/-- Where an `onSubscribe` waits: for `maxLamport`, with the refs it was told, or for the
`subscribeAck` of its subscription to be sent. -/
inductive Subscribing (T Ref : Type) where
  | reading (subscriptionId : String) (filter : V0.Filter) (transport : T) (opRefs : List Ref)
  | acking (sub : ℕ)
  deriving DecidableEq

structure Pass (Ref : Type) where
  deltaOps : List Ref
  forceFullScan : Bool
  deriving DecidableEq

/-- Where `pushSubscription` waits. The exact path has asked for the peer's capabilities before
its batches, the other one asks for them at every batch. -/
inductive Doing (C Ref : Type) where
  | listing
  | refreshing (exact : Bool) (refs : List Ref)
  | pushing (peerCaps : Option C) (refs : List Ref)
  | filtering (peerCaps : Option C) (asked : C) (chunk rest : List Ref)
  | sending (peerCaps : Option C) (chunk rest : List Ref)
  deriving DecidableEq

/-- Where `runPushLoop` waits; `last` is the stamp of the subscription it comes from. -/
inductive Loop (C Ref : Type) where
  | starting
  | visiting (pass : Pass Ref) (last : ℕ)
  | serving (pass : Pass Ref) (stamp sub : ℕ) (doing : Doing C Ref)
  deriving DecidableEq

structure State (W T C Ref : Type) where
  world : W
  transportPeerCapabilities : T → C
  subs : ℕ → Subscription W T C Ref
  /-- The next object, and the next stamp. -/
  fresh : ℕ
  responderSubscriptions : List Entry
  handlers : List (Subscribing T Ref)
  /-- Writes that are done, and have yet to call `notifyLocalUpdate`. -/
  owed : List (Option (List Ref))
  pendingPushOps : List Ref
  pushNeedsFullScan : Bool
  pushScheduled : Bool
  /-- `pushRunning`, and where the loop is. -/
  loop : Option (Loop C Ref)

variable [DecidableEq Ref] [DecidableEq T]

def Source.allows (source : Source W C Ref) (world : W) (peerCaps : C) (filter : V0.Filter)
    (ref : Ref) : Bool :=
  match source.filterOutgoingOps with
  | some allowed => allowed world peerCaps filter ref
  | none => true

/-- The ops that a write hands to `notifyLocalUpdate` are the new ones. -/
def Source.Tells (source : Source W C Ref) (old new : W) (ops : Option (List Ref)) : Prop :=
  ∀ refs ∈ ops, ∀ ref ∈ source.listOpRefs new .all,
    ref ∉ source.listOpRefs old .all → ref ∈ refs

instance (source : Source W C Ref) (old new : W) (ops : Option (List Ref)) :
    Decidable (source.Tells old new ops) :=
  inferInstanceAs (Decidable (∀ refs ∈ ops, _))

/-- A map from refs to ops: a key that is there keeps its place. -/
def addRefs (pending refs : List Ref) : List Ref :=
  refs.foldl (fun pending ref => if ref ∈ pending then pending else pending ++ [ref]) pending

/-- `Map.set`: a key that is there keeps its place. -/
def setEntry (entries : List Entry) (new : Entry) : List Entry :=
  if entries.any (·.subscriptionId = new.subscriptionId) then
    entries.map fun entry =>
      if entry.subscriptionId = new.subscriptionId then { entry with sub := new.sub } else entry
  else entries ++ [new]

/-- A peer that was just made; `sub` is at the addresses that have no object. -/
def State.start (world : W) (transportPeerCapabilities : T → C)
    (sub : Subscription W T C Ref) : State W T C Ref where
  world := world
  transportPeerCapabilities := transportPeerCapabilities
  subs := fun _ => sub
  fresh := 0
  responderSubscriptions := []
  handlers := []
  owed := []
  pendingPushOps := []
  pushNeedsFullScan := false
  pushScheduled := false
  loop := none

def State.notifyLocalUpdate (source : Source W C Ref) (s : State W T C Ref)
    (ops : Option (List Ref)) : State W T C Ref :=
  if s.responderSubscriptions = [] then s
  else
    let s :=
      match source.derivesOpRef, ops with
      | true, some (op :: ops) =>
        { s with pendingPushOps := addRefs s.pendingPushOps (op :: ops) }
      | _, _ => { s with pushNeedsFullScan := true }
    { s with pushScheduled := true, loop := s.loop.or (some .starting) }

/-- The exact path serves the subscription. -/
def Pass.Exact (pass : Pass Ref) (filter : V0.Filter) : Prop :=
  pass.forceFullScan = false ∧ filter = .all ∧ pass.deltaOps ≠ []

instance (pass : Pass Ref) (filter : V0.Filter) : Decidable (pass.Exact filter) :=
  inferInstanceAs (Decidable (_ ∧ _))

def State.setSub (s : State W T C Ref) (sub : ℕ)
    (f : Subscription W T C Ref → Subscription W T C Ref) : State W T C Ref :=
  { s with subs := Function.update s.subs sub (f (s.subs sub)) }

/-- The answer of `filterOutgoingOps`: all of the chunk counts as sent. -/
def Subscription.filtered (source : Source W C Ref) (x : Subscription W T C Ref) (world : W)
    (asked : C) (chunk : List Ref) : Subscription W T C Ref :=
  let denied := chunk.filter fun ref => !source.allows world asked x.filter ref
  { x with
    sentOpRefs := x.sentOpRefs ++ chunk
    denied := x.denied ++ denied.map fun ref => ⟨world, asked, ref⟩ }

/-- A batch is sent. -/
def Subscription.push (x : Subscription W T C Ref) (chunk : List Ref) : Subscription W T C Ref :=
  { x with sentOpRefs := x.sentOpRefs ++ chunk, sent := x.sent ++ chunk }

/-- `pushSubscription` begins. -/
def State.visit (s : State W T C Ref) (pass : Pass Ref) (entry : Entry) : State W T C Ref :=
  let sub := s.subs entry.sub
  let unsent := pass.deltaOps.filter fun ref => ref ∉ sub.sentOpRefs
  let loop : Loop C Ref :=
    if pass.Exact sub.filter then
      if unsent = [] then .visiting pass entry.stamp
      else .serving pass entry.stamp entry.sub (.refreshing true unsent)
    else .serving pass entry.stamp entry.sub .listing
  { s with loop := some loop }

/-- The head of `while (this.pushScheduled)`, and the pass up to its first `await`. -/
def State.beginPass (s : State W T C Ref) : State W T C Ref :=
  if s.pushScheduled then
    let pass : Pass Ref := {
      deltaOps := if s.pushNeedsFullScan then [] else s.pendingPushOps
      forceFullScan := s.pushNeedsFullScan }
    let s := { s with pushScheduled := false, pushNeedsFullScan := false, pendingPushOps := [] }
    match s.responderSubscriptions with
    | entry :: _ => s.visit pass entry
    | [] => { s with loop := none }
  else { s with loop := none }

/-- The iterator of the map goes on. -/
def State.next (s : State W T C Ref) (pass : Pass Ref) (last : ℕ) : State W T C Ref :=
  match s.responderSubscriptions.find? (last < ·.stamp) with
  | some entry => s.visit pass entry
  | none => s.beginPass

/-- `pushSubscription` and `pushSubscriptionDeltaAll`, from one `await` to the next. -/
def State.serve (source : Source W C Ref) (s : State W T C Ref) (pass : Pass Ref)
    (stamp sub : ℕ) : Doing C Ref → State W T C Ref
  | .listing =>
    let opRefs := source.listOpRefs s.world (s.subs sub).filter
    let newOpRefs := opRefs.filter fun ref => ref ∉ (s.subs sub).sentOpRefs
    if newOpRefs = [] then { s with loop := some (.visiting pass stamp) }
    else { s with loop := some (.serving pass stamp sub (.refreshing false newOpRefs)) }
  | .refreshing exact refs =>
    let peerCaps :=
      if exact then some (s.transportPeerCapabilities (s.subs sub).transport) else none
    { s with loop := some (.serving pass stamp sub (.pushing peerCaps refs)) }
  | .pushing peerCaps refs =>
    if refs = [] then { s with loop := some (.visiting pass stamp) }
    else
      let chunk := refs.take source.maxOpsPerBatch
      let rest := refs.drop source.maxOpsPerBatch
      let asked := peerCaps.getD (s.transportPeerCapabilities (s.subs sub).transport)
      if source.filterOutgoingOps.isSome ∧ chunk ≠ [] then
        { s with loop := some (.serving pass stamp sub (.filtering peerCaps asked chunk rest)) }
      else { s with loop := some (.serving pass stamp sub (.sending peerCaps chunk rest)) }
  | .filtering peerCaps asked chunk rest =>
    let allowed := chunk.filter (source.allows s.world asked (s.subs sub).filter)
    let s := s.setSub sub (·.filtered source s.world asked chunk)
    if allowed = [] then { s with loop := some (.serving pass stamp sub (.pushing peerCaps rest)) }
    else { s with loop := some (.serving pass stamp sub (.sending peerCaps allowed rest)) }
  | .sending peerCaps chunk rest =>
    let s := s.setSub sub (·.push chunk)
    { s with loop := some (.serving pass stamp sub (.pushing peerCaps rest)) }

/-- What the event loop runs. A position is that of the write or of the handler that goes on. -/
inductive Event (W T C Ref : Type) where
  /-- A write is done; it will call `notifyLocalUpdate` with `ops`. -/
  | write (world : W) (ops : Option (List Ref))
  /-- The peer of a transport presents its capabilities. -/
  | hello (transport : T) (capabilities : C)
  | notifyLocalUpdate (write : ℕ)
  | onSubscribe (subscriptionId : String) (filter : V0.Filter) (transport : T)
  | register (handler : ℕ)
  | acked (handler : ℕ)
  | onUnsubscribe (subscriptionId : String)
  | push

def State.step (source : Source W C Ref) (s : State W T C Ref) :
    Event W T C Ref → Option (State W T C Ref)
  | .write world ops =>
    if source.Tells s.world world ops then
      some { s with world := world, owed := s.owed ++ [ops] }
    else none
  | .hello transport capabilities =>
    some { s with transportPeerCapabilities :=
      Function.update s.transportPeerCapabilities transport capabilities }
  | .notifyLocalUpdate write => do
    let ops ← s.owed[write]?
    some ({ s with owed := s.owed.eraseIdx write }.notifyLocalUpdate source ops)
  | .onSubscribe subscriptionId filter transport =>
    let opRefs := source.listOpRefs s.world filter
    some { s with
      handlers := s.handlers ++ [.reading subscriptionId filter transport opRefs] }
  | .register handler =>
    match s.handlers[handler]? with
    | some (.reading subscriptionId filter transport opRefs) =>
      some { s with
        subs := Function.update s.subs s.fresh
          { filter := filter, transport := transport, sentOpRefs := opRefs, snapshot := opRefs }
        fresh := s.fresh + 1
        responderSubscriptions :=
          setEntry s.responderSubscriptions ⟨s.fresh, subscriptionId, s.fresh⟩
        handlers := s.handlers.set handler (.acking s.fresh) }
    | _ => none
  | .acked handler =>
    match s.handlers[handler]? with
    | some (.acking _) =>
      some ({ s with handlers := s.handlers.eraseIdx handler }.notifyLocalUpdate source none)
    | _ => none
  | .onUnsubscribe subscriptionId =>
    some { s with responderSubscriptions :=
      s.responderSubscriptions.filter (·.subscriptionId ≠ subscriptionId) }
  | .push =>
    match s.loop with
    | none => none
    | some .starting => some s.beginPass
    | some (.visiting pass last) => some (s.next pass last)
    | some (.serving pass stamp sub doing) => some (s.serve source pass stamp sub doing)

/-- What a peer that was just made comes to. -/
inductive Reachable (source : Source W C Ref) : State W T C Ref → Prop
  | start (world : W) (capabilities : T → C) (sub : Subscription W T C Ref) :
      Reachable source (.start world capabilities sub)
  | step {s s' : State W T C Ref} {event : Event W T C Ref} (before : Reachable source s)
      (next : s.step source event = some s') : Reachable source s'

/-- A run from a state. -/
def State.steps (source : Source W C Ref) (s : State W T C Ref) (events : List (Event W T C Ref)) :
    Option (State W T C Ref) :=
  events.foldlM (fun s event => s.step source event) s

theorem Reachable.steps {source : Source W C Ref} {events : List (Event W T C Ref)} :
    ∀ {s s' : State W T C Ref}, Reachable source s → s.steps source events = some s' →
      Reachable source s' := by
  induction events with
  | nil =>
    rintro s s' h ⟨⟩
    exact h
  | cons event rest ih =>
    intro s s' h hsteps
    rw [State.steps, List.foldlM_cons] at hsteps
    obtain ⟨t, hstep, hrest⟩ := Option.bind_eq_some_iff.mp hsteps
    exact ih (h.step hstep) hrest

/-- No push loop is running or scheduled. -/
structure State.Idle (s : State W T C Ref) : Prop where
  loop : s.loop = none
  pushScheduled : s.pushScheduled = false

end Push

end Sync

end Treecrdt
