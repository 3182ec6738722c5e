import Mathlib.Algebra.Order.Ring.Unbundled.Rat
import TreecrdtLean.Auth.Interface
import TreecrdtLean.Lib.OrderedMap

/-!
# The store of open documents (`server.ts`, `createPostgresNodeDocStore`)

Calls of `provider.open` share one backend for each document. A step is what the code does between
two `await`s, in any order that the promises and timers allow. An opening, its backend and its
context go by the call of `provider.open` that started them.

The factories and the backends are not here: they may take any time, and fail. `broadcastDocUpdate`
and the peers do not bear on when a backend is closed.
-/

namespace Treecrdt

namespace Sync

namespace DocStore

open Interface (isWhitespace)

abbrev Id := ℕ

/-- What `backendFactory.open` gave, without its methods. -/
structure Backend where
  /-- The calls of `close`. -/
  closes : ℕ := 0
  /-- A call of `close` has settled. -/
  closeSettled : Bool := false

/-- `backend.close()` -/
def Backend.close (b : Backend) : Backend := { b with closes := b.closes + 1 }

structure DocContext (Op : Type) where
  docId : String
  connections : ℕ := 0
  /-- The batches that wait in `applyQueue`, and the one whose `backend.applyOps` is pending. -/
  applyQueue : List (List Op) := []
  running : Option (List Op) := none
  closed : Bool := false
  /-- The timer is set. -/
  closeTimer : Bool := false

/-- What `opening` waits for. -/
inductive Stage where
  | backend
  | peerOptions
  /-- `closeBackend(rawBackend)`, to settle with the outcome. -/
  | closing (outcome : Except String Id)
  | settled (outcome : Except String Id)

/-- A promise `opening` of `openContext`, with the backend that it got and the context it made. -/
structure Opening (Op : Type) where
  docId : String
  stage : Stage := .backend
  backend : Option Backend := none
  context : Option (DocContext Op) := none

/-- A call of `provider.open`. -/
inductive Call where
  /-- `openContext` awaits the opening. -/
  | waiting (docId : String) (opening : Id)
  /-- `provider.open` awaits `openContext`, which has returned the context. -/
  | opened (context : Id)
  | failed (message : String)
  /-- It has returned a handle. -/
  | handle (context : Id) (released : Bool)

/-- What `provider.open` waits for after `openContext`. -/
def Call.ofOutcome : Except String Id → Call
  | .ok context => .opened context
  | .error message => .failed message

/-- What `closeAllPromise` waits for. -/
inductive CloseAll where
  | openings (pending : List Id)
  | contexts (pending : List Id)
  | resolved

structure Store (Op : Type) where
  openings : Id → Option (Opening Op) := fun _ => none
  calls : Id → Option Call := fun _ => none
  docs : OrderedMap String Id := .empty
  openInFlight : OrderedMap String Id := .empty
  closing : Bool := false
  closeAllPromise : Option CloseAll := none

variable {Op : Type}

def Stage.IsSettled : Stage → Prop
  | .settled _ => True
  | _ => False

instance : DecidablePred Stage.IsSettled := fun
  | .settled _ => isTrue trivial
  | .backend | .peerOptions | .closing _ => isFalse id

namespace Store

def backend? (s : Store Op) (x : Id) : Option Backend := (s.openings x).bind (·.backend)

def context? (s : Store Op) (x : Id) : Option (DocContext Op) := (s.openings x).bind (·.context)

def setCall (c : Id) (call : Call) (s : Store Op) : Store Op :=
  { s with calls := Function.update s.calls c (some call) }

def setOpening (o : Id) (op : Opening Op) (s : Store Op) : Store Op :=
  { s with openings := Function.update s.openings o (some op) }

def setContext (x : Id) (ctx : DocContext Op) (s : Store Op) : Store Op :=
  { s with
    openings := Function.update s.openings x
      ((s.openings x).map fun op => { op with context := some ctx }) }

/-! ## Closing -/

def closeContext (x : Id) (s : Store Op) : Store Op :=
  match s.openings x with
  | some { docId, stage, backend, context := some ctx } =>
    if ctx.closed then s
    else
      { s with
        openings := Function.update s.openings x (some {
          docId, stage
          backend := backend.map Backend.close
          context := some { ctx with closed := true, closeTimer := false } })
        docs := s.docs.erase ctx.docId }
  | _ => s

/-- `docs.map((ctx) => closeContext(ctx))` -/
def closeContexts (l : List Id) (s : Store Op) : Store Op :=
  l.foldl (fun s x => s.closeContext x) s

def scheduleClose (idleCloseMs : ℚ) (x : Id) (s : Store Op) : Store Op :=
  match s.context? x with
  | some ctx =>
    if ctx.closed then s
    else if s.closing ∨ idleCloseMs = 0 then s.closeContext x
    else if ctx.closeTimer then s
    else s.setContext x { ctx with closeTimer := true }
  | none => s

/-! ## `provider.open` -/

/-- `ensureNonEmptyString('docId', docId)` and the start of `openContext`. -/
def providerOpen (c : Id) (docId : String) (s : Store Op) : Store Op :=
  if docId.toList.all isWhitespace then s.setCall c (.failed "docId must be a non-empty string")
  else if s.closing then s.setCall c (.failed "doc store is closing")
  else
    match s.docs.get? docId with
    | some existing => s.setCall c (.opened existing)
    | none =>
      match s.openInFlight.get? docId with
      | some pending => s.setCall c (.waiting docId pending)
      | none =>
        { s with
          openings := Function.update s.openings c (some { docId })
          calls := Function.update s.calls c (some (.waiting docId c))
          openInFlight := s.openInFlight.set docId c }

/-- The opening goes on with its peer options: it closes its backend, or sets up the context. -/
def optionsReady (o : Id) (op : Opening Op) (s : Store Op) : Store Op :=
  if s.closing then
    s.setOpening o { op with
      stage := .closing (.error "doc store is closing")
      backend := op.backend.map Backend.close }
  else
    match s.docs.get? op.docId with
    | some alreadyOpened =>
      s.setOpening o { op with
        stage := .closing (.ok alreadyOpened)
        backend := op.backend.map Backend.close }
    | none =>
      { s.setOpening o { op with
          stage := .settled (.ok o)
          context := some { docId := op.docId } } with
        docs := s.docs.set op.docId o }

/-- `openContext` goes on; the call that started the opening removes it. -/
def resumed (c : Id) (docId : String) (o : Id) (outcome : Except String Id) (s : Store Op) :
    Store Op :=
  let s := s.setCall c (Call.ofOutcome outcome)
  if o = c then { s with openInFlight := s.openInFlight.erase docId } else s

/-- `provider.open` goes on: it returns a handle, if the context is still open. -/
def handedOut (c x : Id) (ctx : DocContext Op) (s : Store Op) : Store Op :=
  if s.closing ∨ ctx.closed then s.setCall c (.failed "doc store is closing")
  else
    (s.setContext x { ctx with connections := ctx.connections + 1, closeTimer := false }).setCall c
      (.handle x false)

/-- `release` of a handle that is not released. -/
def release (idleCloseMs : ℚ) (c x : Id) (ctx : DocContext Op) (s : Store Op) : Store Op :=
  let s := s.setCall c (.handle x true)
  if ctx.closed then s
  else
    let ctx := { ctx with connections := ctx.connections - 1 }
    let s := s.setContext x ctx
    if 0 < ctx.connections then s
    else if s.closing then s.closeContext x
    else s.scheduleClose idleCloseMs x

/-! ## Steps -/

end Store

/-- What happens to a store. -/
inductive Event (Op : Type) where
  | openDoc (call : Id) (docId : String)
  /-- `backendFactory.open` fulfils, or rejects. -/
  | backendOpened (opening : Id)
  | backendFailed (opening : Id) (message : String)
  /-- `peerOptionsFactory` fulfils, or rejects. -/
  | optionsReady (opening : Id)
  | optionsFailed (opening : Id) (message : String)
  /-- A call of `close` settles. -/
  | closeSettled (backend : Id)
  /-- The opening goes on after `closeBackend`. -/
  | backendClosed (opening : Id)
  /-- `openContext`, then `provider.open`, goes on. -/
  | resumed (call : Id)
  | handedOut (call : Id)
  | release (call : Id)
  | closeTimer (context : Id)
  | closeAll
  /-- `closeAll` goes on: all openings have settled, all contexts are closed. -/
  | openingsSettled
  | contextsClosed
  /-- `applyOps` of the handle's backend. -/
  | applyOps (call : Id) (ops : List Op)
  /-- A run of the queue starts, and settles. -/
  | applyStarts (context : Id)
  | applySettles (context : Id)

namespace Store

/-- One step of the store; none where the event cannot happen. -/
def step (idleCloseMs : ℚ) (s : Store Op) : Event Op → Option (Store Op)
  | .openDoc c docId =>
    match s.calls c with
    | none => some (s.providerOpen c docId)
    | some _ => none
  | .backendOpened o =>
    match s.openings o with
    | some op@{ stage := .backend, .. } =>
      some (s.setOpening o { op with stage := .peerOptions, backend := some {} })
    | _ => none
  | .backendFailed o message =>
    match s.openings o with
    | some op@{ stage := .backend, .. } =>
      some (s.setOpening o { op with stage := .settled (.error message) })
    | _ => none
  | .optionsReady o =>
    match s.openings o with
    | some op@{ stage := .peerOptions, .. } => some (s.optionsReady o op)
    | _ => none
  | .optionsFailed o message =>
    match s.openings o with
    | some op@{ stage := .peerOptions, .. } =>
      some (s.setOpening o { op with
        stage := .closing (.error message)
        backend := op.backend.map Backend.close })
    | _ => none
  | .closeSettled x =>
    match s.openings x with
    | some op@{ backend := some b, .. } =>
      if 0 < b.closes then
        some (s.setOpening x { op with backend := some { b with closeSettled := true } })
      else none
    | _ => none
  | .backendClosed o =>
    match s.openings o with
    | some op@{ stage := .closing outcome, backend := some b, .. } =>
      if b.closeSettled then some (s.setOpening o { op with stage := .settled outcome }) else none
    | _ => none
  | .resumed c =>
    match s.calls c with
    | some (.waiting docId o) =>
      match s.openings o with
      | some { stage := .settled outcome, .. } => some (s.resumed c docId o outcome)
      | _ => none
    | _ => none
  | .handedOut c =>
    match s.calls c with
    | some (.opened x) => (s.context? x).map (s.handedOut c x)
    | _ => none
  | .release c =>
    match s.calls c with
    | some (.handle x false) => (s.context? x).map (s.release idleCloseMs c x)
    | some (.handle _ true) => some s
    | _ => none
  | .closeTimer x =>
    match s.context? x with
    | some ctx =>
      if ctx.closeTimer then
        let s := s.setContext x { ctx with closeTimer := false }
        some (if 0 < ctx.connections then s else s.closeContext x)
      else none
    | none => none
  | .closeAll =>
    match s.closeAllPromise with
    | none => some { s with
        closing := true
        closeAllPromise := some (.openings s.openInFlight.values) }
    | some _ => some s
  | .openingsSettled =>
    match s.closeAllPromise with
    | some (.openings pending) =>
      if ∀ o ∈ pending, ∀ op ∈ s.openings o, op.stage.IsSettled then
        some { s.closeContexts s.docs.values with
          closeAllPromise := some (.contexts s.docs.values) }
      else none
    | _ => none
  | .contextsClosed =>
    match s.closeAllPromise with
    | some (.contexts pending) =>
      if ∀ x ∈ pending, ∀ b ∈ s.backend? x, b.closeSettled then
        some { s with closeAllPromise := some .resolved }
      else none
    | _ => none
  | .applyOps c ops =>
    match s.calls c with
    | some (.handle x _) =>
      (s.context? x).map fun ctx =>
        if ops.length = 0 then s
        else s.setContext x { ctx with applyQueue := ctx.applyQueue ++ [ops] }
    | _ => none
  | .applyStarts x =>
    match s.context? x with
    | some ctx@{ running := none, applyQueue := ops :: rest, .. } =>
      some (s.setContext x { ctx with running := some ops, applyQueue := rest })
    | _ => none
  | .applySettles x =>
    match s.context? x with
    | some ctx@{ running := some _, .. } => some (s.setContext x { ctx with running := none })
    | _ => none

def run (idleCloseMs : ℚ) (events : List (Event Op)) : Option (Store Op) :=
  events.foldlM (step idleCloseMs) {}

end Store

end DocStore

end Sync

end Treecrdt
