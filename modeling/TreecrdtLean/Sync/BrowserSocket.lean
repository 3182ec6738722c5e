import TreecrdtLean.Core.Ids
import TreecrdtLean.Lib.PromiseChain
import TreecrdtLean.Lib.Trace

/-!
# The WebSocket transport of the browser (`browser-websocket.ts`)

`send` hands a message to `ws.send` when the call before it has settled, however it did, with waits
for the socket to drain around it. `onMessage` converts the data of each event on its own: bytes go
to the handler with the next microtask, those of a Blob once its `arrayBuffer()` has resolved, so a
message overtakes the Blobs before it that are pending.

Messages are sent in the order of the calls in every run; they are received in the order of the
events where the bytes of a message never become available while an earlier Blob is pending
(`run_fifo`). Blobs can be read: their `arrayBuffer()` does not reject.
-/

namespace Treecrdt

namespace Sync

namespace BrowserSocket

open PromiseChain

/-! ## Receiving -/

/-- What `event.data` is. -/
inductive Data where
  | uint8Array (bytes : Bytes)
  | arrayBuffer (bytes : Bytes)
  /-- Another view of an `ArrayBuffer`. -/
  | view (buffer : Bytes) (byteOffset byteLength : ℕ)
  | blob (bytes : Bytes)
  /-- A text, or another view of a shared buffer. -/
  | other

inductive Coerced where
  | bytes (bytes : Bytes)
  /-- The promise of the bytes of a Blob. -/
  | promise (bytes : Bytes)
  | null
  deriving DecidableEq

def coerceWebSocketDataToBytes : Data → Coerced
  | .uint8Array bytes => .bytes bytes
  | .arrayBuffer bytes => .bytes bytes
  | .view buffer byteOffset byteLength => .bytes ((buffer.drop byteOffset).take byteLength)
  | .blob bytes => .promise bytes
  | .other => .null

/-- A binary message, with its place among those of the subscription. -/
abbrev Message := Bytes × ℕ

/-- A reaction that is due. -/
inductive Job where
  /-- `new Uint8Array(buffer)`, for a Blob. -/
  | convert (message : Message)
  /-- The handler's call, unless the data were no bytes. -/
  | deliver (message : Option Message)
  deriving DecidableEq

def Job.delivered : Job → Option Message
  | .deliver message => message
  | .convert _ => none

def Job.converted : Job → Option Message
  | .deliver _ => none
  | .convert message => some message

/-- A subscription of `onMessage`. -/
structure Listener where
  active : Bool := true
  /-- The data of the binary messages while subscribed. -/
  binaries : List Bytes := []
  /-- The Blobs whose `arrayBuffer()` is pending. -/
  blobs : List Message := []
  /-- The microtasks, the next one first. -/
  jobs : List Job := []
  /-- What the handler was called with. -/
  received : List Message := []

namespace Listener

def onMessage (data : Data) (l : Listener) : Listener :=
  if l.active then
    match coerceWebSocketDataToBytes data with
    | .bytes bytes =>
      { l with
        binaries := l.binaries ++ [bytes]
        jobs := l.jobs ++ [.deliver (some (bytes, l.binaries.length))] }
    | .promise bytes =>
      { l with
        binaries := l.binaries ++ [bytes]
        blobs := l.blobs ++ [(bytes, l.binaries.length)] }
    | .null => { l with jobs := l.jobs ++ [.deliver none] }
  else l

/-- `arrayBuffer()` resolves. -/
def blobResolves (place : ℕ) (l : Listener) : Option Listener :=
  (l.blobs.find? fun message => message.2 = place).map fun message =>
    { l with blobs := l.blobs.erase message, jobs := l.jobs ++ [.convert message] }

/-- The next microtask runs. -/
def runJob (l : Listener) : Option Listener :=
  match l.jobs with
  | [] => none
  | .convert message :: jobs => some { l with jobs := jobs ++ [.deliver (some message)] }
  | .deliver message :: jobs =>
    some { l with
      jobs
      received := if l.active then l.received ++ message.toList else l.received }

def unsubscribe (l : Listener) : Listener := { l with active := false }

end Listener

/-! ## Sending -/

structure BrowserWebSocketTransportOptions where
  highWaterMark : Option ℕ := none
  lowWaterMark : Option ℕ := none
  drainTimeoutMs : Option ℕ := none

/-- What the transport is created with. -/
structure Transport where
  /-- `ws.constructor.OPEN`. -/
  ctorOpen : Option ℕ := none
  opts : BrowserWebSocketTransportOptions := {}

/-- The socket at some time. -/
structure Look where
  readyState : ℕ
  bufferedAmount : ℕ
  now : ℕ

/-- A call of `ws.send`. -/
structure Call where
  thrown : Option String
  /-- The socket right after it. -/
  after : Look

namespace Transport

def browserWebSocketOpenState (t : Transport) : ℕ := t.ctorOpen.getD 1

def highWaterMark (t : Transport) : ℕ := t.opts.highWaterMark.getD (256 * 1024)

def lowWaterMark (t : Transport) : ℕ := t.opts.lowWaterMark.getD (64 * 1024)

def drainTimeoutMs (t : Transport) : ℕ := t.opts.drainTimeoutMs.getD 5000

end Transport

/-- The promise of `waitForWebSocketDrain`. -/
inductive Wait where
  | resolved
  | rejected (message : String)
  | polling (deadline : ℕ)

def notOpen : String := "websocket is not open"

def closedWhileWaiting : String := "websocket closed while waiting for buffered data to drain"

def waitForWebSocketDrain (t : Transport) (look : Look) (maxBufferedAmount : ℕ) : Wait :=
  if look.readyState ≠ t.browserWebSocketOpenState then .rejected notOpen
  else if look.bufferedAmount ≤ maxBufferedAmount then .resolved
  else .polling (look.now + t.drainTimeoutMs)

def poll (t : Transport) (look : Look) (maxBufferedAmount deadline : ℕ) : Wait :=
  if look.readyState ≠ t.browserWebSocketOpenState then .rejected closedWhileWaiting
  else if look.bufferedAmount ≤ maxBufferedAmount ∨ deadline ≤ look.now then .resolved
  else .polling deadline

/-- Where a run of `send` is. -/
inductive Phase where
  /-- In the wait before `ws.send`. -/
  | draining (wait : Wait)
  /-- In the wait after it. -/
  | flushing (wait : Wait)
  | done (result : Except String Unit)

/-- From `ws.send` to the next `await`. -/
def handOver (t : Transport) (call : Call) : Phase :=
  match call.thrown with
  | some message => .done (.error message)
  | none => .flushing (waitForWebSocketDrain t call.after t.lowWaterMark)

/-- From the start of a run to its first `await`; whether it calls `ws.send`. -/
def start (t : Transport) (look : Look) (call : Call) : Phase × Bool :=
  if look.readyState ≠ t.browserWebSocketOpenState then (.done (.error notOpen), false)
  else if look.bufferedAmount > t.highWaterMark then
    (.draining (waitForWebSocketDrain t look t.lowWaterMark), false)
  else (handOver t call, true)

/-- From an `await` that has settled to the next. -/
def resume (t : Transport) (call : Call) : Phase → Option (Phase × Bool)
  | .draining .resolved => some (handOver t call, true)
  | .draining (.rejected message) => some (.done (.error message), false)
  | .flushing .resolved => some (.done (.ok ()), false)
  | .flushing (.rejected message) => some (.done (.error message), false)
  | .draining (.polling _) | .flushing (.polling _) | .done _ => none

/-- A timer of the wait fires. -/
def Phase.poll (t : Transport) (look : Look) : Phase → Option Phase
  | .draining (.polling deadline) =>
    some (.draining (BrowserSocket.poll t look t.lowWaterMark deadline))
  | .flushing (.polling deadline) =>
    some (.flushing (BrowserSocket.poll t look t.lowWaterMark deadline))
  | .draining _ | .flushing _ | .done _ => none

structure Sender where
  sendQueue : Chain Bytes String := {}
  /-- The run that has not settled, with the place of its call. -/
  current : Option (ℕ × Phase) := none
  /-- What `ws.send` was called with, each with the place of its call. -/
  sent : List Message := []

namespace Sender

def send (bytes : Bytes) (s : Sender) : Sender := { s with sendQueue := s.sendQueue.add bytes }

/-- A run has gone on. -/
def goneOn (s : Sender) (i : ℕ) (job : Bytes) (next : Phase × Bool) : Sender :=
  { s with
    current := some (i, next.1)
    sent := if next.2 then s.sent ++ [(job, i)] else s.sent }

/-- The call at a place has its turn. -/
def goOn (t : Transport) (i : ℕ) (look : Look) (call : Call) (s : Sender) : Option Sender :=
  s.sendQueue.links[i]?.bind fun link =>
    (s.sendQueue.goOn false i).map fun sendQueue =>
      { s with sendQueue }.goneOn i link.job (start t look call)

def polls (t : Transport) (look : Look) (s : Sender) : Option Sender :=
  s.current.bind fun (i, phase) =>
    (phase.poll t look).map fun phase => { s with current := some (i, phase) }

def resumes (t : Transport) (call : Call) (s : Sender) : Option Sender :=
  s.current.bind fun (i, phase) =>
    s.sendQueue.links[i]?.bind fun link =>
      (resume t call phase).map fun next => s.goneOn i link.job next

/-- The run settles, and with it the promise of its call. -/
def settles (s : Sender) : Option Sender :=
  match s.current with
  | some (i, .done result) =>
    (s.sendQueue.settle i result).map fun sendQueue => { s with sendQueue, current := none }
  | _ => none

end Sender

/-! ## The transport -/

structure State where
  listeners : List Listener := []
  sender : Sender := {}

inductive Event where
  | onMessage
  | message (data : Data)
  /-- The `arrayBuffer()` that a subscription awaits for its message at a place resolves. -/
  | blobResolves (subscription place : ℕ)
  | runJob (subscription : ℕ)
  | unsubscribe (subscription : ℕ)
  | send (bytes : Bytes)
  | goOn (i : ℕ) (look : Look) (call : Call)
  | polls (look : Look)
  | resumes (call : Call)
  | settles

namespace State

/-- A subscription takes a step. -/
def update (s : State) (subscription : ℕ) (step : Listener → Option Listener) : Option State :=
  s.listeners[subscription]?.bind fun l =>
    (step l).map fun l => { s with listeners := s.listeners.set subscription l }

def step (t : Transport) (s : State) : Event → Option State
  | .onMessage => some { s with listeners := s.listeners ++ [{}] }
  | .message data => some { s with listeners := s.listeners.map (·.onMessage data) }
  | .blobResolves subscription place => s.update subscription (·.blobResolves place)
  | .runJob subscription => s.update subscription (·.runJob)
  | .unsubscribe subscription => s.update subscription fun l => some l.unsubscribe
  | .send bytes => some { s with sender := s.sender.send bytes }
  | .goOn i look call => (s.sender.goOn t i look call).map fun sender => { s with sender }
  | .polls look => (s.sender.polls t look).map fun sender => { s with sender }
  | .resumes call => (s.sender.resumes t call).map fun sender => { s with sender }
  | .settles => s.sender.settles.map fun sender => { s with sender }

def run (t : Transport) (events : List Event) : Option State := events.foldlM (step t) {}

end State

/-! ## First in, first out -/

/-- The handler is called in the order of the events. -/
structure Listener.Fifo (l : Listener) : Prop where
  /-- No message is missing in between, or comes twice. -/
  in_order : l.received <+: l.binaries.zipIdx
  /-- Nothing is lost while subscribed. -/
  all : l.active = true → l.blobs = [] → l.jobs = [] → l.received = l.binaries.zipIdx

/-- Messages are handed to `ws.send` in the order of the calls. -/
structure Sender.Fifo (t : Transport) (s : Sender) : Prop where
  in_order : s.sent.Pairwise fun earlier later => earlier.2 < later.2
  of_call : ∀ m ∈ s.sent, (s.sendQueue.links.map Link.job)[m.2]? = some m.1
  /-- A call resolves once its message is handed over. -/
  fulfilled : ∀ i job, s.sendQueue.links[i]? = some ⟨job, .fulfilled⟩ →
    (job, i) ∈ s.sent
  /-- A message that is not handed over is not for an open socket. -/
  rejected : ∀ i job e, s.sendQueue.links[i]? = some ⟨job, .rejected e⟩ →
    (job, i) ∈ s.sent ∨ e = notOpen ∨ e = closedWhileWaiting
  /-- No call rejects with the error of another. -/
  own_run : ∀ (i : ℕ) link e, s.sendQueue.links[i]? = some link → link.state ≠ .skipped e
  /-- Whatever becomes of a call, the next one has its turn. -/
  goes_on : ∀ i job look call, (s.sendQueue.before i).IsSettled →
    s.sendQueue.links[i]? = some ⟨job, .waiting⟩ →
    look.readyState = t.browserWebSocketOpenState → look.bufferedAmount ≤ t.highWaterMark →
    ∃ s', s.goOn t i look call = some s' ∧ s'.sent = s.sent ++ [(job, i)]

structure State.Fifo (t : Transport) (s : State) : Prop where
  received : ∀ l ∈ s.listeners, l.Fifo
  sent : s.sender.Fifo t

/-- No Blob is pending, or still to be converted. -/
def Listener.NoBlob (l : Listener) : Prop :=
  l.blobs = [] ∧ ∀ job ∈ l.jobs, job.converted = none

instance (l : Listener) : Decidable l.NoBlob := inferInstanceAs (Decidable (_ ∧ _))

/-- The data are not bytes that overtake a Blob. -/
def Listener.Behind (data : Data) (l : Listener) : Prop :=
  match coerceWebSocketDataToBytes data with
  | .bytes _ => l.active = true → l.NoBlob
  | .promise _ | .null => True

/-- The bytes of a message become available behind those of the messages before it. -/
def State.InTurn (s : State) : Event → Prop
  | .message data => ∀ l ∈ s.listeners, l.Behind data
  | .blobResolves subscription place => ∀ l ∈ s.listeners[subscription]?,
    l.active = true → ∀ message ∈ l.blobs.head?, message.2 = place
  | .onMessage | .runJob _ | .unsubscribe _ | .send _ | .goOn .. | .polls _ | .resumes _
  | .settles => True

instance (data : Data) (l : Listener) : Decidable (l.Behind data) := by
  unfold Listener.Behind
  split <;> infer_instance

instance (s : State) (e : Event) : Decidable (s.InTurn e) := by
  cases e <;> unfold State.InTurn <;> infer_instance

/-! ## What a subscription receives -/

namespace Listener

/-- The messages that are on their way. -/
def coming (l : Listener) : List Message :=
  l.jobs.filterMap Job.delivered ++ l.jobs.filterMap Job.converted ++ l.blobs

/-- What has come and what is on its way are the messages, in their order. -/
structure Sound (l : Listener) : Prop where
  in_order : l.received <+: l.binaries.zipIdx
  coming : l.active = true → l.received ++ l.coming = l.binaries.zipIdx

variable {l l' : Listener}

theorem Sound.new : Sound {} := ⟨List.nil_prefix, fun _ => rfl⟩

theorem Sound.fifo (h : l.Sound) : l.Fifo where
  in_order := h.in_order
  all hactive hblobs hjobs := by
    have hcoming := h.coming hactive
    rw [Listener.coming, hblobs, hjobs] at hcoming
    exact (List.append_nil _).symm.trans hcoming

theorem NoBlob.converted (h : l.NoBlob) : l.jobs.filterMap Job.converted = [] :=
  List.filterMap_eq_nil_iff.mpr h.2

theorem Sound.onMessage {data : Data} (h : l.Sound) (hturn : l.Behind data) :
    (l.onMessage data).Sound := by
  unfold Listener.Behind at hturn
  unfold Listener.onMessage
  split
  · rename_i hactive
    have hcoming := h.coming hactive
    cases hdata : coerceWebSocketDataToBytes data with
    | bytes bytes =>
      rw [hdata] at hturn
      have hblob : l.NoBlob := hturn hactive
      refine ⟨?_, fun _ => ?_⟩
      · exact h.in_order.trans (by rw [List.zipIdx_append]; exact List.prefix_append ..)
      · rw [Listener.coming, hblob.converted, hblob.1] at hcoming
        simp [Listener.coming, Job.delivered, Job.converted, hblob.converted, hblob.1,
          List.filterMap_append, List.zipIdx_append, ← hcoming]
    | promise bytes =>
      refine ⟨?_, fun _ => ?_⟩
      · exact h.in_order.trans (by rw [List.zipIdx_append]; exact List.prefix_append ..)
      · simp [Listener.coming, List.zipIdx_append, ← hcoming]
    | null =>
      refine ⟨h.in_order, fun _ => ?_⟩
      simpa [Listener.coming, List.filterMap_append, Job.delivered, Job.converted,
        List.filterMap_cons] using hcoming
  · exact h

theorem Sound.blobResolves {place : ℕ} (h : l.Sound)
    (hturn : l.active = true → ∀ message ∈ l.blobs.head?, message.2 = place)
    (hresolves : l.blobResolves place = some l') : l'.Sound := by
  obtain ⟨message, hfind, rfl⟩ := Option.map_eq_some_iff.mp hresolves
  refine ⟨h.in_order, fun hactive => ?_⟩
  have hcoming := h.coming hactive
  cases hblobs : l.blobs with
  | nil =>
    rw [hblobs] at hfind
    cases hfind
  | cons first blobs =>
    have hfirst : first.2 = place := hturn hactive first (by rw [hblobs]; rfl)
    rw [hblobs, List.find?_cons_of_pos (by simpa using hfirst)] at hfind
    cases hfind
    rw [Listener.coming, hblobs] at hcoming
    simpa [Listener.coming, List.filterMap_append, Job.delivered, Job.converted,
        List.filterMap_cons, hblobs]
      using hcoming

theorem Sound.runJob (h : l.Sound) (hrun : l.runJob = some l') : l'.Sound := by
  unfold Listener.runJob at hrun
  split at hrun
  · cases hrun
  · rename_i message jobs hjobs
    cases hrun
    refine ⟨h.in_order, fun hactive => ?_⟩
    have hcoming := h.coming hactive
    rw [Listener.coming, hjobs] at hcoming
    simpa [Listener.coming, List.filterMap_append, Job.delivered, Job.converted,
        List.filterMap_cons] using hcoming
  · rename_i message jobs hjobs
    cases hrun
    cases hactive : l.active with
    | false => exact ⟨by simpa [hactive] using h.in_order, by simp⟩
    | true =>
      have hcoming := h.coming hactive
      rw [Listener.coming, hjobs] at hcoming
      have hall : (l.received ++ message.toList) ++
          (jobs.filterMap Job.delivered ++ jobs.filterMap Job.converted ++ l.blobs) =
            l.binaries.zipIdx := by
        cases message with
        | none => simpa [Job.delivered, Job.converted, List.filterMap_cons] using hcoming
        | some message => simpa [Job.delivered, Job.converted, List.filterMap_cons] using hcoming
      refine ⟨?_, fun _ => ?_⟩
      · rw [if_pos rfl, ← hall]
        exact List.prefix_append ..
      · rw [if_pos rfl]
        exact hall

theorem Sound.unsubscribe (h : l.Sound) : l.unsubscribe.Sound :=
  ⟨h.in_order, fun hactive => by cases hactive⟩

end Listener

/-! ## What is sent -/

namespace Sender

/-- What a rejection has as its reason where nothing was handed over. -/
def NotSent (message : String) : Prop := message = notOpen ∨ message = closedWhileWaiting

/-- A wait rejects only because of the socket. -/
def Wait.Ok (wait : Wait) : Prop := ∀ message, wait = .rejected message → NotSent message

/-- Where a run is and whether its message is handed over. -/
def Ok (handed : Prop) : Phase → Prop
  | .draining wait => ¬ handed ∧ Wait.Ok wait
  | .flushing _ => handed
  | .done (.ok ()) => handed
  | .done (.error message) => handed ∨ NotSent message

structure Sound (s : Sender) : Prop where
  chain : s.sendQueue.Sound false
  current : ∀ i phase, s.current = some (i, phase) →
    ∃ job, s.sendQueue.links[i]? = some ⟨job, .running⟩ ∧ Ok ((job, i) ∈ s.sent) phase
  in_order : s.sent.Pairwise fun earlier later => earlier.2 < later.2
  of_call : ∀ m ∈ s.sent,
    ∃ state, s.sendQueue.links[m.2]? = some ⟨m.1, state⟩ ∧ state ≠ .waiting
  fulfilled : ∀ i job, s.sendQueue.links[i]? = some ⟨job, .fulfilled⟩ → (job, i) ∈ s.sent
  rejected : ∀ i job e, s.sendQueue.links[i]? = some ⟨job, .rejected e⟩ →
    (job, i) ∈ s.sent ∨ NotSent e

variable {t : Transport} {s s' : Sender} {i : ℕ} {job : Bytes} {look : Look} {call : Call}

theorem Sound.empty : Sound {} where
  chain := .empty
  current := by simp
  in_order := .nil
  of_call := by simp
  fulfilled := by simp
  rejected := by simp

theorem goes_on {look : Look} (hbefore : (s.sendQueue.before i).IsSettled)
    (hlink : s.sendQueue.links[i]? = some ⟨job, .waiting⟩)
    (hopen : look.readyState = t.browserWebSocketOpenState)
    (hlow : look.bufferedAmount ≤ t.highWaterMark) :
    ∃ s', s.goOn t i look call = some s' ∧ s'.sent = s.sent ++ [(job, i)] := by
  have hreact : ∃ sendQueue, s.sendQueue.goOn false i = some sendQueue := by
    rw [Chain.goOn, hlink]
    cases hstate : s.sendQueue.before i with
    | waiting | running =>
      rw [hstate] at hbefore
      cases hbefore
    | fulfilled | rejected e | skipped e => exact ⟨_, rfl⟩
  obtain ⟨sendQueue, hgoOn⟩ := hreact
  refine ⟨{ s with sendQueue }.goneOn i job (start t look call), ?_, ?_⟩
  · rw [goOn, hlink, hgoOn]
    rfl
  · rw [start, if_neg (not_not_intro hopen), if_neg (Nat.not_lt.mpr hlow)]
    rfl

theorem Sound.fifo (h : s.Sound) : s.Fifo t where
  in_order := h.in_order
  of_call m hm := by
    obtain ⟨state, hlink, -⟩ := h.of_call m hm
    rw [List.getElem?_map, hlink]
    rfl
  fulfilled := h.fulfilled
  rejected := h.rejected
  own_run _ _ _ hlink := h.chain.not_skipped hlink
  goes_on _ _ _ _ := goes_on

/-! ### Phases -/

theorem wait_ok {maxBufferedAmount : ℕ} :
    Wait.Ok (waitForWebSocketDrain t look maxBufferedAmount) := by
  intro message hwait
  unfold waitForWebSocketDrain at hwait
  split at hwait
  · cases hwait
    exact .inl rfl
  split at hwait <;> cases hwait

theorem poll_ok {maxBufferedAmount deadline : ℕ} :
    Wait.Ok (poll t look maxBufferedAmount deadline) := by
  intro message hwait
  unfold poll at hwait
  split at hwait
  · cases hwait
    exact .inr rfl
  split at hwait <;> cases hwait

variable {handed : Prop} {phase phase' : Phase} {next : Phase × Bool}

theorem handOver_ok (h : handed) : Ok handed (handOver t call) := by
  unfold handOver
  split
  · exact .inl h
  · exact h

/-- A run that has not handed its message over goes on, and may hand it over. -/
def Next (handed : Prop) (next : Phase × Bool) : Prop :=
  if next.2 then ¬ handed ∧ ∀ handed', handed' → Ok handed' next.1 else Ok handed next.1

theorem start_ok (h : ¬ handed) : Next handed (start t look call) := by
  unfold start
  split
  · exact .inr (.inl rfl)
  split
  · exact ⟨h, wait_ok⟩
  · exact ⟨h, fun _ => handOver_ok⟩

theorem resume_ok (h : Ok handed phase) (hresume : resume t call phase = some next) :
    Next handed next := by
  unfold resume at hresume
  split at hresume <;> cases hresume
  · exact ⟨h.1, fun _ => handOver_ok⟩
  · exact .inr (h.2 _ rfl)
  · exact h
  · exact .inl h

theorem phase_poll_ok (h : Ok handed phase) (hpoll : phase.poll t look = some phase') :
    Ok handed phase' := by
  unfold Phase.poll at hpoll
  split at hpoll <;> cases hpoll
  · exact ⟨h.1, poll_ok⟩
  · exact h

/-! ### Steps -/

theorem Sound.send {bytes : Bytes} (h : s.Sound) : (s.send bytes).Sound := by
  have hlink : ∀ {i : ℕ} {link : Link Bytes String}, link.state ≠ .waiting →
      (s.send bytes).sendQueue.links[i]? = some link → s.sendQueue.links[i]? = some link := by
    intro i link hstate hlink
    rcases Nat.lt_or_ge i s.sendQueue.links.length with hlt | hge
    · rwa [Sender.send, Chain.add, List.getElem?_append_left hlt] at hlink
    · rw [Sender.send, Chain.add, List.getElem?_append_right hge] at hlink
      rw [List.mem_singleton.mp (List.mem_of_getElem? hlink)] at hstate
      exact absurd rfl hstate
  have hkept : ∀ {i : ℕ} {link : Link Bytes String}, s.sendQueue.links[i]? = some link →
      (s.send bytes).sendQueue.links[i]? = some link := fun hi => by
    rw [Sender.send, Chain.add, List.getElem?_append_left (List.getElem?_eq_some_iff.mp hi).1, hi]
  refine ⟨h.chain.add, fun i phase hcurrent => ?_, h.in_order, fun m hm => ?_,
    fun i job hi => h.fulfilled i job (hlink (by simp) hi),
    fun i job e hi => h.rejected i job e (hlink (by simp) hi)⟩
  · obtain ⟨job, hi, hok⟩ := h.current i phase hcurrent
    exact ⟨job, hkept hi, hok⟩
  · obtain ⟨state, hi, hstate⟩ := h.of_call m hm
    exact ⟨state, hkept hi, hstate⟩

/-- A run goes on to its next `await`. -/
theorem Sound.goneOn (h : Sound { s with current := none })
    (hi : s.sendQueue.links[i]? = some ⟨job, .running⟩)
    (hnext : Next ((job, i) ∈ s.sent) next) : (s.goneOn i job next).Sound := by
  obtain ⟨phase, sends⟩ := next
  cases sends with
  | false =>
    refine ⟨h.chain, fun j phase hcurrent => ?_, h.in_order, h.of_call, h.fulfilled, h.rejected⟩
    cases hcurrent
    exact ⟨job, hi, hnext⟩
  | true =>
    obtain ⟨hfresh, hok⟩ := hnext
    refine ⟨h.chain, fun j phase hcurrent => ?_, ?_, fun m hm => ?_,
      fun j job hj => List.mem_append_left _ (h.fulfilled j job hj),
      fun j job e hj => (h.rejected j job e hj).imp_left (List.mem_append_left _)⟩
    · cases hcurrent
      exact ⟨job, hi, hok _ (List.mem_append_right _ List.mem_cons_self)⟩
    · refine List.pairwise_append.mpr ⟨h.in_order, List.pairwise_singleton .., ?_⟩
      intro m hm last hlast
      rw [List.mem_singleton.mp hlast]
      obtain ⟨state, hlink, hstate⟩ := h.of_call m hm
      rcases Nat.lt_trichotomy m.2 i with hlt | heq | hgt
      · exact hlt
      · rw [heq] at hlink
        cases hi.symm.trans hlink
        subst heq
        exact absurd hm hfresh
      · exact absurd (h.chain.waiting hi id hgt hlink) hstate
    · rcases List.mem_append.mp hm with hm | hm
      · exact h.of_call m hm
      · rw [List.mem_singleton.mp hm]
        exact ⟨.running, hi, by simp⟩

/-- The link of a call changes. -/
theorem Sound.relink {sendQueue : Chain Bytes String} {old state : LinkState String}
    (h : s.Sound) (hchain : sendQueue.Sound false)
    (hi : s.sendQueue.links[i]? = some ⟨job, old⟩)
    (hlinks : sendQueue.links = s.sendQueue.links.set i ⟨job, state⟩) (hstate : state ≠ .waiting)
    (hfulfilled : state = .fulfilled → (job, i) ∈ s.sent)
    (hrejected : ∀ e, state = .rejected e → (job, i) ∈ s.sent ∨ NotSent e) :
    Sound { s with sendQueue, current := none } := by
  have hlink : ∀ j link, sendQueue.links[j]? = some link →
      (j = i ∧ link = ⟨job, state⟩) ∨ s.sendQueue.links[j]? = some link := by
    intro j link hj
    rw [hlinks, List.getElem?_set] at hj
    split at hj
    · rename_i heq
      subst heq
      rw [if_pos (List.getElem?_eq_some_iff.mp hi).1] at hj
      exact .inl ⟨rfl, (Option.some.inj hj).symm⟩
    · exact .inr hj
  refine ⟨hchain, by simp, h.in_order, fun m hm => ?_, fun j job' hj => ?_,
    fun j job' e hj => ?_⟩
  · obtain ⟨old', hold, hold'⟩ := h.of_call m hm
    dsimp only
    rw [hlinks, List.getElem?_set]
    split
    · rename_i heq
      subst heq
      cases hi.symm.trans hold
      exact ⟨state, if_pos (List.getElem?_eq_some_iff.mp hi).1, hstate⟩
    · exact ⟨old', hold, hold'⟩
  · rcases hlink j _ hj with ⟨rfl, heq⟩ | hj
    · cases heq
      exact hfulfilled rfl
    · exact h.fulfilled j job' hj
  · rcases hlink j _ hj with ⟨rfl, heq⟩ | hj
    · cases heq
      exact hrejected e rfl
    · exact h.rejected j job' e hj

theorem Sound.goOn (h : s.Sound) (hgoOn : s.goOn t i look call = some s') : s'.Sound := by
  obtain ⟨link, hlink, hgoOn⟩ := Option.bind_eq_some_iff.mp hgoOn
  obtain ⟨sendQueue, hqueue, rfl⟩ := Option.map_eq_some_iff.mp hgoOn
  obtain ⟨job, hi, hlinks⟩ := Chain.goOn_links hqueue
  cases hi.symm.trans hlink
  have hfresh : (job, i) ∉ s.sent := fun hm => by
    obtain ⟨state, hsent, hstate⟩ := h.of_call _ hm
    cases hi.symm.trans hsent
    exact hstate rfl
  refine goneOn (h.relink (h.chain.goOn hqueue) hi hlinks (by simp) (by simp) (by simp)) ?_
    (start_ok hfresh)
  dsimp only
  rw [hlinks, List.getElem?_set_self (List.getElem?_eq_some_iff.mp hi).1]

theorem Sound.polls (h : s.Sound) (hpolls : s.polls t look = some s') : s'.Sound := by
  obtain ⟨⟨i, phase⟩, hcurrent, hpolls⟩ := Option.bind_eq_some_iff.mp hpolls
  obtain ⟨phase', hpoll, rfl⟩ := Option.map_eq_some_iff.mp hpolls
  obtain ⟨job, hi, hok⟩ := h.current i phase hcurrent
  refine ⟨h.chain, fun j phase hcurrent => ?_, h.in_order, h.of_call, h.fulfilled, h.rejected⟩
  cases hcurrent
  exact ⟨job, hi, phase_poll_ok hok hpoll⟩

theorem Sound.resumes (h : s.Sound) (hresumes : s.resumes t call = some s') : s'.Sound := by
  obtain ⟨⟨i, phase⟩, hcurrent, hresumes⟩ := Option.bind_eq_some_iff.mp hresumes
  obtain ⟨link, hlink, hresumes⟩ := Option.bind_eq_some_iff.mp hresumes
  obtain ⟨next, hresume, rfl⟩ := Option.map_eq_some_iff.mp hresumes
  obtain ⟨job, hi, hok⟩ := h.current i phase hcurrent
  cases hi.symm.trans hlink
  exact goneOn ⟨h.chain, by simp, h.in_order, h.of_call, h.fulfilled, h.rejected⟩ hi
    (resume_ok hok hresume)

theorem Sound.settles (h : s.Sound) (hsettles : s.settles = some s') : s'.Sound := by
  unfold Sender.settles at hsettles
  split at hsettles
  · rename_i i result hcurrent
    obtain ⟨sendQueue, hsettle, rfl⟩ := Option.map_eq_some_iff.mp hsettles
    obtain ⟨job, hi, hlinks⟩ := Chain.settle_links hsettle
    obtain ⟨job', hi', hok⟩ := h.current i _ hcurrent
    cases hi.symm.trans hi'
    refine h.relink (h.chain.settle hsettle) hi hlinks ?_ ?_ ?_
    · cases result <;> simp [LinkState.ofResult]
    · intro hresult
      cases result with
      | ok => exact hok
      | error e => cases hresult
    · intro e hresult
      cases result with
      | ok => cases hresult
      | error e' =>
        cases hresult
        exact hok
  · cases hsettles

end Sender

/-! ## Runs -/

namespace State

variable {t : Transport} {s s' : State} {e : Event} {events : List Event}

theorem received_update {subscription : ℕ} {step : Listener → Option Listener}
    (h : ∀ l ∈ s.listeners, l.Sound)
    (hstep : ∀ l l', s.listeners[subscription]? = some l → l.Sound → step l = some l' → l'.Sound)
    (hupdate : s.update subscription step = some s') : ∀ l ∈ s'.listeners, l.Sound := by
  obtain ⟨l, hl, hupdate⟩ := Option.bind_eq_some_iff.mp hupdate
  obtain ⟨l', hl', rfl⟩ := Option.map_eq_some_iff.mp hupdate
  intro other hother
  rcases List.mem_or_eq_of_mem_set hother with hmem | rfl
  · exact h other hmem
  · exact hstep l other hl (h l (List.mem_of_getElem? hl)) hl'

theorem sender_update {subscription : ℕ} {step : Listener → Option Listener}
    (hupdate : s.update subscription step = some s') : s'.sender = s.sender := by
  obtain ⟨l, -, hupdate⟩ := Option.bind_eq_some_iff.mp hupdate
  obtain ⟨l', -, rfl⟩ := Option.map_eq_some_iff.mp hupdate
  rfl

theorem received_step (h : ∀ l ∈ s.listeners, l.Sound) (hturn : s.InTurn e)
    (hstep : s.step t e = some s') : ∀ l ∈ s'.listeners, l.Sound := by
  cases e with
  | onMessage =>
    cases hstep
    intro l hl
    rcases List.mem_append.mp hl with hl | hl
    · exact h l hl
    · rw [List.mem_singleton.mp hl]
      exact .new
  | message data =>
    cases hstep
    intro l' hl'
    obtain ⟨l, hl, rfl⟩ := List.mem_map.mp hl'
    exact (h l hl).onMessage (hturn l hl)
  | blobResolves subscription place =>
    exact received_update h (fun l l' hl hsound => hsound.blobResolves (hturn l hl)) hstep
  | runJob subscription => exact received_update h (fun l l' _ hsound => hsound.runJob) hstep
  | unsubscribe subscription =>
    refine received_update h (fun l l' _ hsound hl' => ?_) hstep
    cases hl'
    exact hsound.unsubscribe
  | send bytes =>
    cases hstep
    exact h
  | goOn | polls | resumes | settles =>
    obtain ⟨sender, -, rfl⟩ := Option.map_eq_some_iff.mp hstep
    exact h

theorem sender_step (h : s.sender.Sound) (hstep : s.step t e = some s') : s'.sender.Sound := by
  cases e with
  | onMessage | message =>
    cases hstep
    exact h
  | blobResolves | runJob | unsubscribe =>
    rw [sender_update hstep]
    exact h
  | send bytes =>
    cases hstep
    exact h.send
  | goOn i look call =>
    obtain ⟨sender, hgoOn, rfl⟩ := Option.map_eq_some_iff.mp hstep
    exact h.goOn hgoOn
  | polls look =>
    obtain ⟨sender, hpolls, rfl⟩ := Option.map_eq_some_iff.mp hstep
    exact h.polls hpolls
  | resumes call =>
    obtain ⟨sender, hresumes, rfl⟩ := Option.map_eq_some_iff.mp hstep
    exact h.resumes hresumes
  | settles =>
    obtain ⟨sender, hsettles, rfl⟩ := Option.map_eq_some_iff.mp hstep
    exact h.settles hsettles

/-- Whatever the socket does, messages are sent in the order of the calls. -/
theorem run_sent (hrun : run t events = some s) : s.sender.Fifo t :=
  (invariant_of_step (fun _ _ _ => sender_step) .empty hrun).fifo

/-- Where the bytes of messages become available in their turn, both directions are in order. -/
theorem run_fifo (hturn : Along (step t) InTurn {} events) (hrun : run t events = some s) :
    s.Fifo t where
  received l hl :=
    (hturn.invariant (fun _ _ _ => received_step) (by simp) hrun l hl).fifo
  sent := run_sent hrun

/-- A Blob that resolves before the next message, and a call that fails in front of another. -/
theorem run_fifo_in_turn :
    let events : List Event := [.onMessage, .message (.blob [1]), .blobResolves 0 0, .runJob 0,
      .runJob 0, .message (.uint8Array [2]), .runJob 0, .send [3], .send [4],
      .goOn 0 ⟨1, 0, 0⟩ ⟨some "boom", ⟨1, 0, 0⟩⟩, .settles,
      .goOn 1 ⟨1, 300000, 5⟩ ⟨none, ⟨1, 0, 5⟩⟩, .polls ⟨1, 0, 13⟩, .resumes ⟨none, ⟨1, 0, 13⟩⟩]
    ∃ hrun : (run {} events).isSome = true, ((run {} events).get hrun).Fifo {} :=
  ⟨rfl, run_fifo (by decide) (Option.some_get _).symm⟩

/-- The Blob of the second message resolves first. -/
theorem blob_overtakes :
    ¬ ∀ s, run {} [.onMessage, .message (.blob [1]), .message (.blob [2]), .blobResolves 0 1,
      .runJob 0, .runJob 0] = some s → s.Fifo {} := by
  intro h
  have horder := ((h _ rfl).received _ List.mem_cons_self).in_order
  revert horder
  decide

end State

end BrowserSocket

end Sync

end Treecrdt
