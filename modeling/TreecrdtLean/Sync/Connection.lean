import TreecrdtLean.Core.Ids
import TreecrdtLean.Lib.Exec
import TreecrdtLean.Lib.Trace

/-!
# Connections of the sync server (`server.ts`)

A connection opens its document asynchronously, and only then listens to the messages of its socket.
The WebSocket library hands a frame to the listeners of the moment: a frame that comes before the
document is open is gone (`deliversAll_iff`).

The model runs what the event loop runs, for all connections of a process. The events of a
connection begin behind its upgrade, which has found a document id.
-/

namespace Treecrdt

namespace Sync

namespace Server

/-! ## The model -/

/-- `WebSocket.RawData`. -/
inductive RawData where
  | buffer (bytes : Bytes)
  | arrayBuffer (bytes : Bytes)
  | fragments (chunks : List Bytes)
  deriving DecidableEq

def toUint8Array : RawData → Bytes
  | .buffer bytes => bytes
  | .arrayBuffer bytes => bytes
  | .fragments chunks => chunks.flatten

/-- A frame; the `message` listener does not look at `isBinary`. -/
structure Frame where
  data : RawData
  isBinary : Bool
  deriving DecidableEq

inductive ReadyState where
  | opened
  | closing
  | closed
  deriving DecidableEq

/-- The handler of a connection, where it waits: `M` are the messages of the peer. -/
structure Connection (M : Type) where
  readyState : ReadyState := .opened
  cleaned : Bool := false
  /-- `opts.docs.open` is pending. -/
  opening : Bool := true
  /-- `detach` is set: the peer listens to the frames of the socket. -/
  attached : Bool := false
  /-- Calls of `doc.release`. -/
  releases : ℕ := 0
  /-- The messages that the peer has got, with their frames. -/
  delivered : List (Frame × M) := []
  deriving DecidableEq

/-- What happens on a connection. -/
inductive Event where
  | message (frame : Frame)
  /-- `opts.docs.open` resolves. -/
  | docOpened
  /-- `opts.docs.open` rejects. -/
  | docFailed
  /-- The peer calls `onError`. -/
  | handlerError
  | closed
  | errored
  deriving DecidableEq

variable {Id M : Type} [DecidableEq Id]

namespace Connection

def cleanup (c : Connection M) : Connection M :=
  if c.cleaned then c
  else { c with
    cleaned := true, attached := false
    releases := if c.attached then c.releases + 1 else c.releases }

/-- `ws.close` of the server, on an open socket. -/
def close (c : Connection M) : Connection M :=
  if c.readyState = .opened then { c with readyState := .closing } else c

@[simp] theorem close_cleaned (c : Connection M) : c.close.cleaned = c.cleaned := by
  unfold close
  split <;> rfl

@[simp] theorem close_opening (c : Connection M) : c.close.opening = c.opening := by
  unfold close
  split <;> rfl

@[simp] theorem close_attached (c : Connection M) : c.close.attached = c.attached := by
  unfold close
  split <;> rfl

@[simp] theorem close_delivered (c : Connection M) : c.close.delivered = c.delivered := by
  unfold close
  split <;> rfl

/-- The handler of the connection, behind `await opts.docs.open(docId)`. -/
def docOpened (c : Connection M) : Connection M :=
  if !c.opening then c
  else if c.cleaned then { c with opening := false, releases := c.releases + 1 }
  else { c with opening := false, attached := true }

def docFailed (c : Connection M) : Connection M :=
  if !c.opening then c
  else if c.cleaned then { c with opening := false }
  else { c with opening := false }.close

/-- The listener of `createWebSocketTransport`, with the codec around it. -/
def onMessage (decode : Bytes → Except String M) (frame : Frame) (c : Connection M) :
    Except String (Connection M) :=
  if !c.attached then return c
  else do
    let message ← decode (toUint8Array frame.data)
    return { c with delivered := c.delivered ++ [(frame, message)] }

/-- One event of the connection; an error escapes the callback. -/
def step (decode : Bytes → Except String M) (c : Connection M) :
    Event → Except String (Connection M)
  | .message frame => onMessage decode frame c
  | .docOpened => return c.docOpened
  | .docFailed => return c.docFailed
  | .handlerError => return c.close
  | .closed => return { c with readyState := .closed }.cleanup
  | .errored => return c.cleanup

end Connection

/-- A process: an exception that no callback catches ends it. -/
structure State (Id M : Type) where
  connections : Id → Connection M := fun _ => {}
  uncaught : Option String := none

def State.step (decode : Bytes → Except String M) (s : State Id M) (e : Id × Event) : State Id M :=
  if s.uncaught.isSome then s
  else
    match (s.connections e.1).step decode e.2 with
    | .ok c => { s with connections := Function.update s.connections e.1 c }
    | .error message => { s with uncaught := some message }

def run (decode : Bytes → Except String M) (es : List (Id × Event)) : State Id M :=
  es.foldl (State.step decode) {}

theorem run_concat (decode : Bytes → Except String M) (es : List (Id × Event)) (e : Id × Event) :
    run decode (es ++ [e]) = (run decode es).step decode e := by
  rw [run, List.foldl_append]
  rfl

/-! ## What a run is -/

/-- The socket is gone. -/
def Event.ends : Event → Bool
  | .closed => true
  | .errored => true
  | _ => false

/-- `opts.docs.open` is settled. -/
def Event.settles : Event → Bool
  | .docOpened => true
  | .docFailed => true
  | _ => false

/-- A binary frame. -/
def Event.binary? : Event → Option Frame
  | .message frame => if frame.isBinary then some frame else none
  | _ => none

/-- The events of one connection. -/
def own (id : Id) (es : List (Id × Event)) : List Event :=
  (es.filter (·.1 = id)).map (·.2)

/-- The document is open, and the socket is. -/
def Listening (es : List Event) : Prop :=
  es.find? Event.settles = some .docOpened ∧ ∀ e ∈ es, ¬ e.ends

/-- The binary frames up to the end of the connection. -/
def sent (es : List Event) : List Frame := (es.takeWhile (!·.ends)).filterMap Event.binary?

/-- What the peer has got of binary frames. -/
def Connection.received (c : Connection M) : List (Frame × Except String M) :=
  (c.delivered.filter (·.1.isBinary)).map fun d => (d.1, .ok d.2)

/-- What it is to get: every binary frame, decoded. -/
def expected (decode : Bytes → Except String M) (es : List Event) :
    List (Frame × Except String M) :=
  (sent es).map fun frame => (frame, decode (toUint8Array frame.data))

/-- Every binary frame of the connection has come to the peer, once and in order. -/
def DeliversAll (decode : Bytes → Except String M) (es : List (Id × Event)) (id : Id) : Prop :=
  ((run decode es).connections id).received = expected decode (own id es)

/-- Whatever frame a peer listens to decodes. -/
def Decodes (decode : Bytes → Except String M) (es : List (Id × Event)) : Prop :=
  EachBehind (fun before e => ∀ frame, e.2 = .message frame → Listening (own e.1 before) →
    (decode (toUint8Array frame.data)).isOk) es

/-- Every binary frame of the connection comes when its document is open, and decodes; no frame has
ended the process before. -/
def Timely (decode : Bytes → Except String M) (es : List (Id × Event)) (id : Id) : Prop :=
  EachBehind (fun before e => ∀ frame, e = (id, .message frame) → frame.isBinary →
    (∀ e ∈ own id before, ¬ e.ends) → Listening (own id before) ∧ Decodes decode before ∧
      (decode (toUint8Array frame.data)).isOk) es

/-! ## One connection -/

theorem listening_iff {es : List Event} :
    Listening es ↔ es.find? Event.settles = some .docOpened ∧ es.any Event.ends = false := by
  rw [Listening, List.any_eq_false]

theorem find?_settles_concat (es : List Event) (e : Event) :
    (es ++ [e]).find? Event.settles =
      (es.find? Event.settles).or (if e.settles then some e else none) := by
  rw [List.find?_append, List.find?_singleton]

theorem any_ends_concat (es : List Event) (e : Event) :
    (es ++ [e]).any Event.ends = (es.any Event.ends || e.ends) := by
  rw [List.any_append, List.any_cons, List.any_nil, Bool.or_false]

/-- The frames sent grow with a binary frame on an open socket. -/
theorem sent_concat (es : List Event) (e : Event) :
    sent (es ++ [e]) = sent es ++
      if es.any Event.ends then [] else e.binary?.toList := by
  induction es with
  | nil =>
    cases e with
    | message frame => cases h : frame.isBinary <;> simp [sent, Event.ends, Event.binary?, h]
    | _ => rfl
  | cons x es ih =>
    cases hx : x.ends with
    | true => simp [sent, hx]
    | false =>
      have hcons : ∀ l, sent (x :: l) = x.binary?.toList ++ sent l := fun l => by
        cases hb : x.binary? <;> simp [sent, hx, hb]
      rw [List.cons_append, hcons, hcons, ih, List.any_cons, hx, Bool.false_or, List.append_assoc]

/-- The state of a connection behind its events. -/
structure Tracks (c : Connection M) (es : List Event) : Prop where
  cleaned : c.cleaned = es.any Event.ends
  opening : c.opening = (es.find? Event.settles).isNone
  attached : c.attached = true ↔ Listening es

theorem tracks_nil : Tracks ({} : Connection M) [] where
  cleaned := rfl
  opening := rfl
  attached := by simp [Listening]

theorem Tracks.not_attached {c : Connection M} {es : List Event} (h : Tracks c es)
    (ho : c.opening = true) : c.attached = false := by
  rw [h.opening, Option.isNone_iff_eq_none] at ho
  refine Bool.eq_false_iff.mpr fun ha => ?_
  have := (h.attached.mp ha).1
  rw [ho] at this
  cases this

/-- An event that neither settles the document nor ends the connection. -/
theorem Tracks.keep {c c' : Connection M} {es : List Event} {e : Event} (h : Tracks c es)
    (hsettles : e.settles = false) (hends : e.ends = false) (hcleaned : c'.cleaned = c.cleaned)
    (hopening : c'.opening = c.opening) (hattached : c'.attached = c.attached) :
    Tracks c' (es ++ [e]) where
  cleaned := by rw [hcleaned, h.cleaned, any_ends_concat, hends, Bool.or_false]
  opening := by rw [hopening, h.opening, find?_settles_concat, hsettles]; simp
  attached := by
    rw [hattached, h.attached, listening_iff, listening_iff, find?_settles_concat, any_ends_concat,
      hsettles, hends]
    simp

/-- The end of a connection. -/
theorem Tracks.cleanup {c : Connection M} {es : List Event} {e : Event} (h : Tracks c es)
    (hsettles : e.settles = false) (hends : e.ends = true) : Tracks c.cleanup (es ++ [e]) := by
  have hcases : c.cleanup.cleaned = true ∧ c.cleanup.opening = c.opening ∧
      (c.cleanup.attached = true → False) := by
    unfold Connection.cleanup
    split
    · rename_i hc
      refine ⟨hc, rfl, fun ha => ?_⟩
      have := (listening_iff.mp (h.attached.mp ha)).2
      rw [← h.cleaned, hc] at this
      cases this
    · exact ⟨rfl, rfl, Bool.false_ne_true⟩
  constructor
  · rw [hcases.1, any_ends_concat, hends, Bool.or_true]
  · rw [hcases.2.1, h.opening, find?_settles_concat, hsettles]
    simp
  · rw [listening_iff, any_ends_concat, hends]
    exact iff_of_false hcases.2.2 fun h => by simp at h

/-- The document is there, or not. -/
theorem Tracks.settle {c c' : Connection M} {es : List Event} {e : Event} (h : Tracks c es)
    (hsettles : e.settles = true) (hends : e.ends = false) (hcleaned : c'.cleaned = c.cleaned)
    (hopening : c'.opening = false)
    (hattached : c'.attached =
      if c.opening then decide (e = .docOpened) && !c.cleaned else c.attached) :
    Tracks c' (es ++ [e]) where
  cleaned := by rw [hcleaned, h.cleaned, any_ends_concat, hends, Bool.or_false]
  opening := by rw [hopening, find?_settles_concat, hsettles]; simp
  attached := by
    rw [hattached, h.opening, listening_iff, find?_settles_concat, any_ends_concat, hsettles, hends]
    cases hfind : es.find? Event.settles with
    | none => simp [h.cleaned]
    | some x => simp [h.attached, listening_iff, hfind]

theorem Tracks.step {decode : Bytes → Except String M} {c c' : Connection M} {es : List Event}
    {e : Event} (h : Tracks c es) (hstep : c.step decode e = .ok c') : Tracks c' (es ++ [e]) := by
  have hna := h.not_attached
  cases e with
  | message frame =>
    simp only [Connection.step, Connection.onMessage] at hstep
    split at hstep
    · cases hstep
      exact h.keep rfl rfl rfl rfl rfl
    · obtain ⟨message, -, hret⟩ := except_bind_ok hstep
      cases hret
      exact h.keep rfl rfl rfl rfl rfl
  | docOpened =>
    cases hstep
    unfold Connection.docOpened
    cases ho : c.opening with
    | false => exact h.settle rfl rfl rfl ho (by simp [ho])
    | true =>
      cases hc : c.cleaned with
      | false => exact h.settle rfl rfl (by simp [hc]) (by simp) (by simp [ho, hc])
      | true => exact h.settle rfl rfl (by simp [hc]) (by simp) (by simp [ho, hc, hna ho])
  | docFailed =>
    cases hstep
    unfold Connection.docFailed
    cases ho : c.opening with
    | false => exact h.settle rfl rfl rfl ho (by simp [ho])
    | true =>
      cases hc : c.cleaned with
      | false => exact h.settle rfl rfl (by simp [hc]) (by simp) (by simp [ho, hna ho])
      | true => exact h.settle rfl rfl (by simp [hc]) (by simp) (by simp [ho, hna ho])
  | handlerError =>
    cases hstep
    exact h.keep rfl rfl (by simp) (by simp) (by simp)
  | closed =>
    cases hstep
    exact Tracks.cleanup (c := { c with readyState := .closed }) ⟨h.cleaned, h.opening, h.attached⟩
      rfl rfl
  | errored =>
    cases hstep
    exact h.cleanup rfl rfl

/-- What an event does to the messages of the peer. -/
theorem Connection.step_delivered {decode : Bytes → Except String M} {c c' : Connection M}
    {e : Event} (hstep : c.step decode e = .ok c') :
    (c'.delivered = c.delivered ∧ ∀ frame, e = .message frame → c.attached = false) ∨
      ∃ frame m, e = .message frame ∧ c.attached = true ∧
        decode (toUint8Array frame.data) = .ok m ∧
        c'.delivered = c.delivered ++ [(frame, m)] := by
  have hcleanup : ∀ c : Connection M, c.cleanup.delivered = c.delivered := fun c => by
    unfold cleanup
    split <;> rfl
  cases e with
  | message frame =>
    simp only [step, onMessage] at hstep
    cases ha : c.attached with
    | false =>
      rw [ha] at hstep
      cases hstep
      exact Or.inl ⟨rfl, fun _ _ => rfl⟩
    | true =>
      simp only [ha, Bool.not_true, Bool.false_eq_true, if_false] at hstep
      obtain ⟨m, hm, hret⟩ := except_bind_ok hstep
      cases hret
      exact Or.inr ⟨frame, m, rfl, rfl, hm, rfl⟩
  | docOpened =>
    cases hstep
    refine Or.inl ⟨?_, fun _ h => (nomatch h)⟩
    unfold docOpened
    split
    · rfl
    · split <;> rfl
  | docFailed =>
    cases hstep
    refine Or.inl ⟨?_, fun _ h => (nomatch h)⟩
    unfold docFailed
    split
    · rfl
    · split
      · rfl
      · exact close_delivered _
  | handlerError =>
    cases hstep
    exact Or.inl ⟨close_delivered c, fun _ h => (nomatch h)⟩
  | closed =>
    cases hstep
    exact Or.inl ⟨hcleanup _, fun _ h => (nomatch h)⟩
  | errored =>
    cases hstep
    exact Or.inl ⟨hcleanup _, fun _ h => (nomatch h)⟩

/-- Only a frame that the peer listens to, and that does not decode, throws. -/
theorem Connection.step_isOk {decode : Bytes → Except String M} {c : Connection M} {e : Event} :
    (c.step decode e).isOk ↔ ∀ frame, e = .message frame → c.attached = true →
      (decode (toUint8Array frame.data)).isOk := by
  cases e with
  | message frame =>
    simp only [step, onMessage, Event.message.injEq, forall_eq']
    cases ha : c.attached with
    | false => exact iff_of_true rfl fun h => (nomatch h)
    | true =>
      cases hd : decode (toUint8Array frame.data) with
      | error message =>
        refine iff_of_false ?_ fun h => Bool.false_ne_true (h rfl)
        simp [bind, Except.bind, Except.isOk, Except.toBool]
      | ok m => exact iff_of_true rfl fun _ => rfl
  | _ => exact iff_of_true rfl fun _ h => (nomatch h)

/-! ## The process -/

theorem own_concat (id : Id) (es : List (Id × Event)) (e : Id × Event) :
    own id (es ++ [e]) = own id es ++ if e.1 = id then [e.2] else [] := by
  rw [own, List.filter_append, List.map_append, ← own, List.filter_singleton]
  by_cases h : e.1 = id <;> simp [h]

/-- The state of a process behind its events. -/
structure Follows (decode : Bytes → Except String M) (s : State Id M) (es : List (Id × Event)) :
    Prop where
  uncaught : s.uncaught = none ↔ Decodes decode es
  tracks : s.uncaught = none → ∀ id, Tracks (s.connections id) (own id es)

theorem Follows.step {decode : Bytes → Except String M} {s : State Id M} {es : List (Id × Event)}
    {e : Id × Event} (h : Follows decode s es) : Follows decode (s.step decode e) (es ++ [e]) := by
  cases hs : s.uncaught with
  | some message =>
    have hsame : s.step decode e = s := by rw [State.step, hs]; rfl
    have hno : ¬ Decodes decode es := fun hd => by
      rw [h.uncaught.mpr hd] at hs
      cases hs
    rw [hsame]
    refine ⟨?_, fun hnone => ?_⟩
    · rw [Decodes, eachBehind_concat, hs]
      exact iff_of_false (Option.some_ne_none message) fun hd => hno hd.1
    · rw [hs] at hnone
      cases hnone
  | none =>
    have ht := h.tracks hs e.1
    have hok : ((s.connections e.1).step decode e.2).isOk ↔
        ∀ frame, e.2 = .message frame → Listening (own e.1 es) →
          (decode (toUint8Array frame.data)).isOk := by
      rw [Connection.step_isOk, ht.attached]
    have hdec : Decodes decode (es ++ [e]) ↔ ((s.connections e.1).step decode e.2).isOk := by
      rw [Decodes, eachBehind_concat, hok]
      exact and_iff_right (h.uncaught.mp hs)
    cases hstep : (s.connections e.1).step decode e.2 with
    | error message =>
      have hnext : s.step decode e = { s with uncaught := some message } := by
        simp [State.step, hs, hstep]
      rw [hnext]
      refine ⟨?_, fun hnone => (nomatch hnone)⟩
      rw [hdec, hstep]
      exact iff_of_false (Option.some_ne_none message) Bool.false_ne_true
    | ok c =>
      have hnext : s.step decode e =
          { s with connections := Function.update s.connections e.1 c } := by
        simp [State.step, hs, hstep]
      rw [hnext]
      refine ⟨?_, fun _ id => ?_⟩
      · rw [hdec, hstep]
        exact iff_of_true hs rfl
      · show Tracks (Function.update s.connections e.1 c id) (own id (es ++ [e]))
        rw [own_concat]
        by_cases hid : e.1 = id
        · subst hid
          rw [if_pos rfl, Function.update_self]
          exact ht.step hstep
        · rw [if_neg hid, List.append_nil, Function.update_of_ne (Ne.symm hid)]
          exact h.tracks hs id

theorem follows_run (decode : Bytes → Except String M) (es : List (Id × Event)) :
    Follows decode (run decode es) es := by
  induction es using List.reverseRecOn with
  | nil => exact ⟨iff_of_true rfl eachBehind_nil, fun _ _ => tracks_nil⟩
  | append_singleton es e ih =>
    rw [run_concat]
    exact ih.step

/-- A connection whose events another one does not touch. -/
theorem State.step_of_ne {decode : Bytes → Except String M} {s : State Id M} {e : Id × Event}
    {id : Id} (h : e.1 ≠ id) : (s.step decode e).connections id = s.connections id := by
  unfold State.step
  split
  · rfl
  · split
    · exact Function.update_of_ne (Ne.symm h) _ _
    · rfl

/-- An event on a connection that is not a binary frame, or comes behind its end. -/
theorem State.step_received {decode : Bytes → Except String M} {s : State Id M}
    {es : List (Id × Event)} {e : Id × Event} (h : Follows decode s es)
    (he : ∀ frame, e.2 = .message frame → frame.isBinary →
      ∃ x ∈ own e.1 es, x.ends) :
    ((s.step decode e).connections e.1).received = (s.connections e.1).received := by
  cases hs : s.uncaught with
  | some message => rw [State.step, hs]; rfl
  | none =>
    have ht := h.tracks hs e.1
    cases hstep : (s.connections e.1).step decode e.2 with
    | error message => simp [State.step, hs, hstep]
    | ok c =>
      simp only [State.step, hs, hstep, Option.isSome_none, Bool.false_eq_true, if_false,
        Function.update_self]
      obtain ⟨hsame, -⟩ | ⟨frame, m, hframe, ha, -, hdel⟩ := Connection.step_delivered hstep
      · rw [Connection.received, Connection.received, hsame]
      · have htext : frame.isBinary = false := by
          refine Bool.eq_false_iff.mpr fun hb => ?_
          obtain ⟨x, hx, hends⟩ := he frame hframe hb
          exact (ht.attached.mp ha).2 x hx hends
        rw [Connection.received, Connection.received, hdel, List.filter_append]
        simp [htext]

/-- A binary frame to a peer that listens. -/
theorem State.step_listening {decode : Bytes → Except String M} {s : State Id M}
    {es : List (Id × Event)} {id : Id} {frame : Frame} {m : M} (h : Follows decode s es)
    (hb : frame.isBinary) (hs : s.uncaught = none) (hl : Listening (own id es))
    (hm : decode (toUint8Array frame.data) = .ok m) :
    ((s.step decode (id, .message frame)).connections id).received =
      (s.connections id).received ++ [(frame, .ok m)] := by
  have ha := ((h.tracks hs id).attached).mpr hl
  have hstep : (s.connections id).step decode (.message frame) = .ok { s.connections id with
      delivered := (s.connections id).delivered ++ [(frame, m)] } := by
    simp only [Connection.step, Connection.onMessage, ha, hm, Bool.not_true, Bool.false_eq_true,
      if_false]
    rfl
  simp only [State.step, hs, hstep, Option.isSome_none, Bool.false_eq_true, if_false,
    Function.update_self, Connection.received, List.filter_append, List.map_append]
  simp [hb]

/-- Any other binary frame is lost. -/
theorem State.step_lost {decode : Bytes → Except String M} {s : State Id M}
    {es : List (Id × Event)} {id : Id} {frame : Frame} (h : Follows decode s es)
    (hlost : ¬ (Listening (own id es) ∧ s.uncaught = none ∧
      (decode (toUint8Array frame.data)).isOk)) :
    ((s.step decode (id, .message frame)).connections id).received =
      (s.connections id).received := by
  cases hs : s.uncaught with
  | some message => rw [State.step, hs]; rfl
  | none =>
    cases hstep : (s.connections id).step decode (.message frame) with
    | error message => simp [State.step, hs, hstep]
    | ok c =>
      simp only [State.step, hs, hstep, Option.isSome_none, Bool.false_eq_true, if_false,
        Function.update_self]
      obtain ⟨hsame, -⟩ | ⟨_, m, hframe, ha, hm, -⟩ := Connection.step_delivered hstep
      · rw [Connection.received, Connection.received, hsame]
      · cases hframe
        refine (hlost ⟨((h.tracks hs id).attached).mp ha, hs, ?_⟩).elim
        rw [hm]
        rfl

theorem expected_concat (decode : Bytes → Except String M) (es : List Event) (e : Event) :
    expected decode (es ++ [e]) = expected decode es ++
      (if es.any Event.ends then [] else e.binary?.toList).map
        fun frame => (frame, decode (toUint8Array frame.data)) := by
  rw [expected, sent_concat, List.map_append, ← expected]

/-- The messages of a peer are never more than the frames, and as many exactly when each frame came
in time. -/
theorem received_run (decode : Bytes → Except String M) (es : List (Id × Event)) (id : Id) :
    ((run decode es).connections id).received.length ≤ (expected decode (own id es)).length ∧
      (DeliversAll decode es id ↔ Timely decode es id) := by
  induction es using List.reverseRecOn with
  | nil => exact ⟨le_rfl, iff_of_true rfl eachBehind_nil⟩
  | append_singleton es e ih =>
    obtain ⟨hlen, hiff⟩ := ih
    have hfollows := follows_run decode es
    rw [DeliversAll] at hiff
    rw [DeliversAll, run_concat, own_concat, Timely, eachBehind_concat, ← Timely]
    by_cases hid : e.1 = id
    · subst hid
      rw [if_pos rfl, expected_concat]
      by_cases hnew : ∃ frame, e.2 = .message frame ∧ frame.isBinary ∧
          ∀ x ∈ own e.1 es, ¬ x.ends
      · obtain ⟨frame, hframe, hb, hlive⟩ := hnew
        obtain ⟨id, ev⟩ := e
        subst hframe
        dsimp only at hlen hiff hlive ⊢
        have hends : (own id es).any Event.ends = false := List.any_eq_false.mpr hlive
        have hbinary : (Event.message frame).binary? = some frame := if_pos hb
        simp only [hends, Bool.false_eq_true, if_false, hbinary, Option.toList_some, List.map_cons,
          List.map_nil, List.length_append, List.length_singleton]
        by_cases hin : Listening (own id es) ∧ (run decode es).uncaught = none ∧
            (decode (toUint8Array frame.data)).isOk
        · -- The frame is received: both sides grow by it.
          obtain ⟨hl, hs, hok⟩ := hin
          cases hm : decode (toUint8Array frame.data) with
          | error message =>
            rw [hm] at hok
            cases hok
          | ok m =>
            rw [State.step_listening hfollows hb hs hl hm, List.length_append,
              List.append_cancel_right_eq, hiff]
            refine ⟨Nat.add_le_add_right hlen 1, (and_iff_left fun x hx _ _ => ?_).symm⟩
            cases hx
            exact ⟨hl, hfollows.uncaught.mp hs, hok⟩
        · -- The frame is lost, and the peer stays behind.
          rw [State.step_lost hfollows hin]
          refine ⟨hlen.trans (Nat.le_succ _), iff_of_false (fun heq => ?_) fun ⟨_, hx⟩ => ?_⟩
          · have := congrArg List.length heq
            rw [List.length_append, List.length_singleton] at this
            omega
          · obtain ⟨hl, hd, hok⟩ := hx frame rfl hb hlive
            exact hin ⟨hl, hfollows.uncaught.mpr hd, hok⟩
      · have hsame : (if (own e.1 es).any Event.ends then [] else e.2.binary?.toList) = [] := by
          split
          · rfl
          · rename_i hends
            cases he : e.2 with
            | message frame =>
              refine congrArg Option.toList (if_neg fun hb => hnew ⟨frame, he, hb, ?_⟩)
              exact List.any_eq_false.mp (Bool.eq_false_iff.mpr hends)
            | _ => rfl
        have hrec := State.step_received hfollows fun frame hframe hb => by
          by_contra hnone
          exact hnew ⟨frame, hframe, hb, fun x hx hends => hnone ⟨x, hx, hends⟩⟩
        rw [hsame, List.map_nil, List.append_nil, hrec, hiff]
        refine ⟨hlen, (and_iff_left fun frame hframe hb hlive => ?_).symm⟩
        exact absurd ⟨frame, by rw [hframe], hb, hlive⟩ hnew
    · rw [if_neg hid, List.append_nil, State.step_of_ne hid]
      refine ⟨hlen, hiff.trans (and_iff_left fun frame he => ?_).symm⟩
      rw [he] at hid
      exact absurd rfl hid

/-- **Early frames.** The peer gets every binary frame of a connection, once and in order, exactly
when each one comes behind the opening of the document. -/
theorem deliversAll_iff (decode : Bytes → Except String M) (es : List (Id × Event)) (id : Id) :
    DeliversAll decode es id ↔ Timely decode es id := (received_run decode es id).2

def sampleFrame : Frame := ⟨.buffer [1], true⟩

/-- A client that sends as soon as the socket is open: its first message is lost. -/
theorem early_frame_lost :
    ¬ DeliversAll (fun bytes => .ok bytes) [((), .message sampleFrame), ((), .docOpened)] () := by
  intro h
  replace h : ([] : List (Frame × Except String Bytes)) = [(sampleFrame, .ok [1])] := h
  cases h

end Server

end Sync

end Treecrdt
