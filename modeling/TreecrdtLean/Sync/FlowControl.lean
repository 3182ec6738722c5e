import TreecrdtLean.Sync.Codewords

/-!
# Flow control of codewords

A session has one token. It is the hello of the initiator, then the work of `onHello` and the
`helloAck`; then the credit of the initiator, which becomes a message with codewords, which becomes
a status with the next credit (`InTurn`). Whoever has the token knows the index of the other side. A
status that ends the session, a message for a session that is gone and a credit for a call that is
gone take the token away, and nothing makes a second one. So codewords arrive in order, and no more
than one message of a session is under way (`reachable_flowControlled`).
-/

namespace Treecrdt

namespace Sync

namespace Riblt

variable {FilterId Codeword Enc Dec Ref : Type}

/-! ## The token -/

/-- The call has not heard of the responder. -/
structure InitiatorSession.AtStart (session : InitiatorSession Enc Ref) : Prop where
  stage : session.stage = .helloSent ∨ session.stage = .left
  round : session.round = 0
  codewordCredits : session.codewordCredits = 1
  nextIndex : session.nextIndex = 0

/-- A session of the responder, if there is one, is in this round and expects this index. -/
def Expects (session : Option (ResponderSession Dec)) (round index : ℕ) : Prop :=
  ∀ x ∈ session, x.round = round ∧ x.expectedIndex = index

/-- The status ends the session, and not because a message was out of order. -/
def RibltStatusPayload.Ends : RibltStatusPayload Ref → Prop
  | .more _ _ | .failed .outOfOrder _ => False
  | _ => True

/-- Where the token of a session is; the last two are the end of the session, under way and known
to the initiator. -/
inductive InTurn : Option (InitiatorSession Enc Ref) → Responding Dec →
    List (Request Codeword) → List (Reply Ref) → Prop where
  | fresh : InTurn none ⟨false, none⟩ [] []
  | hello {session : InitiatorSession Enc Ref} (start : session.AtStart) :
      InTurn (some session) ⟨false, none⟩ [.hello] []
  | greeting {session : InitiatorSession Enc Ref} (start : session.AtStart) :
      InTurn (some session) ⟨true, none⟩ [] []
  | helloAck {session : InitiatorSession Enc Ref} {responder : Option (ResponderSession Dec)}
      (start : session.AtStart) (expects : Expects responder 0 0) :
      InTurn (some session) ⟨false, responder⟩ [] [.helloAck]
  | credit {session : InitiatorSession Enc Ref} {responder : Option (ResponderSession Dec)}
      (credits : session.codewordCredits = 1)
      (expects : Expects responder session.round session.nextIndex) :
      InTurn (some session) ⟨false, responder⟩ [] []
  | codewords {session : InitiatorSession Enc Ref} {responder : Option (ResponderSession Dec)}
      {msg : RibltCodewords Codeword} (credits : session.codewordCredits = 0)
      (round : msg.round = session.round)
      (index : msg.startIndex + msg.codewords.length = session.nextIndex)
      (expects : Expects responder msg.round msg.startIndex) :
      InTurn (some session) ⟨false, responder⟩ [.ribltCodewords msg] []
  | more {session : InitiatorSession Enc Ref} {responder : Option (ResponderSession Dec)}
      {round codewordsReceived : ℕ} (credits : session.codewordCredits = 0)
      (expects : Expects responder session.round session.nextIndex) :
      InTurn (some session) ⟨false, responder⟩ []
        [.ribltStatus ⟨round, .more codewordsReceived 1⟩]
  | ending {session : InitiatorSession Enc Ref} {responder : Option (ResponderSession Dec)}
      {status : RibltStatus Ref} (credits : session.codewordCredits = 0)
      (ends : status.payload.Ends) :
      InTurn (some session) ⟨false, responder⟩ [] [.ribltStatus status]
  | ended {session : InitiatorSession Enc Ref} {responder : Option (ResponderSession Dec)}
      (credits : session.codewordCredits = 0) :
      InTurn (some session) ⟨false, responder⟩ [] []

/-! ## The initiator -/

variable {codec : Codec Codeword Enc Dec Ref} {maxCodewords : ℕ}
variable {initiator : Option (InitiatorSession Enc Ref)} {responding : Responding Dec}
variable {requests : List (Request Codeword)} {replies : List (Reply Ref)}

/-- A step of the call that leaves the credits and the index as they are. -/
theorem InTurn.keep {session session' : InitiatorSession Enc Ref}
    (h : InTurn (some session) responding requests replies)
    (hstart : session.AtStart → session'.AtStart)
    (hcredits : session'.codewordCredits = session.codewordCredits)
    (hround : session'.round = session.round) (hindex : session'.nextIndex = session.nextIndex) :
    InTurn (some session') responding requests replies := by
  cases h with
  | hello start => exact .hello (hstart start)
  | greeting start => exact .greeting (hstart start)
  | helloAck start expects => exact .helloAck (hstart start) expects
  | credit credits expects =>
    exact .credit (hcredits.trans credits) (by rwa [hround, hindex])
  | codewords credits round index expects =>
    exact .codewords (hcredits.trans credits) (round.trans hround.symm) (index.trans hindex.symm)
      expects
  | more credits expects => exact .more (hcredits.trans credits) (by rwa [hround, hindex])
  | ending credits ends => exact .ending (hcredits.trans credits) ends
  | ended credits => exact .ended (hcredits.trans credits)

theorem takeCodewords_length (n : ℕ) (enc : Enc) : (takeCodewords codec n enc).1.length = n := by
  induction n generalizing enc with
  | zero => rfl
  | succ n ih => rw [takeCodewords, List.length_cons, ih]

/-- The credit becomes a message. -/
theorem InTurn.send {session : InitiatorSession Enc Ref} {enc : Enc}
    (h : InTurn (some session) responding requests replies)
    (hstage : session.stage = .sending enc) (hcredits : ¬ session.codewordCredits ≤ 0)
    (n : ℕ) (stage : Stage Enc) :
    InTurn (some { session with
        codewordCredits := session.codewordCredits - 1, nextIndex := session.nextIndex + n, stage })
      responding
      (requests ++
        [.ribltCodewords ⟨session.round, session.nextIndex, (takeCodewords codec n enc).1⟩])
      replies := by
  have hnot : ¬ session.AtStart := fun start => by
    rcases start.stage with hsent | hleft
    · cases hsent.symm.trans hstage
    · cases hleft.symm.trans hstage
  cases h with
  | hello start | greeting start | helloAck start _ => exact absurd start hnot
  | credit credits expects =>
    refine .codewords ?_ rfl ?_ expects
    · rw [credits]; rfl
    · rw [takeCodewords_length]
  | codewords credits | more credits | ending credits | ended credits =>
    exact absurd (by omega) hcredits

theorem InTurn.initiate {initiation : Initiation Enc} {session : InitiatorSession Enc Ref}
    {sent : List (Request Codeword)} (h : InTurn initiator responding requests replies)
    (hstep : initiate codec initiation initiator = some (session, sent)) :
    InTurn (some session) responding (requests ++ sent) replies := by
  cases initiator with
  | none =>
    cases initiation <;> try cases hstep
    cases h
    exact .hello ⟨.inl rfl, rfl, rfl, rfl⟩
  | some before =>
    cases initiation with
    | syncOnce => cases hstep
    | enterLoop enc =>
      simp only [Riblt.initiate] at hstep
      split at hstep <;> cases hstep
      rename_i hacked
      rw [List.append_nil]
      refine h.keep (fun start => ?_) rfl rfl rfl
      rcases start.stage with hsent | hleft
      · cases hsent.symm.trans hacked
      · cases hleft.symm.trans hacked
    | sendCodewords =>
      simp only [Riblt.initiate] at hstep
      split at hstep
      · split at hstep <;> cases hstep
        rename_i hstage hguard
        exact h.send hstage hguard.2.2 _ _
      · cases hstep
    | leave =>
      cases hstep
      rw [List.append_nil]
      exact h.keep (fun start => ⟨.inr rfl, start.round, start.codewordCredits, start.nextIndex⟩)
        rfl rfl rfl
    | fail =>
      cases hstep
      rw [List.append_nil]
      exact h.keep (fun start => ⟨start.stage, start.round, start.codewordCredits,
        start.nextIndex⟩) rfl rfl rfl

/-! ## The responder -/

/-- The session takes all codewords, or stops at the limit. -/
theorem addCodewords_index {codewords : List Codeword} {state state' : Dec × ℕ}
    (h : addCodewords codec maxCodewords codewords state = .ok state') :
    state'.2 = state.2 + codewords.length ∨ maxCodewords ≤ state'.2 := by
  induction codewords generalizing state with
  | nil =>
    cases h
    exact .inl rfl
  | cons cw codewords ih =>
    obtain ⟨decoder, expectedIndex⟩ := state
    rw [addCodewords] at h
    split at h
    · rename_i hlimit
      cases h
      exact .inr hlimit
    · obtain ⟨decoder', -, h⟩ := except_bind_ok h
      rw [List.length_cons]
      exact (ih h).imp_left fun hindex => by omega

/-- A message that is expected is answered with a credit, and the session expects what comes behind
it, or with the end of the session. -/
theorem onRibltCodewords_spec (codec : Codec Codeword Enc Dec Ref) (maxCodewords : ℕ)
    {msg : RibltCodewords Codeword} {session : ResponderSession Dec}
    (hround : session.round = msg.round) (hindex : session.expectedIndex = msg.startIndex) :
    ∃ session' status, onRibltCodewords codec maxCodewords msg session = (session', [status]) ∧
      (status.payload.Ends ∨ ∃ codewordsReceived, status = ⟨msg.round, .more codewordsReceived 1⟩ ∧
        Expects session' msg.round (msg.startIndex + msg.codewords.length)) := by
  rw [onRibltCodewords, if_neg (by simp [hround]), if_neg (by simp [hindex])]
  split
  · exact ⟨_, _, rfl, .inl trivial⟩
  · rename_i decoder expectedIndex hadded
    obtain ⟨state, hadd, hrest⟩ := except_bind_ok hadded
    obtain ⟨decoder', -, hrest⟩ := except_bind_ok hrest
    cases hrest
    dsimp only
    split
    · split
      · exact ⟨_, _, rfl, .inl trivial⟩
      · rename_i hlimit
        refine ⟨_, _, rfl, .inr ⟨_, rfl, ?_⟩⟩
        rintro _ ⟨⟩
        have hall := addCodewords_index hadd
        exact ⟨hround, by simp only at hall hlimit ⊢; omega⟩
    · exact ⟨_, _, rfl, .inl trivial⟩

theorem InTurn.respond {response : Response Dec} {responding' : Responding Dec}
    {sent : List (Reply Ref)} (h : InTurn initiator responding requests replies)
    (hstep : respond response responding = some (responding', sent)) :
    InTurn initiator responding' requests (replies ++ sent) := by
  cases response with
  | answerHello decoder =>
    simp only [Riblt.respond] at hstep
    split at hstep <;> cases hstep
    rename_i hgreeting
    cases h <;> try cases hgreeting
    rename_i start
    refine .helloAck start ?_
    cases decoder with
    | none => nofun
    | some decoder =>
      rintro _ ⟨⟩
      exact ⟨rfl, rfl⟩
  | endSession =>
    cases hstep
    rw [List.append_nil]
    have hnone : ∀ round index, Expects (none : Option (ResponderSession Dec)) round index := nofun
    cases h with
    | fresh => exact .fresh
    | hello start => exact .hello start
    | greeting start => exact .greeting start
    | helloAck start => exact .helloAck start (hnone _ _)
    | credit credits => exact .credit credits (hnone _ _)
    | codewords credits round index => exact .codewords credits round index (hnone _ _)
    | more credits => exact .more credits (hnone _ _)
    | ending credits ends => exact .ending credits ends
    | ended credits => exact .ended credits

/-! ## Messages -/

theorem InTurn.receiveRequest {request : Request Codeword}
    (h : InTurn initiator responding (request :: requests) replies) :
    InTurn initiator (receiveRequest codec maxCodewords request responding).1 requests
      (replies ++ (receiveRequest codec maxCodewords request responding).2) := by
  cases h with
  | hello start => exact .greeting start
  | @codewords session responder msg credits round index expects =>
    cases responder with
    | none => exact .ended credits
    | some responder =>
      obtain ⟨hround, hindex⟩ := expects responder rfl
      obtain ⟨responder', status, hrun, hstatus⟩ :=
        onRibltCodewords_spec codec maxCodewords hround hindex
      simp only [Riblt.receiveRequest, hrun, List.map_singleton, List.nil_append]
      obtain hends | ⟨codewordsReceived, rfl, hexpects⟩ := hstatus
      · exact .ending credits hends
      · rw [index, round] at hexpects
        exact .more credits hexpects

/-- The end of a session gives no credit. -/
theorem onRibltStatus_ends {status : RibltStatus Ref} {session : InitiatorSession Enc Ref}
    (h : status.payload.Ends) :
    (onRibltStatus status session).codewordCredits = session.codewordCredits := by
  unfold onRibltStatus
  repeat' split
  all_goals first | rfl | skip
  rename_i hmore
  rw [hmore] at h
  exact h.elim

/-- A credit is taken, or lost with the call. -/
theorem onRibltStatus_more {round codewordsReceived : ℕ} (session : InitiatorSession Enc Ref) :
    onRibltStatus ⟨round, .more codewordsReceived 1⟩ session = session ∨
      onRibltStatus ⟨round, .more codewordsReceived 1⟩ session =
        { session with codewordCredits := session.codewordCredits + 1 } := by
  unfold onRibltStatus
  split
  · exact .inl rfl
  split
  · exact .inl rfl
  split
  · exact .inl rfl
  · exact .inr rfl

theorem InTurn.receiveReply {reply : Reply Ref}
    (h : InTurn initiator responding requests (reply :: replies)) :
    InTurn (initiator.map (receiveReply reply)) responding requests replies := by
  cases h with
  | @helloAck session responder start expects =>
    have hexpects : Expects responder session.round session.nextIndex := by
      rwa [start.round, start.nextIndex]
    rw [Option.map_some, Riblt.receiveReply]
    split <;> exact .credit start.codewordCredits hexpects
  | more credits expects =>
    rw [Option.map_some, Riblt.receiveReply]
    obtain hlost | htaken := onRibltStatus_more _
    · rw [hlost]
      exact .ended credits
    · rw [htaken]
      exact .credit (by simp [credits]) expects
  | ending credits ends => exact .ended ((onRibltStatus_ends ends).trans credits)

/-! ## Runs -/

/-- The messages of a session, in the order of the channel. -/
def channel [DecidableEq FilterId] {M : Type} (filterId : FilterId)
    (messages : List (FilterId × M)) : List M :=
  (messages.filter (·.1 = filterId)).map Prod.snd

variable [DecidableEq FilterId] {M : Type} {filterId other : FilterId}
variable {messages : List (FilterId × M)}

@[simp] theorem channel_cons_self {m : M} :
    channel filterId ((filterId, m) :: messages) = m :: channel filterId messages := by
  simp [channel]

theorem channel_cons_of_ne {m : M} (h : other ≠ filterId) :
    channel filterId ((other, m) :: messages) = channel filterId messages := by
  simp [channel, h]

@[simp] theorem channel_append_self {sent : List M} :
    channel filterId (messages ++ sent.map fun m => (filterId, m)) =
      channel filterId messages ++ sent := by
  simp [channel, List.filter_append, List.filter_map, Function.comp_def]

theorem channel_append_of_ne {sent : List M} (h : other ≠ filterId) :
    channel filterId (messages ++ sent.map fun m => (other, m)) = channel filterId messages := by
  simp [channel, List.filter_append, List.filter_map, Function.comp_def, h]

theorem mem_channel {m : M} : m ∈ channel filterId messages ↔ (filterId, m) ∈ messages := by
  simp [channel]

/-- The parts of the system that belong to one session. -/
structure View (Codeword Enc Dec Ref : Type) where
  initiator : Option (InitiatorSession Enc Ref)
  responding : Responding Dec
  requests : List (Request Codeword)
  replies : List (Reply Ref)

/-- An event of one session. -/
inductive SessionEvent (Enc Dec : Type) where
  | initiate (initiation : Initiation Enc)
  | respond (response : Response Dec)
  | receiveRequest
  | receiveReply

def View.step (codec : Codec Codeword Enc Dec Ref) (maxCodewords : ℕ)
    (v : View Codeword Enc Dec Ref) : SessionEvent Enc Dec → Option (View Codeword Enc Dec Ref)
  | .initiate initiation =>
    (Riblt.initiate codec initiation v.initiator).map fun next =>
      { v with initiator := some next.1, requests := v.requests ++ next.2 }
  | .respond response =>
    (Riblt.respond response v.responding).map fun next =>
      { v with responding := next.1, replies := v.replies ++ next.2 }
  | .receiveRequest =>
    match v.requests with
    | [] => none
    | request :: requests =>
      let next := Riblt.receiveRequest codec maxCodewords request v.responding
      some { v with responding := next.1, requests, replies := v.replies ++ next.2 }
  | .receiveReply =>
    match v.replies with
    | [] => none
    | reply :: replies =>
      some { v with initiator := v.initiator.map (Riblt.receiveReply reply), replies }

def System.view (s : System FilterId Codeword Enc Dec Ref) (filterId : FilterId) :
    View Codeword Enc Dec Ref where
  initiator := s.initiator filterId
  responding := s.responder filterId
  requests := channel filterId s.toResponder
  replies := channel filterId s.toInitiator

/-- What an event is for a session; `none` if it belongs to another one. -/
def Event.forSession (s : System FilterId Codeword Enc Dec Ref) (filterId : FilterId) :
    Event FilterId Enc Dec → Option (SessionEvent Enc Dec)
  | .initiate own initiation => if own = filterId then some (.initiate initiation) else none
  | .respond own response => if own = filterId then some (.respond response) else none
  | .deliverRequest =>
    s.toResponder.head?.bind fun message =>
      if message.1 = filterId then some .receiveRequest else none
  | .deliverReply =>
    s.toInitiator.head?.bind fun message =>
      if message.1 = filterId then some .receiveReply else none

variable {s s' : System FilterId Codeword Enc Dec Ref} {event : Event FilterId Enc Dec}

/-- A session takes its own steps, and no step of another session touches it. -/
theorem System.view_step (hstep : s.step codec maxCodewords event = some s')
    (filterId : FilterId) :
    (∃ e, event.forSession s filterId = some e ∧
        (s.view filterId).step codec maxCodewords e = some (s'.view filterId)) ∨
      event.forSession s filterId = none ∧ s'.view filterId = s.view filterId := by
  cases event with
  | initiate own initiation =>
    obtain ⟨⟨session, sent⟩, hinitiate, rfl⟩ := Option.map_eq_some_iff.mp hstep
    by_cases hown : own = filterId
    · subst hown
      exact .inl ⟨_, if_pos rfl, by simp [View.step, System.view, hinitiate]⟩
    · refine .inr ⟨if_neg hown, ?_⟩
      simp [System.view, channel_append_of_ne hown, Function.update_of_ne (Ne.symm hown)]
  | respond own response =>
    obtain ⟨⟨responding, sent⟩, hrespond, rfl⟩ := Option.map_eq_some_iff.mp hstep
    by_cases hown : own = filterId
    · subst hown
      exact .inl ⟨_, if_pos rfl, by simp [View.step, System.view, hrespond]⟩
    · refine .inr ⟨if_neg hown, ?_⟩
      simp [System.view, channel_append_of_ne hown, Function.update_of_ne (Ne.symm hown)]
  | deliverRequest =>
    simp only [System.step] at hstep
    split at hstep <;> cases hstep
    rename_i own request rest hchannel
    by_cases hown : own = filterId
    · subst hown
      exact .inl ⟨.receiveRequest, by simp [Event.forSession, hchannel],
        by simp [View.step, System.view, hchannel]⟩
    · refine .inr ⟨by simp [Event.forSession, hchannel, hown], ?_⟩
      simp [System.view, hchannel, channel_append_of_ne hown, channel_cons_of_ne hown,
        Function.update_of_ne (Ne.symm hown)]
  | deliverReply =>
    simp only [System.step] at hstep
    split at hstep <;> cases hstep
    rename_i own reply rest hchannel
    by_cases hown : own = filterId
    · subst hown
      exact .inl ⟨.receiveReply, by simp [Event.forSession, hchannel],
        by simp [View.step, System.view, hchannel]⟩
    · refine .inr ⟨by simp [Event.forSession, hchannel, hown], ?_⟩
      simp [System.view, hchannel, channel_cons_of_ne hown, Function.update_of_ne (Ne.symm hown)]

/-- The token of a session is at one place. -/
def View.InTurn (v : View Codeword Enc Dec Ref) : Prop :=
  Riblt.InTurn v.initiator v.responding v.requests v.replies

theorem View.InTurn.step {v v' : View Codeword Enc Dec Ref} {e : SessionEvent Enc Dec}
    (h : v.InTurn) (hstep : v.step codec maxCodewords e = some v') : v'.InTurn := by
  cases e with
  | initiate initiation =>
    obtain ⟨next, hinitiate, rfl⟩ := Option.map_eq_some_iff.mp hstep
    exact Riblt.InTurn.initiate h hinitiate
  | respond response =>
    obtain ⟨next, hrespond, rfl⟩ := Option.map_eq_some_iff.mp hstep
    exact Riblt.InTurn.respond h hrespond
  | receiveRequest =>
    obtain ⟨initiator, responding, requests, replies⟩ := v
    cases requests with
    | nil => cases hstep
    | cons request requests =>
      cases hstep
      exact Riblt.InTurn.receiveRequest h
  | receiveReply =>
    obtain ⟨initiator, responding, requests, replies⟩ := v
    cases replies with
    | nil => cases hstep
    | cons reply replies =>
      cases hstep
      exact Riblt.InTurn.receiveReply h

/-- Every session has its token at one place. -/
def System.InTurn (s : System FilterId Codeword Enc Dec Ref) : Prop :=
  ∀ filterId, Riblt.InTurn (s.initiator filterId) (s.responder filterId)
    (channel filterId s.toResponder) (channel filterId s.toInitiator)

theorem System.InTurn.step (h : s.InTurn) (hstep : s.step codec maxCodewords event = some s') :
    s'.InTurn := by
  intro filterId
  have hturn : (s.view filterId).InTurn := h filterId
  show (s'.view filterId).InTurn
  obtain ⟨e, -, hview⟩ | ⟨-, hview⟩ := System.view_step hstep filterId
  · exact hturn.step hview
  · rw [hview]
    exact hturn

theorem Reachable.inTurn (h : Reachable codec maxCodewords s) : s.InTurn := by
  induction h with
  | start => exact fun _ => .fresh
  | step _ hstep ih => exact ih.step hstep

/-! ## Flow control -/

def Request.isCodewords : Request Codeword → Bool
  | .ribltCodewords _ => true
  | .hello => false

def Reply.isMore : Reply Ref → Bool
  | .ribltStatus ⟨_, .more _ _⟩ => true
  | _ => false

theorem isMore_of_ends {status : RibltStatus Ref} (h : status.payload.Ends) :
    Reply.isMore (.ribltStatus status) = false := by
  obtain ⟨round, payload⟩ := status
  cases payload with
  | more => exact h.elim
  | decoded | failed => rfl

/-- Codewords are handled in order, none is answered as out of order, credits are not negative, and
of a session no more than one message with codewords is under way: the credits of the call, such
messages and the credits under way are at most one. -/
structure System.FlowControlled (s : System FilterId Codeword Enc Dec Ref) : Prop where
  inOrder : ∀ filterId msg session, (filterId, .ribltCodewords msg) ∈ s.toResponder →
    (s.responder filterId).session = some session → msg.round = session.round ∧
      msg.startIndex = session.expectedIndex
  notOutOfOrder : ∀ filterId status message, (filterId, .ribltStatus status) ∈ s.toInitiator →
    status.payload ≠ .failed .outOfOrder message
  credits : ∀ filterId session, s.initiator filterId = some session → 0 ≤ session.codewordCredits
  inFlight : ∀ filterId, (channel filterId s.toResponder).countP Request.isCodewords ≤ 1
  uncredited : ∀ filterId session, s.initiator filterId = some session →
    session.codewordCredits + (channel filterId s.toResponder).countP Request.isCodewords +
      (channel filterId s.toInitiator).countP Reply.isMore ≤ 1

theorem InTurn.inOrder (h : Riblt.InTurn initiator responding requests replies)
    {msg : RibltCodewords Codeword} {session : ResponderSession Dec}
    (hmsg : .ribltCodewords msg ∈ requests) (hsession : responding.session = some session) :
    msg.round = session.round ∧ msg.startIndex = session.expectedIndex := by
  cases h <;> simp at hmsg
  rename_i expects
  subst hmsg
  obtain ⟨hround, hindex⟩ := expects session hsession
  exact ⟨hround.symm, hindex.symm⟩

theorem InTurn.notOutOfOrder (h : Riblt.InTurn initiator responding requests replies)
    {status : RibltStatus Ref} {message : Option String} (hstatus : .ribltStatus status ∈ replies) :
    status.payload ≠ .failed .outOfOrder message := by
  cases h <;> simp at hstatus
  · subst hstatus
    exact nofun
  · rename_i ends
    subst hstatus
    intro hout
    rw [hout] at ends
    exact ends

theorem InTurn.inFlight (h : Riblt.InTurn initiator responding requests replies) :
    requests.countP Request.isCodewords ≤ 1 := by
  cases h <;> simp [Request.isCodewords]

theorem InTurn.credits (h : Riblt.InTurn initiator responding requests replies)
    {session : InitiatorSession Enc Ref} (hsession : initiator = some session) :
    0 ≤ session.codewordCredits ∧
      session.codewordCredits + requests.countP Request.isCodewords +
        replies.countP Reply.isMore ≤ 1 := by
  subst hsession
  cases h with
  | hello start | greeting start | helloAck start =>
    rw [start.codewordCredits]
    simp [Request.isCodewords, Reply.isMore]
  | credit credits | codewords credits | more credits | ended credits =>
    rw [credits]
    simp [Request.isCodewords, Reply.isMore]
  | ending credits ends =>
    have hnot := isMore_of_ends ends
    rw [credits]
    simp [hnot]

/-- In every run, whatever order its steps come in, codewords are under flow control. -/
theorem reachable_flowControlled (codec : Codec Codeword Enc Dec Ref) (maxCodewords : ℕ)
    (s : System FilterId Codeword Enc Dec Ref) (h : Reachable codec maxCodewords s) :
    s.FlowControlled where
  inOrder filterId _ _ hmsg hsession :=
    (h.inTurn filterId).inOrder (mem_channel.mpr hmsg) hsession
  notOutOfOrder filterId _ _ hstatus := (h.inTurn filterId).notOutOfOrder (mem_channel.mpr hstatus)
  credits filterId _ hsession := ((h.inTurn filterId).credits hsession).1
  inFlight filterId := (h.inTurn filterId).inFlight
  uncredited filterId _ hsession := ((h.inTurn filterId).credits hsession).2

/-! A session of three messages. -/

/-- Codewords count up, and the third that a decoder takes is the last that it needs. -/
def countingCodec : Codec ℕ ℕ ℕ ℕ where
  nextCodeword n := (n, n + 1)
  addCodeword received _ := .ok (received + 1)
  tryDecode := .ok
  decoded received := received ≥ 3
  codewordsReceived := id
  remoteMissing _ := []
  localMissing _ := []

def System.steps (codec : Codec Codeword Enc Dec Ref) (maxCodewords : ℕ)
    (s : System FilterId Codeword Enc Dec Ref) :
    List (Event FilterId Enc Dec) → Option (System FilterId Codeword Enc Dec Ref)
  | [] => some s
  | event :: events =>
    (s.step codec maxCodewords event).bind fun s' => s'.steps codec maxCodewords events

theorem Reachable.steps {events : List (Event FilterId Enc Dec)}
    (h : Reachable codec maxCodewords s) (hsteps : s.steps codec maxCodewords events = some s') :
    Reachable codec maxCodewords s' := by
  induction events generalizing s with
  | nil =>
    cases hsteps
    exact h
  | cons event events ih =>
    obtain ⟨t, hstep, hrest⟩ := Option.bind_eq_some_iff.mp hsteps
    exact ih (h.step hstep) hrest

/-- The second message is under way. -/
def secondMessage : List (Event Bool ℕ ℕ) :=
  [.initiate true (.syncOnce 1 10), .deliverRequest, .respond true (.answerHello (some 0)),
    .deliverReply, .initiate true (.enterLoop 0), .initiate true .sendCodewords, .deliverRequest,
    .deliverReply, .initiate true .sendCodewords]

theorem reachable_flowControlled_second : ∃ s : System Bool ℕ ℕ ℕ ℕ,
    (channel true s.toResponder).countP Request.isCodewords = 1 ∧ s.FlowControlled := by
  have hrun : (System.start.steps countingCodec 5 secondMessage).any (fun s =>
      (channel true s.toResponder).countP Request.isCodewords = 1) = true := by decide +kernel
  obtain ⟨s, hsteps, hs⟩ := Option.any_eq_true _ _ |>.mp hrun
  exact ⟨s, of_decide_eq_true hs,
    reachable_flowControlled countingCodec 5 s (Reachable.start.steps hsteps)⟩

end Riblt

end Sync

end Treecrdt
