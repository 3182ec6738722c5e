import Mathlib.Data.Int.Notation
import Mathlib.Logic.Function.Basic
import Mathlib.Tactic.Common
import TreecrdtLean.Lib.Exec

/-!
# Codewords and their credits (`sync.ts`)

The initiator of a session sends codewords as long as it has credits (the loop of `syncOnce`), and
has one credit at the start. The responder adds them to its decoder (`onRibltCodewords`), and it
answers with a credit, or with the end of the session (`onRibltStatus`). The two peers share two
channels that keep the order, for any number of sessions; the parts of a peer that run at once (the
loops, the handlers, whatever ends a session) come in any order.

The loop of an initiator without credits waits for a signal; here it just takes no step until there
is a credit. The codec is a parameter.
-/

namespace Treecrdt

namespace Sync

namespace Riblt

/-- `RibltEncoder16` and `RibltDecoder16`. -/
structure Codec (Codeword Enc Dec Ref : Type) where
  nextCodeword : Enc → Codeword × Enc
  addCodeword : Dec → Codeword → Except String Dec
  tryDecode : Dec → Except String Dec
  decoded : Dec → Bool
  codewordsReceived : Dec → ℕ
  remoteMissing : Dec → List Ref
  localMissing : Dec → List Ref

/-! ## Messages -/

structure RibltCodewords (Codeword : Type) where
  round : ℕ
  startIndex : ℕ
  codewords : List Codeword

inductive RibltFailureReason where
  | maxCodewordsExceeded
  | decodeFailed
  | outOfOrder
  deriving DecidableEq

inductive RibltStatusPayload (Ref : Type) where
  | more (codewordsReceived : ℕ) (credits : ℤ)
  | decoded (senderMissing receiverMissing : List Ref) (codewordsReceived : ℕ)
  | failed (reason : RibltFailureReason) (message : Option String)

structure RibltStatus (Ref : Type) where
  round : ℕ
  payload : RibltStatusPayload Ref

/-- From the initiator to the responder. -/
inductive Request (Codeword : Type) where
  | hello
  | ribltCodewords (msg : RibltCodewords Codeword)

/-- From the responder to the initiator. -/
inductive Reply (Ref : Type) where
  | helloAck
  | ribltStatus (status : RibltStatus Ref)

variable {FilterId Codeword Enc Dec Ref : Type}

/-! ## The initiator -/

/-- Where a call of `syncOnce` is. -/
inductive Stage (Enc : Type) where
  | helloSent
  | acked
  | sending (enc : Enc)
  /-- Behind the loop, or ended by an error. -/
  | left

/-- A call of `syncOnce` with its session. -/
structure InitiatorSession (Enc Ref : Type) where
  codewordsPerMessage : ℕ
  maxCodewords : ℕ
  round : ℕ
  codewordCredits : ℤ
  nextIndex : ℕ
  stage : Stage Enc
  done : Bool
  awaitingUploadAck : Bool
  terminalStatus : Option (RibltStatus Ref)
  /-- The session is in `initiatorSessions`. -/
  listed : Bool

/-- What a call of `syncOnce` does by itself. -/
inductive Initiation (Enc : Type) where
  /-- Draw an id, and say hello; the options. -/
  | syncOnce (codewordsPerMessage maxCodewords : ℕ)
  /-- The local operations are known to the encoder. -/
  | enterLoop (enc : Enc)
  /-- One turn of the loop. -/
  | sendCodewords
  /-- The loop or the call ends. -/
  | leave
  /-- An error of the session (`onError`). -/
  | fail

/-- `nextCodeword`, called as often as given. -/
def takeCodewords (codec : Codec Codeword Enc Dec Ref) : ℕ → Enc → List Codeword × Enc
  | 0, enc => ([], enc)
  | n + 1, enc =>
    let first := codec.nextCodeword enc
    let rest := takeCodewords codec n first.2
    (first.1 :: rest.1, rest.2)

/-- The session behind the step, and what is sent; `none` where the call is not there. -/
def initiate (codec : Codec Codeword Enc Dec Ref) :
    Initiation Enc → Option (InitiatorSession Enc Ref) →
    Option (InitiatorSession Enc Ref × List (Request Codeword))
  | .syncOnce codewordsPerMessage maxCodewords, none =>
    some ({ codewordsPerMessage, maxCodewords, round := 0, codewordCredits := 1, nextIndex := 0
            stage := .helloSent, done := false, awaitingUploadAck := false, terminalStatus := none
            listed := true }, [.hello])
  | .enterLoop enc, some session =>
    match session.stage with
    | .acked => some ({ session with stage := .sending enc }, [])
    | _ => none
  | .sendCodewords, some session =>
    match session.stage with
    | .sending enc =>
      if !session.done ∧ session.nextIndex < session.maxCodewords ∧
          ¬ session.codewordCredits ≤ 0 then
        let count := min session.codewordsPerMessage (session.maxCodewords - session.nextIndex)
        let taken := takeCodewords codec count enc
        some ({ session with
            codewordCredits := session.codewordCredits - 1
            nextIndex := session.nextIndex + count
            stage := .sending taken.2 },
          [.ribltCodewords ⟨session.round, session.nextIndex, taken.1⟩])
      else none
    | _ => none
  | .leave, some session => some ({ session with stage := .left, listed := false }, [])
  | .fail, some session => some ({ session with done := true, listed := false }, [])
  | _, _ => none

/-- `onRibltStatus`. -/
def onRibltStatus (status : RibltStatus Ref) (session : InitiatorSession Enc Ref) :
    InitiatorSession Enc Ref :=
  if !session.listed then session
  else if status.round ≠ session.round then session
  else if session.done then session
  else
    match status.payload with
    | .more _ credits =>
      { session with codewordCredits := session.codewordCredits + max 1 credits }
    | .decoded _ receiverMissing _ =>
      { session with
        done := true
        awaitingUploadAck := !receiverMissing.isEmpty
        terminalStatus := some status }
    | .failed _ _ => { session with done := true, terminalStatus := some status }

/-- What the initiator makes of a message. -/
def receiveReply : Reply Ref → InitiatorSession Enc Ref → InitiatorSession Enc Ref
  | .helloAck, session =>
    match session.listed, session.stage with
    | true, .helloSent => { session with stage := .acked }
    | _, _ => session
  | .ribltStatus status, session => onRibltStatus status session

/-! ## The responder -/

structure ResponderSession (Dec : Type) where
  round : ℕ
  decoder : Dec
  expectedIndex : ℕ
  awaitingIncomingDone : Bool

/-- What a responder has of a filter. -/
structure Responding (Dec : Type) where
  /-- `onHello` is at work. -/
  greeting : Bool
  session : Option (ResponderSession Dec)

inductive Response (Dec : Type) where
  /-- `onHello` ends: with the decoder of a new session, or without one (the filter is rejected, or
  its operations are sent without codewords). -/
  | answerHello (decoder : Option Dec)
  /-- The session ends, as with the last batch of an upload. -/
  | endSession

def respond : Response Dec → Responding Dec → Option (Responding Dec × List (Reply Ref))
  | .answerHello decoder, responding =>
    if responding.greeting then
      some (⟨false, decoder.elim responding.session fun decoder =>
        some { round := 0, decoder, expectedIndex := 0, awaitingIncomingDone := false }⟩,
        [.helloAck])
    else none
  | .endSession, responding => some ({ responding with session := none }, [])

/-- The loop over the codewords of a message, up to the limit of the responder. -/
def addCodewords (codec : Codec Codeword Enc Dec Ref) (maxCodewords : ℕ) :
    List Codeword → Dec × ℕ → Except String (Dec × ℕ)
  | [], state => .ok state
  | cw :: codewords, (decoder, expectedIndex) =>
    if expectedIndex ≥ maxCodewords then .ok (decoder, expectedIndex)
    else do
      let decoder ← codec.addCodeword decoder cw
      addCodewords codec maxCodewords codewords (decoder, expectedIndex + 1)

/-- `onRibltCodewords`, up to the operations that it sends behind a decoded status: the session that
stays, and the status that is sent. -/
def onRibltCodewords (codec : Codec Codeword Enc Dec Ref) (maxCodewords : ℕ)
    (msg : RibltCodewords Codeword) (session : ResponderSession Dec) :
    Option (ResponderSession Dec) × List (RibltStatus Ref) :=
  if msg.round ≠ session.round then (some session, [])
  else if msg.startIndex ≠ session.expectedIndex then
    (none, [⟨msg.round, .failed .outOfOrder none⟩])
  else
    match (do
      let (decoder, expectedIndex) ←
        addCodewords codec maxCodewords msg.codewords (session.decoder, session.expectedIndex)
      return (← codec.tryDecode decoder, expectedIndex) : Except String (Dec × ℕ)) with
    | .error message => (none, [⟨msg.round, .failed .decodeFailed (some message)⟩])
    | .ok (decoder, expectedIndex) =>
      let session := { session with decoder, expectedIndex }
      if !codec.decoded decoder then
        if expectedIndex ≥ maxCodewords then
          (none, [⟨msg.round, .failed .maxCodewordsExceeded none⟩])
        else (some session, [⟨msg.round, .more (codec.codewordsReceived decoder) 1⟩])
      else
        let receiverMissing := codec.remoteMissing decoder
        let senderMissing := codec.localMissing decoder
        (some { session with awaitingIncomingDone := !receiverMissing.isEmpty },
          [⟨msg.round, .decoded senderMissing receiverMissing (codec.codewordsReceived decoder)⟩])

/-- What the responder makes of a message. -/
def receiveRequest (codec : Codec Codeword Enc Dec Ref) (maxCodewords : ℕ) :
    Request Codeword → Responding Dec → Responding Dec × List (Reply Ref)
  | .hello, responding => ({ responding with greeting := true }, [])
  | .ribltCodewords msg, responding =>
    match responding.session with
    | none => (responding, [])
    | some session =>
      let (session, statuses) := onRibltCodewords codec maxCodewords msg session
      ({ responding with session }, statuses.map .ribltStatus)

/-! ## The two peers -/

structure System (FilterId Codeword Enc Dec Ref : Type) where
  initiator : FilterId → Option (InitiatorSession Enc Ref)
  responder : FilterId → Responding Dec
  /-- The channels; the oldest message is the first. -/
  toResponder : List (FilterId × Request Codeword)
  toInitiator : List (FilterId × Reply Ref)

def System.start : System FilterId Codeword Enc Dec Ref where
  initiator _ := none
  responder _ := ⟨false, none⟩
  toResponder := []
  toInitiator := []

inductive Event (FilterId Enc Dec : Type) where
  | initiate (filterId : FilterId) (initiation : Initiation Enc)
  | respond (filterId : FilterId) (response : Response Dec)
  /-- The oldest message arrives. -/
  | deliverRequest
  | deliverReply

variable [DecidableEq FilterId]

def System.step (codec : Codec Codeword Enc Dec Ref) (maxCodewords : ℕ)
    (s : System FilterId Codeword Enc Dec Ref) :
    Event FilterId Enc Dec → Option (System FilterId Codeword Enc Dec Ref)
  | .initiate filterId initiation =>
    (Riblt.initiate codec initiation (s.initiator filterId)).map fun next =>
      { s with
        initiator := Function.update s.initiator filterId (some next.1)
        toResponder := s.toResponder ++ next.2.map fun m => (filterId, m) }
  | .respond filterId response =>
    (Riblt.respond response (s.responder filterId)).map fun next =>
      { s with
        responder := Function.update s.responder filterId next.1
        toInitiator := s.toInitiator ++ next.2.map fun m => (filterId, m) }
  | .deliverRequest =>
    match s.toResponder with
    | [] => none
    | (filterId, request) :: rest =>
      let next := receiveRequest codec maxCodewords request (s.responder filterId)
      some { s with
        responder := Function.update s.responder filterId next.1
        toResponder := rest
        toInitiator := s.toInitiator ++ next.2.map fun m => (filterId, m) }
  | .deliverReply =>
    match s.toInitiator with
    | [] => none
    | (filterId, reply) :: rest =>
      some { s with
        initiator :=
          Function.update s.initiator filterId ((s.initiator filterId).map (receiveReply reply))
        toInitiator := rest }

/-- The states of the runs from the start. -/
inductive Reachable (codec : Codec Codeword Enc Dec Ref) (maxCodewords : ℕ) :
    System FilterId Codeword Enc Dec Ref → Prop
  | start : Reachable codec maxCodewords .start
  | step {s s' : System FilterId Codeword Enc Dec Ref} {event : Event FilterId Enc Dec}
      (before : Reachable codec maxCodewords s)
      (next : s.step codec maxCodewords event = some s') : Reachable codec maxCodewords s'

end Riblt

end Sync

end Treecrdt
