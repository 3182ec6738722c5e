import Mathlib.Algebra.GroupWithZero.Nat
import TreecrdtLean.Sync.FlowControl

/-!
# The codeword budget (`sync.ts`)

The loop of `syncOnce` ends when the session is done, or at its bound `maxCodewords`; behind the
loop, a session that is not done is given up. The bound is looked at right behind the last message,
whatever is still under way: the message itself, or the status that says that the responder has
decoded.

A ledger says what has happened in a session: the codewords that arrived, whether the responder has
decoded, and whether the call was given up (`Ledger`). It balances with what is under way
(`Accounts`). So a call that looks at its bound only when the last message is answered is given up
only if the codewords did not suffice; and if they did, it gets the answer and ends
(`run_budgetKept`).
-/

namespace Treecrdt

namespace Sync

namespace Riblt

variable {FilterId Codeword Enc Dec Ref Op : Type}

/-! ## Behind the loop -/

/-- How a call goes on behind its loop. -/
inductive LoopEnd (Ref : Type) where
  | maxCodewordsExceeded
  /-- An error has ended the session, and `terminalStatus` is rejected. -/
  | rejected
  | failed (reason : RibltFailureReason) (message : Option String)
  | upload (receiverMissing : List Ref)

def RibltFailureReason.name : RibltFailureReason → String
  | .maxCodewordsExceeded => "MAX_CODEWORDS_EXCEEDED"
  | .decodeFailed => "DECODE_FAILED"
  | .outOfOrder => "OUT_OF_ORDER"

/-- The message of the error that the call throws itself. -/
def LoopEnd.message : LoopEnd Ref → Option String
  | .maxCodewordsExceeded => some "riblt: max codewords exceeded"
  | .failed reason message =>
    some ("riblt: " ++ reason.name ++ (message.filter (· ≠ "")).elim "" (": " ++ ·))
  | .rejected | .upload _ => none

/-- The check of the loop, and what follows it; `none` where the call stays in the loop. -/
def InitiatorSession.loopEnd (session : InitiatorSession Enc Ref) : Option (LoopEnd Ref) :=
  match session.stage with
  | .sending _ =>
    if !session.done ∧ session.nextIndex < session.maxCodewords then none
    else if !session.done then some .maxCodewordsExceeded
    else
      match session.terminalStatus with
      | none => some .rejected
      | some status =>
        match status.payload with
        | .failed reason message => some (.failed reason message)
        | .decoded _ receiverMissing _ => some (.upload receiverMissing)
        | .more _ _ => some (.upload [])
  | _ => none

def LoopEnd.isExceeded : LoopEnd Ref → Bool
  | .maxCodewordsExceeded => true
  | _ => false

/-- The loop would give the session up now. -/
def InitiatorSession.givesUp (session : InitiatorSession Enc Ref) : Bool :=
  session.loopEnd.any LoopEnd.isExceeded

def RibltStatusPayload.isDecoded : RibltStatusPayload Ref → Bool
  | .decoded _ _ _ => true
  | _ => false

def Reply.isDecoded : Reply Ref → Bool
  | .ribltStatus status => status.payload.isDecoded
  | .helloAck => false

theorem InitiatorSession.givesUp_iff {session : InitiatorSession Enc Ref} :
    session.givesUp = true ↔ (∃ enc, session.stage = .sending enc) ∧ session.done = false ∧
      session.maxCodewords ≤ session.nextIndex := by
  unfold givesUp loopEnd
  split
  · rename_i enc hstage
    split
    · rename_i hloop
      simp only [Option.any_none, Bool.false_eq_true, false_iff]
      exact fun hup => absurd hloop.2 (by omega)
    · rename_i hloop
      split
      · rename_i hdone
        have hbound : session.maxCodewords ≤ session.nextIndex := by
          simp only [hdone, true_and] at hloop
          omega
        exact ⟨fun _ => ⟨⟨enc, hstage⟩, by simpa using hdone, hbound⟩, fun _ => rfl⟩
      · rename_i hdone
        refine ⟨fun hup => ?_, fun hup => absurd hup.2.1 (by simpa using hdone)⟩
        split at hup
        · cases hup
        · split at hup <;> cases hup
  · rename_i hstage
    simp only [Option.any_none, Bool.false_eq_true, false_iff]
    rintro ⟨⟨enc, hsending⟩, -⟩
    exact hstage enc hsending

/-! ## The operations behind the codewords -/

/-- `opsBatch`, as far as the end of the session needs it. -/
structure Batch (Op : Type) where
  ops : List Op
  done : Bool

/-- The loop of `sendOpsBatches`; the operations of a chunk are those that the backend has and the
auth allows. -/
def sendChunks (opsOf : List Ref → List Op) : List (List Ref) → List (Batch Op)
  | [] => []
  | [chunk] => [⟨opsOf chunk, true⟩]
  | chunk :: chunks =>
    (if (opsOf chunk).length = 0 then [] else [⟨opsOf chunk, false⟩]) ++ sendChunks opsOf chunks

def sendOpsBatches (opsOf : List Ref → List Op) (maxOpsPerBatch : ℕ) (opRefs : List Ref) :
    List (Batch Op) :=
  if opRefs.length = 0 then [⟨[], true⟩] else sendChunks opsOf (opRefs.toChunks maxOpsPerBatch)

/-- A session that has decoded: what the peers have still to send, and what they wait for. -/
structure Closing (Op : Type) where
  uploads : List (Batch Op)
  downloads : List (Batch Op)
  toResponder : List (Batch Op)
  toInitiator : List (Batch Op)
  awaitingUploadAck : Bool
  awaitingIncomingDone : Bool
  /-- The promise of the initiator is resolved. -/
  receivedOps : Bool

/-- Behind a decoded status: the end of `syncOnce` and of `onRibltCodewords`. -/
def Closing.start (toOps fromOps : List Ref → List Op) (maxOps maxOps' : ℕ)
    (senderMissing receiverMissing : List Ref) : Closing Op where
  uploads :=
    if receiverMissing.length > 0 then sendOpsBatches toOps maxOps receiverMissing
    else [⟨[], true⟩]
  downloads :=
    if senderMissing.length > 0 then sendOpsBatches fromOps maxOps' senderMissing
    else if !(receiverMissing.length > 0 : Bool) then [⟨[], true⟩] else []
  toResponder := []
  toInitiator := []
  awaitingUploadAck := receiverMissing.length > 0
  awaitingIncomingDone := receiverMissing.length > 0
  receivedOps := false

inductive ClosingEvent where
  | upload
  | download
  | receiveUpload
  | receiveDownload

/-- The end of `onOpsBatch` at both peers, for batches whose operations are taken. -/
def Closing.step (s : Closing Op) : ClosingEvent → Option (Closing Op)
  | .upload =>
    match s.uploads with
    | [] => none
    | batch :: uploads => some { s with uploads, toResponder := s.toResponder ++ [batch] }
  | .download =>
    match s.downloads with
    | [] => none
    | batch :: downloads => some { s with downloads, toInitiator := s.toInitiator ++ [batch] }
  | .receiveUpload =>
    match s.toResponder with
    | [] => none
    | batch :: toResponder =>
      if s.awaitingIncomingDone && batch.done then
        some { s with
          toResponder, awaitingIncomingDone := false, toInitiator := s.toInitiator ++ [⟨[], true⟩] }
      else some { s with toResponder }
  | .receiveDownload =>
    match s.toInitiator with
    | [] => none
    | batch :: toInitiator =>
      some { s with
        toInitiator
        receivedOps := s.receivedOps ||
          batch.done && (!s.awaitingUploadAck || batch.ops.length = 0) }

/-- Whatever steps come, the promise of the initiator is resolved after finitely many of them. -/
inductive Closing.Completes : Closing Op → Prop
  | resolved {s : Closing Op} (resolved : s.receivedOps = true) : Completes s
  | step {s : Closing Op} (enabled : ∃ event s', s.step event = some s')
      (next : ∀ event s', s.step event = some s' → Completes s') : Completes s

/-- The batch resolves the promise. -/
def Batch.Resolves (batch : Batch Op) (awaitingUploadAck : Bool) : Prop :=
  batch.done = true ∧ (awaitingUploadAck = false ∨ batch.ops.length = 0)

/-- Where the batch is that resolves the promise, or the upload that it answers. -/
inductive Closing.Resolving (s : Closing Op) : Prop
  | resolved (resolved : s.receivedOps = true)
  | downloading {batch : Batch Op} (mem : batch ∈ s.toInitiator ++ s.downloads)
      (resolves : batch.Resolves s.awaitingUploadAck)
  | uploading {batch : Batch Op} (awaiting : s.awaitingIncomingDone = true)
      (mem : batch ∈ s.toResponder ++ s.uploads) (done : batch.done = true)

/-- What is still to send and to take. -/
def Closing.work (s : Closing Op) : ℕ :=
  4 * s.uploads.length + 3 * s.toResponder.length + 2 * s.downloads.length + s.toInitiator.length

variable {s s' : Closing Op} {event : ClosingEvent}

theorem Closing.step_work (hstep : s.step event = some s') : s'.work < s.work := by
  obtain ⟨uploads, downloads, toResponder, toInitiator, _, _, _⟩ := s
  cases event with
  | upload =>
    cases uploads <;> cases hstep
    simp only [work, List.length_append, List.length_cons, List.length_nil]
    omega
  | download =>
    cases downloads <;> cases hstep
    simp only [work, List.length_append, List.length_cons, List.length_nil]
    omega
  | receiveUpload =>
    cases toResponder with
    | nil => cases hstep
    | cons batch toResponder =>
      simp only [step] at hstep
      split at hstep <;> cases hstep <;>
        simp only [work, List.length_append, List.length_cons, List.length_nil] <;> omega
  | receiveDownload =>
    cases toInitiator <;> cases hstep
    simp only [work, List.length_cons]
    omega

theorem Closing.Resolving.step (h : s.Resolving) (hstep : s.step event = some s') :
    s'.Resolving := by
  obtain ⟨uploads, downloads, toResponder, toInitiator, awaitingUploadAck, awaitingIncomingDone,
    receivedOps⟩ := s
  cases event with
  | upload =>
    cases uploads <;> cases hstep
    cases h with
    | resolved resolved => exact .resolved resolved
    | downloading mem resolves => exact .downloading mem resolves
    | uploading awaiting mem done => exact .uploading awaiting (by simpa using mem) done
  | download =>
    cases downloads <;> cases hstep
    cases h with
    | resolved resolved => exact .resolved resolved
    | downloading mem resolves => exact .downloading (by simpa using mem) resolves
    | uploading awaiting mem done => exact .uploading awaiting mem done
  | receiveUpload =>
    cases toResponder with
    | nil => cases hstep
    | cons first toResponder =>
      simp only [Closing.step] at hstep
      split at hstep <;> cases hstep
      · -- The empty batch that answers the last one resolves the promise in any case.
        exact .downloading (show (⟨[], true⟩ : Batch Op) ∈ _ by simp) ⟨rfl, .inr rfl⟩
      · rename_i hlast
        cases h with
        | resolved resolved => exact .resolved resolved
        | downloading mem resolves => exact .downloading mem resolves
        | @uploading batch awaiting mem done =>
          refine .uploading awaiting ?_ done
          rcases List.mem_cons.mp mem with rfl | mem
          · exact absurd (by simpa using And.intro awaiting done) hlast
          · exact mem
  | receiveDownload =>
    cases toInitiator with
    | nil => cases hstep
    | cons first toInitiator =>
      cases hstep
      cases h with
      | resolved resolved => exact .resolved (by simp only at resolved; simp [resolved])
      | @downloading batch mem resolves =>
        rcases List.mem_cons.mp mem with rfl | mem
        · obtain ⟨hdone, hack | hempty⟩ := resolves
          · exact .resolved (by simp only at hack; simp [hdone, hack])
          · exact .resolved (by simp [hdone, hempty])
        · exact .downloading mem resolves
      | uploading awaiting mem done => exact .uploading awaiting mem done

/-- The batch that is waited for can move on. -/
theorem Closing.Resolving.enabled (h : s.Resolving) (hwait : s.receivedOps = false) :
    ∃ event s', s.step event = some s' := by
  obtain ⟨uploads, downloads, toResponder, toInitiator, _, awaitingIncomingDone, _⟩ := s
  cases h with
  | resolved resolved => cases hwait.symm.trans resolved
  | downloading mem =>
    cases toInitiator with
    | cons => exact ⟨.receiveDownload, _, rfl⟩
    | nil =>
      cases downloads with
      | cons => exact ⟨.download, _, rfl⟩
      | nil => cases mem
  | uploading _ mem =>
    cases uploads with
    | cons => exact ⟨.upload, _, rfl⟩
    | nil =>
      cases toResponder with
      | cons batch toResponder =>
        refine ⟨.receiveUpload, ?_⟩
        simp only [Closing.step]
        split <;> exact ⟨_, rfl⟩
      | nil => cases mem

theorem Closing.Resolving.completes (h : s.Resolving) : s.Completes := by
  induction hwork : s.work using Nat.strongRecOn generalizing s with
  | ind work ih =>
    cases hreceived : s.receivedOps with
    | true => exact .resolved hreceived
    | false =>
      refine .step (h.enabled hreceived) fun event s' hstep => ?_
      exact ih s'.work (hwork ▸ Closing.step_work hstep) (h.step hstep) rfl

theorem toChunks_ne_nil {α : Type} (n : ℕ) {xs : List α} (h : xs ≠ []) : xs.toChunks n ≠ [] := by
  have hgo (xs : List α) (acc₁ : Array α) (acc₂ : Array (List α)) :
      List.toChunks.go n xs acc₁ acc₂ ≠ [] := by
    induction xs generalizing acc₁ acc₂ with
    | nil => simp [List.toChunks.go]
    | cons x xs ih =>
      rw [List.toChunks.go]
      split <;> exact ih _ _
  cases xs with
  | nil => exact absurd rfl h
  | cons x xs =>
    cases n with
    | zero => simp [List.toChunks]
    | succ n => exact hgo _ _ _

theorem sendChunks_done (opsOf : List Ref → List Op) {chunks : List (List Ref)} (h : chunks ≠ []) :
    ∃ batch ∈ sendChunks opsOf chunks, batch.done = true := by
  induction chunks with
  | nil => exact absurd rfl h
  | cons chunk chunks ih =>
    cases chunks with
    | nil => exact ⟨_, List.mem_singleton_self _, rfl⟩
    | cons next chunks =>
      obtain ⟨batch, hmem, hdone⟩ := ih (List.cons_ne_nil _ _)
      exact ⟨batch, List.mem_append_right _ hmem, hdone⟩

/-- The operations end with a batch that says so. -/
theorem sendOpsBatches_done (opsOf : List Ref → List Op) (maxOpsPerBatch : ℕ) (opRefs : List Ref) :
    ∃ batch ∈ sendOpsBatches opsOf maxOpsPerBatch opRefs, batch.done = true := by
  unfold sendOpsBatches
  split
  · exact ⟨_, List.mem_singleton_self _, rfl⟩
  · rename_i hrefs
    exact sendChunks_done opsOf (toChunks_ne_nil _ fun hnil => hrefs (by rw [hnil]; rfl))

/-- A session that has decoded ends, whatever is missing at either peer. -/
theorem Closing.start_completes (toOps fromOps : List Ref → List Op) (maxOps maxOps' : ℕ)
    (senderMissing receiverMissing : List Ref) :
    (Closing.start toOps fromOps maxOps maxOps' senderMissing receiverMissing).Completes := by
  apply Closing.Resolving.completes
  cases receiverMissing with
  | nil =>
    cases senderMissing with
    | nil =>
      exact .downloading (List.mem_singleton_self (⟨[], true⟩ : Batch Op)) ⟨rfl, .inl rfl⟩
    | cons ref refs =>
      obtain ⟨batch, hmem, hdone⟩ := sendOpsBatches_done fromOps maxOps' (ref :: refs)
      exact .downloading hmem ⟨hdone, .inl rfl⟩
  | cons ref refs =>
    obtain ⟨batch, hmem, hdone⟩ := sendOpsBatches_done toOps maxOps (ref :: refs)
    exact .uploading rfl hmem hdone

/-! ## The ledger of a session -/

/-- What has happened in a session. -/
structure Ledger where
  /-- The codewords that have come to the responder. -/
  received : ℕ
  /-- The responder has decoded. -/
  decoded : Bool
  /-- The call has thrown "riblt: max codewords exceeded". -/
  gaveUp : Bool

def Ledger.start : Ledger := ⟨0, false, false⟩

variable {codec : Codec Codeword Enc Dec Ref} {maxCodewords : ℕ}

def Ledger.after (codec : Codec Codeword Enc Dec Ref) (maxCodewords : ℕ)
    (v : View Codeword Enc Dec Ref) : SessionEvent Enc Dec → Ledger → Ledger
  | .initiate .leave, ledger =>
    { ledger with gaveUp := ledger.gaveUp || v.initiator.any InitiatorSession.givesUp }
  | .receiveRequest, ledger =>
    match v.requests with
    | .ribltCodewords msg :: _ =>
      { ledger with
        received := ledger.received + msg.codewords.length
        decoded := ledger.decoded ||
          (receiveRequest codec maxCodewords (.ribltCodewords msg) v.responding).2.any
            Reply.isDecoded }
    | _ => ledger
  | _, ledger => ledger

/-- No codewords are on their way to the responder, and no decoded status on its way back. -/
def View.answered (v : View Codeword Enc Dec Ref) : Bool :=
  v.requests.all (!·.isCodewords) && v.replies.all (!·.isDecoded)

/-- The codewords under way. -/
def Request.codewordCount : Request Codeword → ℕ
  | .ribltCodewords msg => msg.codewords.length
  | .hello => 0

/-- The initiator hears that the responder has decoded, unless an error ends the call. -/
inductive Told (session : InitiatorSession Enc Ref) (replies : List (Reply Ref)) : Prop
  | underWay {status : RibltStatus Ref} (mem : .ribltStatus status ∈ replies)
      (decoded : status.payload.isDecoded = true) (round : status.round = session.round)
  | told {status : RibltStatus Ref} (terminal : session.terminalStatus = some status)
      (decoded : status.payload.isDecoded = true) (done : session.done = true)
  | ended (unlisted : session.listed = false)

/-- The ledger of a session balances with what is under way. -/
structure Accounts (ledger : Ledger) (session : InitiatorSession Enc Ref)
    (requests : List (Request Codeword)) (replies : List (Reply Ref)) : Prop where
  received : ledger.received + (requests.map Request.codewordCount).sum = session.nextIndex
  bounded : session.nextIndex ≤ session.maxCodewords
  unlisted : session.listed = false → session.done = true ∨ session.stage = .left
  settled : session.done = true → session.listed = false ∨
    session.codewordCredits = 0 ∧ requests = [] ∧ replies = []
  decoded : ledger.decoded = true → session.codewordCredits = 0 ∧
    requests.all (!·.isCodewords) = true ∧ Told session replies
  gaveUp : ledger.gaveUp = true → session.stage = .left ∧
    requests.all (!·.isCodewords) = true ∧ ledger.received = session.maxCodewords ∧
    ledger.decoded = false

/-- The ledger of a session, or of none. -/
structure View.Accounted (v : View Codeword Enc Dec Ref) (ledger : Ledger) : Prop where
  fresh : v.initiator = none → ledger = .start
  session : ∀ session, v.initiator = some session → Accounts ledger session v.requests v.replies

variable {ledger : Ledger} {session : InitiatorSession Enc Ref}
variable {requests : List (Request Codeword)} {replies : List (Reply Ref)}
variable {responding : Responding Dec}

theorem codewordCount_of_all (h : requests.all (!·.isCodewords) = true) :
    (requests.map Request.codewordCount).sum = 0 := by
  induction requests with
  | nil => rfl
  | cons request requests ih =>
    rw [List.all_cons, Bool.and_eq_true] at h
    cases request with
    | hello => simpa [Request.codewordCount] using ih h.2
    | ribltCodewords msg => cases h.1

/-- A call that looks at its bound when it is answered is right to give up. -/
theorem Accounts.leave (h : Accounts ledger session requests replies)
    (hanswered : session.givesUp = true →
      requests.all (!·.isCodewords) = true ∧ replies.all (!·.isDecoded) = true) :
    Accounts { ledger with gaveUp := ledger.gaveUp || session.givesUp }
      ({ session with stage := .left, listed := false } : InitiatorSession Enc Ref)
      requests replies where
  received := h.received
  bounded := h.bounded
  unlisted _ := .inr rfl
  settled _ := .inl rfl
  decoded hdecoded :=
    ⟨(h.decoded hdecoded).1, (h.decoded hdecoded).2.1, .ended rfl⟩
  gaveUp hgaveUp := by
    cases hbefore : ledger.gaveUp with
    | true => exact ⟨rfl, (h.gaveUp hbefore).2⟩
    | false =>
      have hup : session.givesUp = true := by simpa [hbefore] using hgaveUp
      obtain ⟨hrequests, hreplies⟩ := hanswered hup
      obtain ⟨⟨enc, hstage⟩, hdone, hbound⟩ := InitiatorSession.givesUp_iff.mp hup
      refine ⟨rfl, hrequests, ?_, ?_⟩
      · have hreceived := h.received
        rw [codewordCount_of_all hrequests, Nat.add_zero] at hreceived
        exact hreceived.trans (Nat.le_antisymm h.bounded hbound)
      · by_contra hdecoded
        obtain ⟨-, -, htold⟩ := h.decoded (by simpa using hdecoded)
        cases htold with
        | underWay mem decoded =>
          have hnot := List.all_eq_true.mp hreplies _ mem
          simp [Reply.isDecoded, decoded] at hnot
        | told _ _ done => cases hdone.symm.trans done
        | ended unlisted =>
          rcases h.unlisted unlisted with hover | hleft
          · cases hdone.symm.trans hover
          · cases hstage.symm.trans hleft

/-- An error of the session. -/
theorem Accounts.fail (h : Accounts ledger session requests replies) :
    Accounts ledger { session with done := true, listed := false } requests replies where
  received := h.received
  bounded := h.bounded
  unlisted _ := .inl rfl
  settled _ := .inl rfl
  decoded hdecoded := ⟨(h.decoded hdecoded).1, (h.decoded hdecoded).2.1, .ended rfl⟩
  gaveUp := h.gaveUp

/-- A call that has not been given up goes on. -/
theorem Accounts.moveTo (h : Accounts ledger session requests replies) {stage : Stage Enc}
    (hstage : session.stage ≠ .left) :
    Accounts ledger { session with stage } requests replies where
  received := h.received
  bounded := h.bounded
  unlisted hunlisted := .inl ((h.unlisted hunlisted).resolve_right hstage)
  settled := h.settled
  decoded hdecoded := by
    obtain ⟨hcredits, hrequests, htold⟩ := h.decoded hdecoded
    refine ⟨hcredits, hrequests, ?_⟩
    cases htold with
    | underWay mem decoded round => exact .underWay mem decoded round
    | told terminal decoded done => exact .told terminal decoded done
    | ended unlisted => exact .ended unlisted
  gaveUp hgaveUp := absurd (h.gaveUp hgaveUp).1 hstage

/-- The credit becomes a message, of as many codewords as are left. -/
theorem Accounts.send {enc : Enc}
    (h : Accounts ledger session ([] : List (Request Codeword)) ([] : List (Reply Ref)))
    (hstage : session.stage = .sending enc) (hcredits : session.codewordCredits = 1)
    (hdone : session.done = false) (stage : Stage Enc) {msg : RibltCodewords Codeword} {n : ℕ}
    (hlength : msg.codewords.length = n) (hn : n ≤ session.maxCodewords - session.nextIndex) :
    Accounts ledger { session with
        codewordCredits := session.codewordCredits - 1, nextIndex := session.nextIndex + n, stage }
      [.ribltCodewords msg] ([] : List (Reply Ref)) where
  received := by
    have hreceived : ledger.received + 0 = session.nextIndex := h.received
    simp only [List.map_singleton, List.sum_singleton, Request.codewordCount]
    omega
  bounded := by
    have hbounded := h.bounded
    simp only
    omega
  unlisted hunlisted := by
    rcases h.unlisted hunlisted with hover | hleft
    · exact .inl hover
    · cases hstage.symm.trans hleft
  settled hover := by cases hdone.symm.trans hover
  decoded hdecoded := by
    have hnone := (h.decoded hdecoded).1
    rw [hcredits] at hnone
    cases hnone
  gaveUp hgaveUp := by cases hstage.symm.trans (h.gaveUp hgaveUp).1

/-- What a responder makes of codewords, for the ledger. -/
theorem Accounts.receiveCodewords {msg : RibltCodewords Codeword}
    (h : Accounts ledger session [.ribltCodewords msg] ([] : List (Reply Ref)))
    (hcredits : session.codewordCredits = 0) (hround : msg.round = session.round)
    {answer : List (Reply Ref)} {decoded : Bool} (hanswer : decoded = true →
      ∃ status, .ribltStatus status ∈ answer ∧ status.payload.isDecoded = true ∧
        status.round = msg.round) :
    Accounts
      ⟨ledger.received + msg.codewords.length, ledger.decoded || decoded, ledger.gaveUp⟩
      session ([] : List (Request Codeword)) answer where
  received := by
    have hreceived := h.received
    simpa [Request.codewordCount] using hreceived
  bounded := h.bounded
  unlisted := h.unlisted
  settled hdone := by
    rcases h.settled hdone with hunlisted | ⟨-, hnil, -⟩
    · exact .inl hunlisted
    · cases hnil
  decoded hdecoded := by
    cases hbefore : ledger.decoded with
    | true => cases (h.decoded hbefore).2.1
    | false =>
      rw [hbefore] at hdecoded
      obtain ⟨status, hmem, hstatus, hsame⟩ := hanswer hdecoded
      exact ⟨hcredits, rfl, .underWay hmem hstatus (hsame.trans hround)⟩
  gaveUp hgaveUp := by cases (h.gaveUp hgaveUp).2.1

/-- The answer of `onHello`. -/
theorem Accounts.receiveAck
    (h : Accounts ledger session ([] : List (Request Codeword)) [(.helloAck : Reply Ref)])
    (hcredits : session.codewordCredits = 1) :
    Accounts ledger (receiveReply .helloAck session) ([] : List (Request Codeword))
      ([] : List (Reply Ref)) := by
  have hundecided : ledger.decoded = false := by
    by_contra hdecoded
    have hnone := (h.decoded (by simpa using hdecoded)).1
    rw [hcredits] at hnone
    cases hnone
  have hdrop : Accounts ledger session ([] : List (Request Codeword)) ([] : List (Reply Ref)) :=
    { h with
      settled := fun hdone => (h.settled hdone).imp_right fun hnil => by cases hnil.2.2
      decoded := fun hdecoded => by cases hundecided.symm.trans hdecoded }
  rw [receiveReply]
  split
  · rename_i hstage
    exact hdrop.moveTo (by simp [hstage])
  · exact hdrop

/-- A status; the first that ends the session is the one that counts. -/
theorem Accounts.receiveStatus {status : RibltStatus Ref}
    (h : Accounts ledger session ([] : List (Request Codeword)) [.ribltStatus status])
    (hcredits : session.codewordCredits = 0) :
    Accounts ledger (onRibltStatus status session) ([] : List (Request Codeword))
      ([] : List (Reply Ref)) := by
  have hopen : session.listed = true → session.done = false := fun hlisted => by
    by_contra hdone
    rcases h.settled (by simpa using hdone) with hunlisted | ⟨-, -, hnil⟩
    · cases hlisted.symm.trans hunlisted
    · cases hnil
  have htold : session.listed = true → ledger.decoded = true →
      status.payload.isDecoded = true ∧ status.round = session.round := fun hlisted hdecoded => by
    obtain ⟨-, -, htold⟩ := h.decoded hdecoded
    cases htold with
    | underWay mem decoded round =>
      cases List.mem_singleton.mp mem
      exact ⟨decoded, round⟩
    | told _ _ done => cases (hopen hlisted).symm.trans done
    | ended unlisted => cases hlisted.symm.trans unlisted
  unfold onRibltStatus
  split
  · rename_i hunlisted
    have hunlisted : session.listed = false := by simpa using hunlisted
    exact { h with
      settled := fun _ => .inl hunlisted
      decoded := fun hdecoded =>
        ⟨(h.decoded hdecoded).1, (h.decoded hdecoded).2.1, .ended hunlisted⟩ }
  rename_i hlisted
  have hlisted : session.listed = true := by simpa using hlisted
  split
  · rename_i hround
    exact { h with
      settled := fun hdone => by cases (hopen hlisted).symm.trans hdone
      decoded := fun hdecoded => absurd (htold hlisted hdecoded).2 hround }
  split
  · rename_i hdone
    cases (hopen hlisted).symm.trans hdone
  split
  · rename_i hmore
    exact { h with
      settled := fun hdone => by cases (hopen hlisted).symm.trans hdone
      decoded := fun hdecoded => by
        have hstatus := (htold hlisted hdecoded).1
        rw [hmore] at hstatus
        cases hstatus }
  · rename_i hpayload
    exact { h with
      unlisted := fun hunlisted => by cases hlisted.symm.trans hunlisted
      settled := fun _ => .inr ⟨hcredits, rfl, rfl⟩
      decoded := fun _ => ⟨hcredits, rfl, .told rfl (by rw [hpayload]; rfl) rfl⟩ }
  · rename_i hpayload
    exact { h with
      unlisted := fun hunlisted => by cases hlisted.symm.trans hunlisted
      settled := fun _ => .inr ⟨hcredits, rfl, rfl⟩
      decoded := fun hdecoded => by
        have hstatus := (htold hlisted hdecoded).1
        rw [hpayload] at hstatus
        cases hstatus }

/-! ## Steps -/

variable {v v' : View Codeword Enc Dec Ref}

theorem View.Accounted.initiate {initiation : Initiation Enc}
    (h : v.Accounted ledger) (hturn : v.InTurn)
    (hanswered : initiation = .leave → v.initiator.any InitiatorSession.givesUp = true →
      v.answered = true)
    (hstep : v.step codec maxCodewords (.initiate initiation) = some v') :
    v'.Accounted (ledger.after codec maxCodewords v (.initiate initiation)) := by
  obtain ⟨initiator, responding, requests, replies⟩ := v
  obtain ⟨next, hinitiate, rfl⟩ := Option.map_eq_some_iff.mp hstep
  refine ⟨nofun, ?_⟩
  rintro _ ⟨⟩
  cases initiator with
  | none =>
    cases initiation <;> try cases hinitiate
    cases hturn
    rw [show ledger = .start from h.fresh rfl]
    exact ⟨rfl, Nat.zero_le _, nofun, nofun, nofun, nofun⟩
  | some session =>
    have haccounts := h.session session rfl
    cases initiation with
    | syncOnce => cases hinitiate
    | enterLoop enc =>
      simp only [Riblt.initiate] at hinitiate
      split at hinitiate <;> cases hinitiate
      rename_i hacked
      rw [List.append_nil]
      exact haccounts.moveTo (by simp [hacked])
    | sendCodewords =>
      simp only [Riblt.initiate] at hinitiate
      split at hinitiate
      · split at hinitiate <;> cases hinitiate
        rename_i enc hstage hguard
        obtain ⟨hdone, -, hcredits⟩ := hguard
        cases hturn with
        | hello start | greeting start | helloAck start =>
          rcases start.stage with hsent | hleft
          · cases hstage.symm.trans hsent
          · cases hstage.symm.trans hleft
        | credit credits =>
          exact haccounts.send hstage credits (by simpa using hdone) _
            (takeCodewords_length _ _) (Nat.min_le_right _ _)
        | codewords credits | more credits | ending credits | ended credits =>
          exact absurd (Int.le_of_eq credits) hcredits
      · cases hinitiate
    | leave =>
      cases hinitiate
      rw [List.append_nil]
      refine haccounts.leave fun hup => ?_
      have hboth := hanswered rfl hup
      rwa [View.answered, Bool.and_eq_true] at hboth
    | fail =>
      cases hinitiate
      rw [List.append_nil]
      exact haccounts.fail

theorem View.Accounted.respond {response : Response Dec}
    (h : v.Accounted ledger) (hturn : v.InTurn)
    (hstep : v.step codec maxCodewords (.respond response) = some v') : v'.Accounted ledger := by
  obtain ⟨initiator, responding, requests, replies⟩ := v
  obtain ⟨next, hrespond, rfl⟩ := Option.map_eq_some_iff.mp hstep
  refine ⟨h.fresh, fun session hsession => ?_⟩
  have haccounts := h.session session hsession
  cases response with
  | endSession =>
    cases hrespond
    rw [List.append_nil]
    exact haccounts
  | answerHello decoder =>
    simp only [Riblt.respond] at hrespond
    split at hrespond <;> cases hrespond
    rename_i hgreeting
    have hcredits : session.codewordCredits = 1 := by
      cases hturn <;> try cases hgreeting
      rename_i start
      cases hsession
      exact start.codewordCredits
    exact { haccounts with
      settled := fun hdone => (haccounts.settled hdone).imp_right fun hnil => by
        rw [hcredits] at hnil
        cases hnil.1
      decoded := fun hdecoded => by
        have hnone := (haccounts.decoded hdecoded).1
        rw [hcredits] at hnone
        cases hnone }

/-- A status is of the round of the message that it answers. -/
theorem onRibltCodewords_round {msg : RibltCodewords Codeword} {session : ResponderSession Dec}
    {status : RibltStatus Ref}
    (h : status ∈ (onRibltCodewords codec maxCodewords msg session).2) :
    status.round = msg.round := by
  revert h
  unfold onRibltCodewords
  split
  · nofun
  split
  · exact fun h => by rw [List.mem_singleton.mp h]
  split
  · exact fun h => by rw [List.mem_singleton.mp h]
  · dsimp only
    split
    · split
      · exact fun h => by rw [List.mem_singleton.mp h]
      · exact fun h => by rw [List.mem_singleton.mp h]
    · exact fun h => by rw [List.mem_singleton.mp h]

theorem receiveRequest_decoded {msg : RibltCodewords Codeword}
    (h : (receiveRequest codec maxCodewords (.ribltCodewords msg) responding :
      Responding Dec × List (Reply Ref)).2.any Reply.isDecoded = true) :
    ∃ status, .ribltStatus status ∈
        (receiveRequest codec maxCodewords (.ribltCodewords msg) responding :
          Responding Dec × List (Reply Ref)).2 ∧
      status.payload.isDecoded = true ∧ status.round = msg.round := by
  obtain ⟨reply, hmem, hdecoded⟩ := List.any_eq_true.mp h
  cases reply with
  | helloAck => cases hdecoded
  | ribltStatus status =>
    refine ⟨status, hmem, hdecoded, ?_⟩
    simp only [receiveRequest] at hmem
    split at hmem
    · cases hmem
    · obtain ⟨answered, hanswered, heq⟩ := List.mem_map.mp hmem
      cases heq
      exact onRibltCodewords_round hanswered

theorem View.Accounted.receiveRequest (h : v.Accounted ledger) (hturn : v.InTurn)
    (hstep : v.step codec maxCodewords .receiveRequest = some v') :
    v'.Accounted (ledger.after codec maxCodewords v .receiveRequest) := by
  obtain ⟨initiator, responding, requests, replies⟩ := v
  cases hturn with
  | hello start =>
    cases hstep
    refine ⟨h.fresh, fun session hsession => ?_⟩
    have haccounts := h.session session hsession
    cases hsession
    exact { haccounts with
      settled := fun hdone => (haccounts.settled hdone).imp_right fun hnil => by cases hnil.2.1
      decoded := fun hdecoded => by
        have hnone := (haccounts.decoded hdecoded).1
        rw [start.codewordCredits] at hnone
        cases hnone
      gaveUp := fun hgaveUp =>
        let hbefore := haccounts.gaveUp hgaveUp
        ⟨hbefore.1, rfl, hbefore.2.2⟩ }
  | @codewords session responder msg credits round =>
    cases hstep
    refine ⟨nofun, ?_⟩
    rintro _ ⟨⟩
    exact (h.session session rfl).receiveCodewords credits round receiveRequest_decoded
  | fresh | greeting | helloAck | credit | more | ending | ended => cases hstep

theorem View.Accounted.receiveReply (h : v.Accounted ledger) (hturn : v.InTurn)
    (hstep : v.step codec maxCodewords .receiveReply = some v') : v'.Accounted ledger := by
  obtain ⟨initiator, responding, requests, replies⟩ := v
  cases hturn with
  | @helloAck session responder start =>
    cases hstep
    refine ⟨nofun, ?_⟩
    rintro _ ⟨⟩
    exact (h.session session rfl).receiveAck start.codewordCredits
  | @more session _ _ _ credits | @ending session _ _ credits =>
    cases hstep
    refine ⟨nofun, ?_⟩
    rintro _ ⟨⟩
    exact (h.session session rfl).receiveStatus credits
  | fresh | hello | greeting | credit | codewords | ended => cases hstep

/-! ## Runs -/

variable [DecidableEq FilterId]

/-- The ledgers behind an event. -/
def ledgersAfter (codec : Codec Codeword Enc Dec Ref) (maxCodewords : ℕ)
    (s : System FilterId Codeword Enc Dec Ref) (event : Event FilterId Enc Dec)
    (ledgers : FilterId → Ledger) (filterId : FilterId) : Ledger :=
  (event.forSession s filterId).elim (ledgers filterId) fun e =>
    (ledgers filterId).after codec maxCodewords (s.view filterId) e

/-- The runs from the start whose steps meet a condition, with the ledgers of the sessions. -/
inductive Run (codec : Codec Codeword Enc Dec Ref) (maxCodewords : ℕ)
    (meets : System FilterId Codeword Enc Dec Ref → Event FilterId Enc Dec → Bool) :
    System FilterId Codeword Enc Dec Ref → (FilterId → Ledger) → Prop
  | start : Run codec maxCodewords meets .start fun _ => .start
  | step {s s' : System FilterId Codeword Enc Dec Ref} {ledgers : FilterId → Ledger}
      {event : Event FilterId Enc Dec} (before : Run codec maxCodewords meets s ledgers)
      (allowed : meets s event = true) (next : s.step codec maxCodewords event = some s') :
      Run codec maxCodewords meets s' (ledgersAfter codec maxCodewords s event ledgers)

/-- A call that would give up is answered. -/
def waitsForAnswer (s : System FilterId Codeword Enc Dec Ref) : Event FilterId Enc Dec → Bool
  | .initiate filterId .leave =>
    !(s.initiator filterId).any InitiatorSession.givesUp || (s.view filterId).answered
  | _ => true

variable {s s' : System FilterId Codeword Enc Dec Ref} {event : Event FilterId Enc Dec}
variable {meets : System FilterId Codeword Enc Dec Ref → Event FilterId Enc Dec → Bool}
variable {ledgers : FilterId → Ledger}

theorem Run.reachable (h : Run codec maxCodewords meets s ledgers) :
    Reachable codec maxCodewords s := by
  induction h with
  | start => exact .start
  | step _ _ hstep ih => exact ih.step hstep

theorem Run.accounted (h : Run codec maxCodewords waitsForAnswer s ledgers) (filterId : FilterId) :
    (s.view filterId).Accounted (ledgers filterId) := by
  induction h with
  | start => exact ⟨fun _ => rfl, nofun⟩
  | @step s s' ledgers event before hmeets hstep ih =>
    have hturn : (s.view filterId).InTurn := before.reachable.inTurn filterId
    obtain ⟨e, he, hview⟩ | ⟨he, hview⟩ := System.view_step hstep filterId
    · rw [ledgersAfter, he, Option.elim_some]
      cases e with
      | initiate initiation =>
        refine ih.initiate hturn ?_ hview
        rintro rfl hup
        cases event with
        | initiate own initiation =>
          simp only [Event.forSession] at he
          split at he <;> cases he
          rename_i hown
          subst hown
          have hup : (s.initiator own).any InitiatorSession.givesUp = true := hup
          simpa [waitsForAnswer, hup] using hmeets
        | respond =>
          simp only [Event.forSession] at he
          split at he <;> cases he
        | deliverRequest | deliverReply =>
          obtain ⟨message, -, hmessage⟩ := Option.bind_eq_some_iff.mp he
          split at hmessage <;> cases hmessage
      | respond response => exact ih.respond hturn hview
      | receiveRequest => exact ih.receiveRequest hturn hview
      | receiveReply => exact ih.receiveReply hturn hview
    · rw [ledgersAfter, he, hview, Option.elim_none]
      exact ih

/-- The call gives up only if the responder has all its codewords and has not decoded. When the
responder has decoded, the answer is under way, or the loop is over and the session ends. -/
structure BudgetKept (ledger : Ledger) (session : InitiatorSession Enc Ref)
    (replies : List (Reply Ref)) : Prop where
  gaveUp : ledger.gaveUp = true →
    ledger.received = session.maxCodewords ∧ ledger.decoded = false
  completes : ledger.decoded = true → ∀ enc, session.stage = .sending enc →
    session.listed = true → replies.any Reply.isDecoded = true ∨
      ∃ senderMissing receiverMissing, session.loopEnd = some (.upload receiverMissing) ∧
        ∀ (Op : Type) (toOps fromOps : List Ref → List Op) (maxOps maxOps' : ℕ),
          (Closing.start toOps fromOps maxOps maxOps' senderMissing receiverMissing).Completes

theorem Accounts.budgetKept (h : Accounts ledger session requests replies) :
    BudgetKept ledger session replies where
  gaveUp hgaveUp := (h.gaveUp hgaveUp).2.2
  completes hdecoded enc hstage hlisted := by
    obtain ⟨-, -, htold⟩ := h.decoded hdecoded
    cases htold with
    | underWay mem decoded => exact .inl (List.any_eq_true.mpr ⟨_, mem, decoded⟩)
    | ended unlisted => cases hlisted.symm.trans unlisted
    | @told status terminal decoded done =>
      obtain ⟨round, payload⟩ := status
      cases payload with
      | more | failed => cases decoded
      | decoded senderMissing receiverMissing =>
        refine .inr ⟨senderMissing, receiverMissing, ?_, fun _ _ _ _ _ =>
          Closing.start_completes _ _ _ _ _ _⟩
        simp [InitiatorSession.loopEnd, hstage, done, terminal]

/-- In a run in which every call that would give up is answered, the budget of every session is
kept. -/
theorem run_budgetKept (codec : Codec Codeword Enc Dec Ref) (maxCodewords : ℕ)
    (s : System FilterId Codeword Enc Dec Ref) (ledgers : FilterId → Ledger)
    (h : Run codec maxCodewords waitsForAnswer s ledgers) (filterId : FilterId)
    (session : InitiatorSession Enc Ref) (hsession : s.initiator filterId = some session) :
    BudgetKept (ledgers filterId) session (channel filterId s.toInitiator) :=
  ((h.accounted filterId).session session hsession).budgetKept

/-! A session whose only message is the one that the responder needs. -/

/-- The events one after the other, with the ledgers. -/
def System.track (codec : Codec Codeword Enc Dec Ref) (maxCodewords : ℕ)
    (meets : System FilterId Codeword Enc Dec Ref → Event FilterId Enc Dec → Bool)
    (s : System FilterId Codeword Enc Dec Ref) (ledgers : FilterId → Ledger) :
    List (Event FilterId Enc Dec) →
    Option (System FilterId Codeword Enc Dec Ref × (FilterId → Ledger))
  | [] => some (s, ledgers)
  | event :: events =>
    if meets s event then
      (s.step codec maxCodewords event).bind fun s' =>
        s'.track codec maxCodewords meets (ledgersAfter codec maxCodewords s event ledgers) events
    else none

theorem Run.track {events : List (Event FilterId Enc Dec)} {ledgers' : FilterId → Ledger}
    (h : Run codec maxCodewords meets s ledgers)
    (htrack : s.track codec maxCodewords meets ledgers events = some (s', ledgers')) :
    Run codec maxCodewords meets s' ledgers' := by
  induction events generalizing s ledgers with
  | nil =>
    cases htrack
    exact h
  | cons event events ih =>
    rw [System.track] at htrack
    split at htrack
    · rename_i hmeets
      obtain ⟨t, hstep, hrest⟩ := Option.bind_eq_some_iff.mp htrack
      exact ih (h.step hmeets hstep) hrest
    · cases htrack

/-- All three codewords are sent in one message, and the responder decodes. -/
def onlyMessage : List (Event Bool ℕ ℕ) :=
  [.initiate true (.syncOnce 3 3), .deliverRequest, .respond true (.answerHello (some 0)),
    .deliverReply, .initiate true (.enterLoop 0), .initiate true .sendCodewords, .deliverRequest]

theorem run_budgetKept_decoded : ∃ (s : System Bool ℕ ℕ ℕ ℕ) (ledgers : Bool → Ledger)
    (session : InitiatorSession ℕ ℕ), s.initiator true = some session ∧
      (ledgers true).decoded = true ∧
      BudgetKept (ledgers true) session (channel true s.toInitiator) := by
  have hrun : ((System.start : System Bool ℕ ℕ ℕ ℕ).track countingCodec 3 waitsForAnswer
      (fun _ => .start) (onlyMessage ++ [.deliverReply])).any (fun t =>
        (t.1.initiator true).isSome && (t.2 true).decoded) = true := by decide +kernel
  obtain ⟨⟨s, ledgers⟩, htrack, hs⟩ := Option.any_eq_true _ _ |>.mp hrun
  simp only [Bool.and_eq_true] at hs
  obtain ⟨session, hsession⟩ := Option.isSome_iff_exists.mp hs.1
  exact ⟨s, ledgers, session, hsession, hs.2,
    run_budgetKept countingCodec 3 s ledgers (Run.start.track htrack) true session hsession⟩

/-- The decoded status is under way when the call looks at its bound, and gives up. -/
theorem decoded_given_up : ¬ ∀ (s : System Bool ℕ ℕ ℕ ℕ) (ledgers : Bool → Ledger),
    Run countingCodec 3 (fun _ _ => true) s ledgers → ∀ filterId session,
      s.initiator filterId = some session → session.maxCodewords ≤ 3 →
      BudgetKept (ledgers filterId) session (channel filterId s.toInitiator) := by
  intro hclaim
  have hrun : ((System.start : System Bool ℕ ℕ ℕ ℕ).track countingCodec 3 (fun _ _ => true)
      (fun _ => .start) (onlyMessage ++ [.initiate true .leave])).any (fun t =>
        (t.1.initiator true).any (·.maxCodewords ≤ 3) && (t.2 true).decoded &&
          (t.2 true).gaveUp) = true := by decide +kernel
  obtain ⟨⟨s, ledgers⟩, htrack, hs⟩ := Option.any_eq_true _ _ |>.mp hrun
  simp only [Bool.and_eq_true] at hs
  obtain ⟨⟨hinitiator, hdecoded⟩, hgaveUp⟩ := hs
  obtain ⟨session, hsession, hbound⟩ := Option.any_eq_true _ _ |>.mp hinitiator
  have hkept := hclaim s ledgers (Run.start.track htrack) true session hsession
    (of_decide_eq_true hbound)
  cases hdecoded.symm.trans (hkept.gaveUp hgaveUp).2

end Riblt

end Sync

end Treecrdt
