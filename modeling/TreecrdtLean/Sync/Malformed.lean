import TreecrdtLean.Sync.Connection
import TreecrdtLean.Sync.Protobuf

/-!
# Malformed frames

`wrapDuplexTransportWithCodec` decodes inside the listener, outside of the promise that the peer
catches. The messages that decode are those of `WellFormed` (`fromProtoMessage_isOk`); the first
other frame on a connection that listens ends the process, with all of its connections
(`contained_iff`).
-/

namespace Treecrdt

open Auth Interface

@[simp] theorem except_pure_isOk {ε α : Type} (a : α) : (pure a : Except ε α).isOk = true := rfl

@[simp] theorem except_ok_isOk {ε α : Type} (a : α) : (.ok a : Except ε α).isOk = true := rfl

@[simp] theorem except_error_isOk {ε α : Type} (e : ε) : (.error e : Except ε α).isOk = false := rfl

/-- A sequence succeeds if its parts do. -/
theorem except_bind_isOk {ε α β : Type} {x : Except ε α} {f : α → Except ε β} :
    (x >>= f).isOk ↔ ∃ a, x = .ok a ∧ (f a).isOk := by
  cases x with
  | error e => exact iff_of_false Bool.false_ne_true fun ⟨a, h, _⟩ => (nomatch h)
  | ok a => exact ⟨fun h => ⟨a, rfl, h⟩, fun ⟨b, hb, h⟩ => by cases hb; exact h⟩

theorem except_isOk_iff {ε α : Type} {x : Except ε α} : x.isOk ↔ ∃ a, x = .ok a := by
  cases x with
  | error e => exact iff_of_false Bool.false_ne_true fun ⟨a, h⟩ => (nomatch h)
  | ok a => exact iff_of_true rfl ⟨a, rfl⟩

theorem throwIf_isOk {failed : Prop} [Decidable failed] {message : String} :
    (throwIf failed message).isOk ↔ ¬ failed := by
  unfold throwIf
  split <;> simp_all

namespace Sync

namespace V0

/-! ## What decodes -/

/-- A node id of 16 bytes. -/
def NodeOk (node : Option Proto.BytesField) : Prop := ∃ field ∈ node, field.bytes.length = 16

def FilterOk (filter : Option Proto.Filter) : Prop :=
  ∃ f ∈ filter, ∃ kind ∈ f.kind, ∀ parent, kind = .children parent → parent.isSome

def KindOk (knownState : Bytes) : Proto.OperationKind → Prop
  | .insert parent node _ _ => NodeOk parent ∧ NodeOk node
  | .move node newParent _ => NodeOk node ∧ NodeOk newParent
  | .delete node => NodeOk node ∧ knownState ≠ []
  | .tombstone node => NodeOk node
  | .payload node value => NodeOk node ∧ value.isSome

def MetadataOk (m : Proto.OperationMetadata) : Prop :=
  (∃ id ∈ m.id, (∃ replica ∈ id.replica, replica.bytes.length = 32) ∧
    (id.counter.toNat : ℤ) ≤ MAX_SAFE_INTEGER) ∧ (m.lamport.toNat : ℤ) ≤ MAX_SAFE_INTEGER

def OperationOk (op : Proto.Operation) : Prop :=
  ∃ m ∈ op.metadata, MetadataOk m ∧ ∃ kind ∈ op.kind, KindOk m.knownState kind

def PayloadOk : Proto.SyncMessagePayload → Prop
  | .hello value => ∀ spec ∈ value.filters, FilterOk spec.filter
  | .opsBatch value => ∀ op ∈ value.ops, OperationOk op
  | .subscribe value => FilterOk value.filter
  | _ => True

/-- A message as the protocol has it. -/
def WellFormed (msg : Proto.SyncMessage) : Prop :=
  msg.v = 0 ∧ ∃ payload ∈ msg.payload, PayloadOk payload

theorem nodeIdFromBytes16_isOk {bytes : Bytes} :
    (nodeIdFromBytes16 bytes).isOk ↔ bytes.length = 16 := by
  unfold nodeIdFromBytes16
  split <;> simp_all

theorem fromProtoFilter_isOk {filter : Proto.Filter} :
    (fromProtoFilter filter).isOk ↔ FilterOk (some filter) := by
  obtain ⟨_ | _ | _ | parent⟩ := filter <;> simp [fromProtoFilter, FilterOk]

theorem mapM_isOk {α β : Type} {f : α → Except String β} {l : List α} :
    (l.mapM f).isOk ↔ ∀ a ∈ l, (f a).isOk := by
  simp only [except_isOk_iff, except_mapM_ok_iff]

/-- A node id that is read, with the rest of its operation. -/
theorem nodeId_bind_isOk {β : Type} {bytes : Bytes} {f : Interface.NodeId → Except String β}
    {p : Prop} (h : ∀ node, (f node).isOk ↔ p) :
    (nodeIdFromBytes16 bytes >>= f).isOk ↔ bytes.length = 16 ∧ p := by
  rw [except_bind_isOk, ← nodeIdFromBytes16_isOk, except_isOk_iff]
  simp only [h, exists_and_right]

theorem fromProtoOperationKind_isOk {knownState : Bytes} {kind : Proto.OperationKind} :
    (fromProtoOperationKind knownState (some kind)).isOk ↔ KindOk knownState kind := by
  have hret : ∀ {f : Interface.NodeId → Interface.OperationKind} {bytes : Bytes},
      (do return f (← nodeIdFromBytes16 bytes) : Except String _).isOk ↔ bytes.length = 16 :=
    (nodeId_bind_isOk fun _ => iff_true_intro rfl).trans (and_iff_left trivial)
  cases kind with
  | insert parent node orderKey payload =>
    cases parent <;> cases node <;> simp [fromProtoOperationKind, KindOk, NodeOk]
    exact nodeId_bind_isOk fun _ => hret
  | move node newParent orderKey =>
    cases node <;> cases newParent <;> simp [fromProtoOperationKind, KindOk, NodeOk]
    exact nodeId_bind_isOk fun _ => hret
  | delete node =>
    cases node with
    | none => simp [fromProtoOperationKind, KindOk, NodeOk]
    | some node =>
      have hcheck : (throwIf (knownState.isEmpty = true) "DeleteOp missing knownState").isOk ↔
          knownState ≠ [] := by
        rw [throwIf_isOk, List.isEmpty_iff]
      simp only [fromProtoOperationKind, KindOk, NodeOk, Option.mem_def, Option.some.injEq,
        exists_eq_left', except_bind_isOk (x := throwIf _ _), hret]
      rw [← hcheck, except_isOk_iff]
      simp only [exists_and_right]
      exact and_comm
  | tombstone node =>
    cases node <;> simp [fromProtoOperationKind, KindOk, NodeOk]
    exact hret
  | payload node value =>
    rcases node with _ | node <;> rcases value with _ | _ | bytes <;>
      simp [fromProtoOperationKind, KindOk, NodeOk]
    · exact hret
    · exact hret

theorem u64ToNumber_isOk {v : UInt64} {field : String} :
    (u64ToNumber v field).isOk ↔ (v.toNat : ℤ) ≤ MAX_SAFE_INTEGER := by
  unfold u64ToNumber
  split <;> simp_all

theorem replicaIdFromBytes_isOk {bytes : Bytes} :
    (replicaIdFromBytes bytes).isOk ↔ bytes.length = 32 := by
  unfold replicaIdFromBytes replicaIdToBytes ED25519_PUBLIC_KEY_LEN
  split <;> simp_all

/-- What is read first, with the rest behind it. -/
theorem bind_isOk_of_const {ε α β : Type} {x : Except ε α} {f : α → Except ε β} {p : Prop}
    (h : ∀ a, (f a).isOk ↔ p) : (x >>= f).isOk ↔ x.isOk ∧ p := by
  rw [except_bind_isOk, except_isOk_iff]
  simp only [h, exists_and_right]

theorem fromProtoOperation_isOk {op : Proto.Operation} :
    (fromProtoOperation op).isOk ↔ OperationOk op := by
  obtain ⟨_ | ⟨_ | ⟨_ | replica, counter⟩, lamport, knownState⟩, kind⟩ := op
  · simp [fromProtoOperation, OperationOk]
  · simp [fromProtoOperation, OperationOk, MetadataOk]
  · simp [fromProtoOperation, OperationOk, MetadataOk]
  · have hsteps : (fromProtoOperation ⟨some ⟨some ⟨some replica, counter⟩, lamport, knownState⟩,
        kind⟩).isOk ↔ (replicaIdFromBytes replica.bytes).isOk ∧
          (u64ToNumber counter "OperationId.counter").isOk ∧
          (u64ToNumber lamport "OperationMetadata.lamport").isOk ∧
          (fromProtoOperationKind knownState kind).isOk ∧ True :=
      bind_isOk_of_const fun _ => bind_isOk_of_const fun _ => bind_isOk_of_const fun _ =>
        bind_isOk_of_const fun _ => iff_true_intro rfl
    rw [hsteps, replicaIdFromBytes_isOk, u64ToNumber_isOk, u64ToNumber_isOk]
    cases kind with
    | none => simp [OperationOk, fromProtoOperationKind]
    | some kind => simp [OperationOk, MetadataOk, fromProtoOperationKind_isOk, and_assoc]

theorem fromProtoFilterSpec_isOk {spec : Proto.FilterSpec} :
    (fromProtoFilterSpec spec).isOk ↔ FilterOk spec.filter := by
  obtain ⟨id, _ | filter⟩ := spec
  · simp [fromProtoFilterSpec, FilterOk]
  · exact (bind_isOk_of_const fun _ => iff_true_intro rfl).trans
      ((and_iff_left trivial).trans fromProtoFilter_isOk)

theorem fromProtoSubscribe_isOk {sub : Proto.Subscribe} :
    (fromProtoSubscribe sub).isOk ↔ FilterOk sub.filter := by
  obtain ⟨id, _ | filter⟩ := sub
  · simp [fromProtoSubscribe, FilterOk]
  · exact (bind_isOk_of_const fun _ => iff_true_intro rfl).trans
      ((and_iff_left trivial).trans fromProtoFilter_isOk)

theorem fromProtoHello_isOk {hello : Proto.Hello} :
    (fromProtoHello hello).isOk ↔ ∀ spec ∈ hello.filters, FilterOk spec.filter := by
  refine (bind_isOk_of_const fun _ => iff_true_intro rfl).trans ((and_iff_left trivial).trans ?_)
  simp only [mapM_isOk, fromProtoFilterSpec_isOk]

theorem fromProtoOpsBatch_isOk {batch : Proto.OpsBatch} :
    (fromProtoOpsBatch batch).isOk ↔ ∀ op ∈ batch.ops, OperationOk op := by
  refine (bind_isOk_of_const fun _ => iff_true_intro rfl).trans ((and_iff_left trivial).trans ?_)
  simp only [mapM_isOk, fromProtoOperation_isOk]

/-- The messages that are accepted are the well-formed ones. -/
theorem fromProtoMessage_isOk {msg : Proto.SyncMessage} :
    (fromProtoMessage msg).isOk ↔ WellFormed msg := by
  obtain ⟨v, docId, payload⟩ := msg
  have hlast : ∀ {α : Type} {x : Except String α} {f : α → SyncMessagePayload},
      (x >>= fun a => (pure (f a) >>= fun payload =>
        pure ⟨docId, payload⟩ : Except String SyncMessage)).isOk ↔ x.isOk :=
    (bind_isOk_of_const fun _ => iff_true_intro rfl).trans (and_iff_left trivial)
  unfold fromProtoMessage WellFormed
  refine (bind_isOk_of_const fun _ => ?_).trans (and_congr_left' (throwIf_isOk.trans not_not))
  rcases payload with _ | payload
  · simp only [Option.not_mem_none, false_and, exists_false, iff_false]
    exact Bool.false_ne_true
  simp only [Option.mem_def, Option.some.injEq, exists_eq_left']
  cases payload with
  | hello value => exact hlast.trans fromProtoHello_isOk
  | opsBatch value => exact hlast.trans fromProtoOpsBatch_isOk
  | subscribe value => exact hlast.trans fromProtoSubscribe_isOk
  | _ => exact iff_of_true rfl trivial

/-- A frame is accepted that the runtime parses as a well-formed message. -/
theorem decodeTreecrdtSyncV0_isOk {fromBinary : Bytes → Except String Proto.SyncMessage}
    {bytes : Bytes} : (decodeTreecrdtSyncV0 fromBinary bytes).isOk ↔
      ∃ msg, fromBinary bytes = .ok msg ∧ WellFormed msg := by
  rw [decodeTreecrdtSyncV0, except_bind_isOk]
  simp only [fromProtoMessage_isOk]

end V0

namespace Server

open V0

variable {Id M : Type} [DecidableEq Id]

/-! ## The server -/

/-- No exception escapes, and every connection is as if it were alone. -/
def Contained (decode : Bytes → Except String M) (es : List (Id × Event)) : Prop :=
  (run decode es).uncaught = none ∧
    ∀ id, (run decode es).connections id = (run decode (es.filter (·.1 = id))).connections id

/-- Every frame that a peer listens to is a well-formed message. -/
def AllWellFormed (fromBinary : Bytes → Except String Proto.SyncMessage)
    (es : List (Id × Event)) : Prop :=
  EachBehind (fun before e => ∀ frame, e.2 = .message frame → Listening (own e.1 before) →
    ∃ msg, fromBinary (toUint8Array frame.data) = .ok msg ∧ WellFormed msg) es

/-- A step behind which the process goes on. -/
theorem State.step_none {decode : Bytes → Except String M} {s : State Id M} {e : Id × Event}
    (h : (s.step decode e).uncaught = none) :
    s.uncaught = none ∧ ∃ c, (s.connections e.1).step decode e.2 = .ok c ∧
      s.step decode e = { s with connections := Function.update s.connections e.1 c } := by
  unfold State.step at h ⊢
  cases hs : s.uncaught with
  | some message =>
    rw [hs] at h
    simp [hs] at h
  | none =>
    simp only [hs, Option.isSome_none, Bool.false_eq_true, if_false] at h ⊢
    cases hstep : (s.connections e.1).step decode e.2 with
    | error message =>
      rw [hstep] at h
      cases h
    | ok c => exact ⟨trivial, c, rfl, rfl⟩

/-- A process that goes on runs its connections side by side. -/
theorem run_alone {decode : Bytes → Except String M} {es : List (Id × Event)}
    (h : (run decode es).uncaught = none) (id : Id) :
    (run decode (es.filter (·.1 = id))).uncaught = none ∧
      (run decode es).connections id = (run decode (es.filter (·.1 = id))).connections id := by
  induction es using List.reverseRecOn with
  | nil => exact ⟨rfl, rfl⟩
  | append_singleton es e ih =>
    rw [run_concat] at h ⊢
    obtain ⟨hs, c, hstep, hnext⟩ := State.step_none h
    obtain ⟨halone, hsame⟩ := ih hs
    rw [List.filter_append, List.filter_singleton, hnext]
    by_cases hid : e.1 = id
    · subst hid
      rw [decide_eq_true rfl, cond_true, run_concat]
      have hstep' : ((run decode (es.filter (·.1 = e.1))).connections e.1).step decode e.2 =
          .ok c := by rw [← hsame, hstep]
      simp only [State.step, halone, hstep', Option.isSome_none, Bool.false_eq_true, if_false,
        Function.update_self, and_self]
    · rw [decide_eq_false hid, cond_false, List.append_nil]
      exact ⟨halone, (Function.update_of_ne (Ne.symm hid) _ _).trans hsame⟩

/-- **Malformed frames** are contained exactly as long as there are none. -/
theorem contained_iff (fromBinary : Bytes → Except String Proto.SyncMessage)
    (es : List (Id × Event)) :
    Contained (decodeTreecrdtSyncV0 fromBinary) es ↔ AllWellFormed fromBinary es := by
  have hdecodes : Decodes (decodeTreecrdtSyncV0 fromBinary) es ↔ AllWellFormed fromBinary es := by
    simp only [Decodes, AllWellFormed, decodeTreecrdtSyncV0_isOk]
  rw [← hdecodes, ← (follows_run _ es).uncaught]
  exact ⟨fun h => h.1, fun h => ⟨h, fun id => (run_alone h id).2⟩⟩

/-- The runtime reads an empty frame as a message without a payload. -/
theorem empty_frame_escapes :
    ¬ Contained (decodeTreecrdtSyncV0 fun _ => .ok ⟨0, "", none⟩)
      [(0, .docOpened), (1, .docOpened), (0, .message ⟨.buffer [], true⟩)] := by
  intro h
  have huncaught := h.1
  cases huncaught

end Server

end Sync

end Treecrdt
