import TreecrdtLean.Sync.Protobuf

/-!
# The protobuf codec gives a message back

Encoding a message and decoding it gives its canonical form (`decode_encode`): a node id comes back
in its 32 hexadecimal digits, and what may be absent is absent where it was empty.
-/

namespace Treecrdt

open Auth Interface

namespace Interface

/-! ## Node ids -/

/-- The characters of `bytesToHex`. -/
def hexChars (b : Bytes) : List Char :=
  b.flatMap fun byte => [Nat.digitChar (byte.toNat / 16), Nat.digitChar (byte.toNat % 16)]

theorem bytesToHex_toList (b : Bytes) : (bytesToHex b).toList = hexChars b := String.toList_ofList

/-- A hexadecimal digit in lower case. -/
def LowerHex (c : Char) : Prop := ∃ d < 16, c = Nat.digitChar d

theorem digit_facts : ∀ d < 16, hexDigit (Nat.digitChar d) = some d ∧
    isWhitespace (Nat.digitChar d) = false ∧ (Nat.digitChar d).toLower = Nat.digitChar d ∧
    Nat.digitChar d ≠ 'x' ∧ Nat.digitChar d ≠ 'X' := by
  decide

theorem lowerHex_of_mem {b : Bytes} {c : Char} (h : c ∈ hexChars b) : LowerHex c := by
  obtain ⟨byte, -, hc⟩ := List.mem_flatMap.mp h
  have hlt : byte.toNat < 256 := byte.toNat_lt
  simp only [List.mem_cons, List.not_mem_nil, or_false] at hc
  obtain rfl | rfl := hc
  · exact ⟨byte.toNat / 16, by omega, rfl⟩
  · exact ⟨byte.toNat % 16, by omega, rfl⟩

theorem hexPairs_hexChars (b : Bytes) : hexPairs (hexChars b) = b := by
  induction b with
  | nil => rfl
  | cons byte b ih =>
    have hlt : byte.toNat < 256 := byte.toNat_lt
    have hcons : hexChars (byte :: b) =
        Nat.digitChar (byte.toNat / 16) :: Nat.digitChar (byte.toNat % 16) :: hexChars b := rfl
    rw [hcons, hexPairs, ih, (digit_facts (byte.toNat / 16) (by omega)).1,
      (digit_facts (byte.toNat % 16) (by omega)).1, Option.getD_some, Option.getD_some,
      Nat.div_add_mod]
    simp

section

variable {l : List Char}

theorem trim_lowerHex (h : ∀ c ∈ l, LowerHex c) : trim l = l := by
  have hdrop : ∀ l : List Char, (∀ c ∈ l, LowerHex c) → l.dropWhile isWhitespace = l := by
    intro l h
    cases l with
    | nil => rfl
    | cons c l =>
      obtain ⟨d, hd, rfl⟩ := h c List.mem_cons_self
      exact List.dropWhile_cons_of_neg (by simp [(digit_facts d hd).2.1])
  rw [trim, hdrop l h, hdrop l.reverse fun c hc => h c (List.mem_reverse.mp hc), List.reverse_reverse]

theorem stripHexPrefix_lowerHex (h : ∀ c ∈ l, LowerHex c) : stripHexPrefix l = l := by
  unfold stripHexPrefix
  split
  · obtain ⟨d, hd, hx⟩ := h 'x' (by simp)
    exact ((digit_facts d hd).2.2.2.1 hx.symm).elim
  · obtain ⟨d, hd, hx⟩ := h 'X' (by simp)
    exact ((digit_facts d hd).2.2.2.2 hx.symm).elim
  · rfl

theorem isHex_lowerHex (h : ∀ c ∈ l, LowerHex c) : isHex l := by
  refine List.all_eq_true.mpr fun c hc => ?_
  obtain ⟨d, hd, rfl⟩ := h c hc
  rw [(digit_facts d hd).1]
  rfl

/-- A node id of 32 digits in lower case is its own normal form. -/
theorem normalizeNodeId_lowerHex (h : ∀ c ∈ l, LowerHex c) (hlen : l.length = 32) :
    normalizeNodeId (String.ofList l) = .ok l := by
  have hlower : l.map Char.toLower = l := by
    refine (List.map_congr_left fun c hc => ?_).trans (List.map_id l)
    obtain ⟨d, hd, rfl⟩ := h c hc
    exact (digit_facts d hd).2.2.1
  simp only [normalizeNodeId, String.toList_ofList, trim_lowerHex h, stripHexPrefix_lowerHex h,
    hlen, isHex_lowerHex h, hlower]
  rfl

end

theorem hexChars_length (b : Bytes) : (hexChars b).length = 2 * b.length := by
  induction b with
  | nil => rfl
  | cons byte b ih =>
    rw [show hexChars (byte :: b) = _ :: _ :: hexChars b from rfl, List.length_cons,
      List.length_cons, ih, List.length_cons]
    omega

/-- The digits of 16 bytes are read as these bytes. -/
theorem nodeIdToBytes16_bytesToHex {b : Bytes} (h : b.length = 16) :
    nodeIdToBytes16 (bytesToHex b) = .ok b := by
  have hchars : ∀ c ∈ hexChars b, LowerHex c := fun c => lowerHex_of_mem
  have hlen : (hexChars b).length = 32 := by rw [hexChars_length, h]
  have hbytes : hexToBytes (hexChars b) = .ok b := by
    simp only [hexToBytes, stripHexPrefix_lowerHex hchars, trim_lowerHex hchars, hlen,
      isHex_lowerHex hchars, hexPairs_hexChars]
    rfl
  rw [show bytesToHex b = String.ofList (hexChars b) from rfl]
  unfold nodeIdToBytes16
  rw [normalizeNodeId_lowerHex hchars hlen]
  simp only [bind, Except.bind, hbytes, h]
  rfl

theorem hexChars_hexPairs {k : ℕ} {l : List Char} (h : ∀ c ∈ l, LowerHex c)
    (hlen : l.length = 2 * k) : hexChars (hexPairs l) = l ∧ (hexPairs l).length = k := by
  induction k generalizing l with
  | zero =>
    obtain rfl := List.length_eq_zero_iff.mp hlen
    exact ⟨rfl, rfl⟩
  | succ k ih =>
    obtain ⟨hi, lo, rest, rfl⟩ : ∃ hi lo rest, l = hi :: lo :: rest := by
      match l, hlen with
      | hi :: lo :: rest, _ => exact ⟨hi, lo, rest, rfl⟩
    obtain ⟨hrest, hcount⟩ := ih (l := rest)
      (fun c hc => h c (List.mem_cons_of_mem _ (List.mem_cons_of_mem _ hc)))
      (by simp only [List.length_cons] at hlen; omega)
    obtain ⟨d, hd, rfl⟩ := h hi (by simp)
    obtain ⟨e, he, rfl⟩ := h lo (by simp)
    rw [hexPairs, (digit_facts d hd).1, (digit_facts e he).1, Option.getD_some, Option.getD_some]
    have hbyte : (UInt8.ofNat (16 * d + e)).toNat = 16 * d + e := by
      rw [UInt8.toNat_ofNat']
      omega
    refine ⟨?_, by rw [List.length_cons, hcount]⟩
    rw [show hexChars (UInt8.ofNat (16 * d + e) :: hexPairs rest) = _ :: _ ::
      hexChars (hexPairs rest) from rfl, hrest, hbyte]
    congr 2
    · omega
    · congr 2
      omega

/-- The spelling in which a node id comes back. -/
def canonicalNodeId (node : Interface.NodeId) : Interface.NodeId :=
  match nodeIdToBytes16 node with
  | .ok bytes => bytesToHex bytes
  | .error _ => node

/-- It is a spelling of the same id. -/
theorem nodeIdToBytes16_canonical (node : Interface.NodeId) :
    nodeIdToBytes16 (canonicalNodeId node) = nodeIdToBytes16 node := by
  unfold canonicalNodeId
  cases h : nodeIdToBytes16 node with
  | error message => exact h
  | ok b => exact nodeIdToBytes16_bytesToHex (nodeIdToBytes16_length h)

/-- An id of 32 digits in lower case is spelled that way. -/
theorem canonicalNodeId_lowerHex {l : List Char} (h : ∀ c ∈ l, LowerHex c) (hlen : l.length = 32) :
    canonicalNodeId (String.ofList l) = String.ofList l := by
  obtain ⟨hchars, hcount⟩ := hexChars_hexPairs (k := 16) h hlen
  have hbytes : hexToBytes l = .ok (hexPairs l) := by
    simp only [hexToBytes, stripHexPrefix_lowerHex h, trim_lowerHex h, hlen, isHex_lowerHex h]
    rfl
  have hread : nodeIdToBytes16 (String.ofList l) = .ok (hexPairs l) := by
    unfold nodeIdToBytes16
    rw [normalizeNodeId_lowerHex h hlen]
    simp only [bind, Except.bind, hbytes, hcount]
    rfl
  rw [canonicalNodeId, hread]
  exact congrArg String.ofList hchars

end Interface

namespace Sync

namespace V0

/-! ## The canonical form -/

/-- An empty text that may be absent is absent. -/
def absentText (text : Option String) : Option String := text.filter (· ≠ "")

/-- So is an empty byte string. -/
def absentBytes (bytes : Option Bytes) : Option Bytes := bytes.filter (!·.isEmpty)

def canonicalKind : Interface.OperationKind → Interface.OperationKind
  | .insert parent node orderKey payload =>
    .insert (canonicalNodeId parent) (canonicalNodeId node) orderKey payload
  | .move node newParent orderKey =>
    .move (canonicalNodeId node) (canonicalNodeId newParent) orderKey
  | .delete node => .delete (canonicalNodeId node)
  | .tombstone node => .tombstone (canonicalNodeId node)
  | .payload node payload => .payload (canonicalNodeId node) payload

def canonicalOperation (op : Interface.Operation) : Interface.Operation :=
  ⟨{ op.metadata with knownState := absentBytes op.metadata.knownState }, canonicalKind op.kind⟩

def canonicalOpAuth (auth : OpAuth) : OpAuth := { auth with proofRef := absentBytes auth.proofRef }

def canonicalOpsBatch (batch : OpsBatch) : OpsBatch :=
  { batch with
    ops := batch.ops.map canonicalOperation
    auth := (batch.auth.filter (!·.isEmpty)).map (·.map canonicalOpAuth) }

def canonicalRejectedFilter (rej : RejectedFilter) : RejectedFilter :=
  { rej with message := absentText rej.message }

def canonicalRibltStatus (status : RibltStatus) : RibltStatus :=
  { status with payload := match status.payload with
    | .failed value => .failed { value with message := absentText value.message }
    | payload => payload }

def canonicalPayload : SyncMessagePayload → SyncMessagePayload
  | .helloAck value =>
    .helloAck { value with rejectedFilters := value.rejectedFilters.map canonicalRejectedFilter }
  | .ribltStatus value => .ribltStatus (canonicalRibltStatus value)
  | .opsBatch value => .opsBatch (canonicalOpsBatch value)
  | .error value =>
    .error { value with
      filterId := absentText value.filterId, subscriptionId := absentText value.subscriptionId }
  | payload => payload

/-- The message with the node ids in their canonical spelling, and nothing empty that may be
absent. -/
def canonical (msg : SyncMessage) : SyncMessage :=
  { msg with payload := canonicalPayload msg.payload }

/-! ## What can be encoded -/

/-- The node ids of an operation. -/
def nodeIds : Interface.OperationKind → List Interface.NodeId
  | .insert parent node _ _ => [parent, node]
  | .move node newParent _ => [node, newParent]
  | .delete node => [node]
  | .tombstone node => [node]
  | .payload node _ => [node]

/-- A safe integer that is not negative. -/
def Safe (v : ℤ) : Prop := 0 ≤ v ∧ v ≤ MAX_SAFE_INTEGER

structure EncodableOperation (op : Interface.Operation) : Prop where
  replica : op.metadata.id.replica.length = 32
  counter : Safe op.metadata.id.counter
  lamport : Safe op.metadata.lamport
  nodes : ∀ node ∈ nodeIds op.kind, ∃ b, nodeIdToBytes16 node = .ok b
  knownState : isDelete op.kind → absentBytes op.metadata.knownState ≠ none

/-- The operations of the message, if it has some, can be encoded. -/
def Encodable (msg : SyncMessage) : Prop :=
  ∀ batch, msg.payload = .opsBatch batch → ∀ op ∈ batch.ops, EncodableOperation op

/-! ## There and back -/

theorem textOf_getD (text : Option String) : textOf (text.getD "") = absentText text := by
  cases text with
  | none => rfl
  | some t =>
    have hlen : t.length > 0 ↔ t ≠ "" := by
      rw [gt_iff_lt, Nat.pos_iff_ne_zero, ne_eq, String.length_eq_zero_iff]
    by_cases ht : t = ""
    · subst ht
      rfl
    · rw [Option.getD_some, textOf, if_pos (hlen.mpr ht), absentText, Option.filter_some,
        decide_eq_true ht]
      rfl

theorem bytesOf_getD (bytes : Option Bytes) :
    (if (bytes.getD []).isEmpty then none else some (bytes.getD [])) = absentBytes bytes := by
  cases bytes with
  | none => rfl
  | some b => cases b <;> rfl

theorem fromProtoFilter_toProto (filter : Filter) :
    fromProtoFilter (toProtoFilter filter) = .ok filter := by
  cases filter <;> rfl

theorem u64_roundTrip {v : ℤ} (h : Safe v) (field : String) :
    ∃ n, u64FromNumber v field = .ok n ∧ u64ToNumber n field = .ok v := by
  obtain ⟨h0, hmax⟩ := h
  have hlt : v.toNat < 2 ^ 64 := by
    unfold MAX_SAFE_INTEGER at hmax
    omega
  refine ⟨UInt64.ofNat v.toNat, if_neg (by omega), ?_⟩
  have hn : ((UInt64.ofNat v.toNat).toNat : ℤ) = v := by
    rw [UInt64.toNat_ofNat_of_lt' hlt]
    omega
  rw [u64ToNumber, if_neg (by omega), hn]

theorem nodeId_roundTrip {node : Interface.NodeId} (h : ∃ b, nodeIdToBytes16 node = .ok b) :
    ∃ b, toProtoNodeId node = .ok (some ⟨b⟩) ∧ nodeIdFromBytes16 b = .ok (canonicalNodeId node) := by
  obtain ⟨b, hb⟩ := h
  refine ⟨b, by rw [toProtoNodeId, hb]; rfl, ?_⟩
  rw [nodeIdFromBytes16, if_neg (not_not.mpr (nodeIdToBytes16_length hb)), canonicalNodeId, hb]

theorem kind_roundTrip {kind : Interface.OperationKind} {knownState : Bytes}
    (h : ∀ node ∈ nodeIds kind, ∃ b, nodeIdToBytes16 node = .ok b)
    (hknown : isDelete kind → knownState ≠ []) :
    ∃ p, toProtoOperationKind kind = .ok p ∧
      fromProtoOperationKind knownState (some p) = .ok (canonicalKind kind) := by
  cases kind with
  | insert parent node orderKey payload =>
    obtain ⟨b, hb, hb'⟩ := nodeId_roundTrip (h parent (by simp [nodeIds]))
    obtain ⟨c, hc, hc'⟩ := nodeId_roundTrip (h node (by simp [nodeIds]))
    exact ⟨.insert (some ⟨b⟩) (some ⟨c⟩) orderKey payload,
      by simp only [toProtoOperationKind, hb, hc]; rfl,
      by simp only [fromProtoOperationKind, hb', hc']; rfl⟩
  | move node newParent orderKey =>
    obtain ⟨b, hb, hb'⟩ := nodeId_roundTrip (h node (by simp [nodeIds]))
    obtain ⟨c, hc, hc'⟩ := nodeId_roundTrip (h newParent (by simp [nodeIds]))
    exact ⟨.move (some ⟨b⟩) (some ⟨c⟩) orderKey, by simp only [toProtoOperationKind, hb, hc]; rfl,
      by simp only [fromProtoOperationKind, hb', hc']; rfl⟩
  | delete node =>
    obtain ⟨b, hb, hb'⟩ := nodeId_roundTrip (h node (by simp [nodeIds]))
    have hempty : ¬ knownState.isEmpty := fun he => hknown rfl (List.isEmpty_iff.mp he)
    refine ⟨.delete (some ⟨b⟩), by simp only [toProtoOperationKind, hb]; rfl, ?_⟩
    simp only [fromProtoOperationKind, hb', throwIf_of_not _ hempty]
    rfl
  | tombstone node =>
    obtain ⟨b, hb, hb'⟩ := nodeId_roundTrip (h node (by simp [nodeIds]))
    exact ⟨.tombstone (some ⟨b⟩), by simp only [toProtoOperationKind, hb]; rfl,
      by simp only [fromProtoOperationKind, hb']; rfl⟩
  | payload node payload =>
    obtain ⟨b, hb, hb'⟩ := nodeId_roundTrip (h node (by simp [nodeIds]))
    refine ⟨.payload (some ⟨b⟩) (some (payload.elim .clear .payload)),
      by simp only [toProtoOperationKind, hb]; rfl, ?_⟩
    cases payload <;> simp only [Option.elim, fromProtoOperationKind, hb'] <;> rfl

theorem operation_roundTrip {op : Interface.Operation} (h : EncodableOperation op) :
    ∃ p, toProtoOperation op = .ok p ∧ fromProtoOperation p = .ok (canonicalOperation op) := by
  obtain ⟨n, hn, hn'⟩ := u64_roundTrip h.counter "OperationId.counter"
  obtain ⟨l, hl, hl'⟩ := u64_roundTrip h.lamport "OperationMetadata.lamport"
  have hreplica : replicaIdToBytes op.metadata.id.replica = .ok op.metadata.id.replica :=
    if_neg (not_not.mpr h.replica)
  have hknown : isDelete op.kind → op.metadata.knownState.getD [] ≠ [] := fun hd he => by
    refine h.knownState hd ?_
    rw [← bytesOf_getD, he]
    rfl
  obtain ⟨kind, hk, hk'⟩ := kind_roundTrip h.nodes hknown
  have hcheck : ¬ (isDelete op.kind ∧ (op.metadata.knownState.getD []).isEmpty) := fun ⟨hd, he⟩ =>
    hknown hd (List.isEmpty_iff.mp he)
  refine ⟨⟨some ⟨some ⟨some ⟨op.metadata.id.replica⟩, n⟩, l, op.metadata.knownState.getD []⟩,
    some kind⟩, ?_, ?_⟩
  · simp only [toProtoOperation, throwIf_of_not _ hcheck, hreplica, hn, hl, hk]
    rfl
  · simp only [fromProtoOperation, replicaIdFromBytes, hreplica, hn', hl', hk', bytesOf_getD]
    rfl

theorem opAuth_roundTrip (auth : OpAuth) :
    fromProtoOpAuth (toProtoOpAuth auth) = canonicalOpAuth auth := by
  rw [toProtoOpAuth, fromProtoOpAuth, bytesOf_getD]
  rfl

theorem opsBatch_roundTrip {batch : OpsBatch} (h : ∀ op ∈ batch.ops, EncodableOperation op) :
    ∃ p, toProtoOpsBatch batch = .ok p ∧ fromProtoOpsBatch p = .ok (canonicalOpsBatch batch) := by
  obtain ⟨ps, hto, hfrom⟩ := except_mapM_inverse fun op hop => operation_roundTrip (h op hop)
  refine ⟨⟨batch.filterId, ps, (batch.auth.getD []).map toProtoOpAuth, batch.done⟩, ?_, ?_⟩
  · simp only [toProtoOpsBatch, hto]
    rfl
  have hauth : (if ((batch.auth.getD []).map toProtoOpAuth).isEmpty then none
      else some (((batch.auth.getD []).map toProtoOpAuth).map fromProtoOpAuth)) =
      (canonicalOpsBatch batch).auth := by
    rw [List.map_map, show fromProtoOpAuth ∘ toProtoOpAuth = canonicalOpAuth from
      funext opAuth_roundTrip]
    rcases hb : batch.auth with _ | _ | ⟨auth, auths⟩ <;> simp [canonicalOpsBatch, hb]
  simp only [fromProtoOpsBatch, hfrom, hauth]
  rfl

theorem filterSpecs_roundTrip (specs : List FilterSpec) :
    (specs.map fun spec => (⟨spec.id, some (toProtoFilter spec.filter)⟩ : Proto.FilterSpec)).mapM
      fromProtoFilterSpec = .ok specs := by
  induction specs with
  | nil => rfl
  | cons spec specs ih =>
    rw [List.map_cons, List.mapM_cons, ih]
    simp only [fromProtoFilterSpec, fromProtoFilter_toProto]
    rfl

theorem hello_roundTrip (hello : Hello) : fromProtoHello (toProtoHello hello) = .ok hello := by
  simp only [fromProtoHello, toProtoHello, filterSpecs_roundTrip]
  rfl

theorem helloAck_roundTrip (ack : HelloAck) :
    fromProtoHelloAck (toProtoHelloAck ack) =
      { ack with rejectedFilters := ack.rejectedFilters.map canonicalRejectedFilter } := by
  simp only [toProtoHelloAck, fromProtoHelloAck, List.map_map]
  congr 1
  refine List.map_congr_left fun rej _ => ?_
  simp only [Function.comp_apply, textOf_getD]
  rfl

theorem ribltStatus_roundTrip (status : RibltStatus) :
    fromProtoRibltStatus (toProtoRibltStatus status) = canonicalRibltStatus status := by
  obtain ⟨filterId, round, payload⟩ := status
  have hrefs : ∀ refs : List Bytes, (refs.map toProtoOpRef).map fromProtoOpRef = refs := fun refs => by
    rw [List.map_map]
    exact List.map_id refs
  cases payload with
  | more value => rfl
  | decoded value =>
    simp only [toProtoRibltStatus, fromProtoRibltStatus, hrefs]
    rfl
  | failed value =>
    simp only [toProtoRibltStatus, fromProtoRibltStatus, textOf_getD]
    rfl

/-- The message of an encodable one is read back. -/
theorem message_roundTrip {msg : SyncMessage} (h : Encodable msg) :
    ∃ p, toProtoMessage msg = .ok p ∧ fromProtoMessage p = .ok (canonical msg) := by
  obtain ⟨docId, payload⟩ := msg
  cases payload with
  | hello value =>
    refine ⟨_, rfl, ?_⟩
    simp only [fromProtoMessage, hello_roundTrip]
    rfl
  | helloAck value =>
    refine ⟨_, rfl, ?_⟩
    simp only [fromProtoMessage, helloAck_roundTrip]
    rfl
  | ribltCodewords value => exact ⟨_, rfl, rfl⟩
  | ribltStatus value =>
    refine ⟨_, rfl, ?_⟩
    simp only [fromProtoMessage, ribltStatus_roundTrip]
    rfl
  | opsBatch value =>
    obtain ⟨p, hp, hp'⟩ := opsBatch_roundTrip fun op hop => h value rfl op hop
    refine ⟨⟨0, docId, some (.opsBatch p)⟩, ?_, ?_⟩
    · simp only [toProtoMessage, hp]
      rfl
    · simp only [fromProtoMessage, hp']
      rfl
  | subscribe value =>
    refine ⟨_, rfl, ?_⟩
    simp only [fromProtoMessage, toProtoSubscribe, fromProtoSubscribe, fromProtoFilter_toProto]
    rfl
  | subscribeAck value => exact ⟨_, rfl, rfl⟩
  | unsubscribe value => exact ⟨_, rfl, rfl⟩
  | error value =>
    refine ⟨_, rfl, ?_⟩
    simp only [fromProtoMessage, toProtoSyncError, fromProtoSyncError, textOf_getD]
    rfl

/-- **The codec gives a message back**, in its canonical form, where the runtime gives its protobuf
message back. -/
theorem decode_encode {toBinary : Proto.SyncMessage → Bytes}
    {fromBinary : Bytes → Except String Proto.SyncMessage} {msg : SyncMessage} (h : Encodable msg)
    (inverts : ∀ p, toProtoMessage msg = .ok p → fromBinary (toBinary p) = .ok p) :
    ∃ bytes, encodeTreecrdtSyncV0 toBinary msg = .ok bytes ∧
      decodeTreecrdtSyncV0 fromBinary bytes = .ok (canonical msg) := by
  obtain ⟨p, hto, hfrom⟩ := message_roundTrip h
  refine ⟨toBinary p, by rw [encodeTreecrdtSyncV0, hto]; rfl, ?_⟩
  rw [decodeTreecrdtSyncV0, inverts p hto]
  exact hfrom

/-- A delete, with what it was aware of. -/
def sampleDelete : Interface.Operation :=
  ⟨⟨⟨List.replicate 32 1, 7⟩, 9, some [3]⟩, .delete "5"⟩

/-- A batch that names a node in decimal. -/
def sampleBatch : SyncMessage := ⟨"d", .opsBatch ⟨"f", [sampleDelete], none, true⟩⟩

def sampleProto : Proto.SyncMessage :=
  ⟨0, "d", some (.opsBatch ⟨"f", [⟨some ⟨some ⟨some ⟨List.replicate 32 1⟩, 7⟩, 9, [3]⟩,
    some (.delete (some ⟨List.replicate 15 0 ++ [5]⟩))⟩], [], true⟩)⟩

theorem sampleBatch_toProto : toProtoMessage sampleBatch = .ok sampleProto := by
  have hnode : nodeIdToBytes16 "5" = .ok (List.replicate 15 0 ++ [5]) := by decide +kernel
  simp only [toProtoMessage, sampleBatch, toProtoOpsBatch, List.mapM_cons, List.mapM_nil,
    toProtoOperation, sampleDelete, toProtoOperationKind, toProtoNodeId, hnode]
  rfl

theorem sampleBatch_encodable : Encodable sampleBatch := by
  intro batch hbatch op hop
  cases hbatch
  cases hop with
  | head => exact ⟨rfl, ⟨by decide, by decide⟩, ⟨by decide, by decide⟩, fun node hnode => by
      rw [List.mem_singleton.mp hnode]
      exact ⟨List.replicate 15 0 ++ [5], by decide +kernel⟩, fun _ => by decide⟩
  | tail _ hop => cases hop

/-- Its bytes on the wire. -/
def sampleWire : Bytes :=
  [0x12, 1, 0x64, 0x72, 0x4c, 0x0a, 1, 0x66, 0x12, 0x45, 0x0a, 0x2d, 0x0a, 0x26, 0x0a, 0x22, 0x0a,
    0x20] ++ List.replicate 32 1 ++ [0x10, 7, 0x10, 9, 0x1a, 1, 3, 0x22, 0x14, 0x0a, 0x12, 0x0a,
    0x10] ++ List.replicate 15 0 ++ [5, 0x18, 1]

theorem decode_encode_delete :
    ∃ bytes, encodeTreecrdtSyncV0 (fun _ => sampleWire) sampleBatch = .ok bytes ∧
      decodeTreecrdtSyncV0 (fun _ => .ok sampleProto) bytes = .ok (canonical sampleBatch) :=
  decode_encode sampleBatch_encodable fun p hp => by
    rw [sampleBatch_toProto] at hp
    exact hp

/-- The node comes back in another spelling. -/
theorem sampleBatch_respelled :
    ∃ bytes msg, Encodable sampleBatch ∧ toProtoMessage sampleBatch = .ok sampleProto ∧
      encodeTreecrdtSyncV0 (fun _ => sampleWire) sampleBatch = .ok bytes ∧
      decodeTreecrdtSyncV0 (fun _ => .ok sampleProto) bytes = .ok msg ∧ msg ≠ sampleBatch := by
  refine ⟨sampleWire, ⟨"d", .opsBatch ⟨"f", [{ sampleDelete with
    kind := .delete "00000000000000000000000000000005" }], none, true⟩⟩, sampleBatch_encodable,
    sampleBatch_toProto, ?_, by decide +kernel, by decide⟩
  rw [encodeTreecrdtSyncV0, sampleBatch_toProto]
  rfl

end V0

end Sync

end Treecrdt
