import TreecrdtLean.Store.Rows
import TreecrdtLean.Store.Hex

/-!
# Operations between WASM and JavaScript (`treecrdt-wasm`, `lib.rs`)

`opToJs` writes an operation as a record of hexadecimal texts, with the JSON of its known state
whatever its kind. `jsToOp` takes the known state of a delete alone: what comes back as it was are
the operations that have a known state exactly if they delete (`roundTrips_iff`), and a tombstone
loses it.
-/

namespace Treecrdt

namespace Wasm

open Interface

/-! ## Hexadecimal texts -/

/-- `trim_start_matches("0x")`. -/
def trimStartMatches : List Char → List Char
  | '0' :: 'x' :: rest => trimStartMatches rest
  | hex => hex

/-- `u8::from_str_radix(.., 16)` of two characters; a sign may stand in front. -/
def fromStrRadix (hi lo : Char) : Except String UInt8 :=
  match (if hi = '+' then some 0 else hexDigit hi), hexDigit lo with
  | some hi, some lo => .ok (UInt8.ofNat (16 * hi + lo))
  | _, _ => .error "invalid digit found in string"

def hexPairs : List Char → Except String Bytes
  | hi :: lo :: rest => do return (← fromStrRadix hi lo) :: (← hexPairs rest)
  | _ => return []

/-- `hex_to_bytes`. The slices are of bytes: one that cuts through a character panics, which is an
error here. -/
def hexToBytes (hex : List Char) : Except String Bytes :=
  let clean := trimStartMatches hex
  if (clean.map Char.utf8Size).sum % 2 ≠ 0 then .error "hex length must be even"
  else if clean.any fun c => c.toNat ≥ 128 then .error "invalid digit found in string"
  else hexPairs clean

def bytesToHex (bytes : Bytes) : List Char := hexChars bytes

def hexToNode (hex : List Char) : Except String NodeId := do
  let bytes ← hexToBytes hex
  if bytes.length > 16 then
    .error "node id longer than 16 bytes"
  else return nodeOfBytes (List.replicate (16 - bytes.length) 0 ++ bytes)

/-- `format!("{:032x}", id.0)`. -/
def nodeToHex (id : NodeId) : List Char := canonicalHex id.toNat

/-! ## Operations -/

structure JsOp where
  replica : List Char
  counter : UInt64
  lamport : Lamport
  kind : String
  parent : Option (List Char)
  node : List Char
  newParent : Option (List Char)
  orderKey : Option (List Char)
  knownState : Option Bytes
  payload : Option (List Char)
  deriving DecidableEq

def opToJs (json : Json) (op : Operation) : JsOp :=
  let js (kind : String) (parent : Option NodeId) (node : NodeId) (newParent : Option NodeId)
      (orderKey payload : Option (List Char)) : JsOp :=
    { replica := bytesToHex op.metadata.id.replica.bytes
      counter := op.metadata.id.counter
      lamport := op.metadata.lamport
      kind, parent := parent.map nodeToHex, node := nodeToHex node
      newParent := newParent.map nodeToHex, orderKey
      knownState := op.metadata.knownState.map json.toVec, payload }
  match op.kind with
  | .insert parent node orderKey payload =>
    js "insert" (some parent) node none (some (bytesToHex orderKey)) (payload.map bytesToHex)
  | .move node newParent orderKey =>
    js "move" none node (some newParent) (some (bytesToHex orderKey)) none
  | .delete node => js "delete" none node none none none
  | .tombstone node => js "tombstone" none node none none none
  | .payload node payload => js "payload" none node none none (payload.map bytesToHex)

/-- `value.as_deref().map(parse).transpose()?`. -/
def optional {α : Type} (parse : List Char → Except String α) :
    Option (List Char) → Except String (Option α)
  | some text => some <$> parse text
  | none => return none

def jsToOp (json : Json) (js : JsOp) : Except String Operation := do
  let replica : ReplicaId := ⟨← hexToBytes js.replica⟩
  match js.kind with
  | "insert" => do
    let parent := (← optional hexToNode js.parent).getD .ROOT
    let node ← hexToNode js.node
    let orderKey := (← optional hexToBytes js.orderKey).getD []
    match js.payload with
    | some payloadHex => do
      return .insertWithPayload replica js.counter js.lamport parent node orderKey
        (← hexToBytes payloadHex)
    | none => return .insert replica js.counter js.lamport parent node orderKey
  | "move" => do
    let orderKey := (← optional hexToBytes js.orderKey).getD []
    return .moveNode replica js.counter js.lamport (← hexToNode js.node)
      ((← optional hexToNode js.newParent).getD .ROOT) orderKey
  | "delete" =>
    match js.knownState with
    | none => throw "delete op missing known_state"
    | some bytes =>
      if bytes.isEmpty then throw "delete known_state must not be empty"
      else do
        let vv ← json.fromSlice bytes
        return .delete replica js.counter js.lamport (← hexToNode js.node) (some vv)
  | "tombstone" => do return .tombstone replica js.counter js.lamport (← hexToNode js.node)
  | "payload" => do
    return .payload replica js.counter js.lamport (← hexToNode js.node)
      (← optional hexToBytes js.payload)
  | _ => throw "unknown kind"

/-! ## Reading back -/

theorem trimStartMatches_lowerHex {l : List Char} (h : ∀ c ∈ l, LowerHex c) :
    trimStartMatches l = l := by
  unfold trimStartMatches
  split
  · obtain ⟨d, hd, hx⟩ := h 'x' (by simp)
    exact ((digit_facts d hd).2.2.2.1 hx.symm).elim
  · rfl

theorem digit_ascii : ∀ d < 16, (Nat.digitChar d).toNat < 128 ∧ Nat.digitChar d ≠ '+' ∧
    (Nat.digitChar d).utf8Size = 1 := by
  decide

theorem hexPairs_lowerHex {k : ℕ} {l : List Char} (h : ∀ c ∈ l, LowerHex c)
    (hlen : l.length = 2 * k) : hexPairs l = .ok (Interface.hexPairs l) := by
  induction k generalizing l with
  | zero =>
    obtain rfl := List.length_eq_zero_iff.mp hlen
    rfl
  | succ k ih =>
    obtain ⟨hi, lo, rest, rfl⟩ : ∃ hi lo rest, l = hi :: lo :: rest := by
      match l, hlen with
      | hi :: lo :: rest, _ => exact ⟨hi, lo, rest, rfl⟩
    obtain ⟨d, hd, rfl⟩ := h hi (by simp)
    obtain ⟨e, he, rfl⟩ := h lo (by simp)
    have hcount : rest.length = 2 * k := by simpa [Nat.mul_add] using hlen
    have hrest := ih (fun c hc => h c (by simp [hc])) hcount
    have hbyte : fromStrRadix (Nat.digitChar d) (Nat.digitChar e) =
        .ok (UInt8.ofNat (16 * d + e)) := by
      rw [fromStrRadix, if_neg (digit_ascii d hd).2.1, (digit_facts d hd).1, (digit_facts e he).1]
    rw [hexPairs, hbyte, hrest, Interface.hexPairs, (digit_facts d hd).1, (digit_facts e he).1]
    rfl

theorem hexToBytes_lowerHex {k : ℕ} {l : List Char} (h : ∀ c ∈ l, LowerHex c)
    (hlen : l.length = 2 * k) : hexToBytes l = .ok (Interface.hexPairs l) := by
  have hsize : (l.map Char.utf8Size).sum = l.length := by
    have hone : l.map Char.utf8Size = List.replicate l.length 1 := by
      refine List.eq_replicate_iff.mpr ⟨by simp, fun n hn => ?_⟩
      obtain ⟨c, hc, rfl⟩ := List.mem_map.mp hn
      obtain ⟨d, hd, rfl⟩ := h c hc
      exact (digit_ascii d hd).2.2
    simp [hone]
  have hascii : ¬ (l.any fun c => decide (c.toNat ≥ 128)) = true := by
    rw [List.any_eq_true]
    rintro ⟨c, hc, hge⟩
    obtain ⟨d, hd, rfl⟩ := h c hc
    have := (digit_ascii d hd).1
    have := of_decide_eq_true hge
    omega
  rw [hexToBytes, trimStartMatches_lowerHex h]
  simp only [hsize]
  rw [if_neg (by omega), if_neg hascii, hexPairs_lowerHex h hlen]

@[simp] theorem hexToBytes_bytesToHex (bytes : Bytes) :
    hexToBytes (bytesToHex bytes) = .ok bytes := by
  rw [bytesToHex, hexToBytes_lowerHex (fun _ => lowerHex_of_mem) (hexChars_length bytes),
    hexPairs_hexChars]

/-- 32 digits are read as the node that they are the number of. -/
theorem hexToNode_canonicalHex {n : ℕ} (h : n < 2 ^ 128) :
    hexToNode (canonicalHex n) = .ok ⟨BitVec.ofNat 128 n⟩ := by
  have hlen : (canonicalHex n).length = 2 * 16 := canonicalHex_length h
  have hchars := canonicalHex_lowerHex n
  have hbytes : (Interface.hexPairs (canonicalHex n)).length = 16 :=
    (hexChars_hexPairs hchars hlen).2
  rw [hexToNode, hexToBytes_lowerHex hchars hlen]
  simp only [bind, Except.bind, hbytes]
  rw [if_neg (by decide), Nat.sub_self, List.replicate_zero, List.nil_append, nodeOfBytes,
    beValue_hexPairs hchars hlen, numeral_canonicalHex]
  rfl

@[simp] theorem hexToNode_nodeToHex (id : NodeId) : hexToNode (nodeToHex id) = .ok id := by
  have hlt : id.toNat < 2 ^ 128 := id.val.isLt
  rw [nodeToHex, hexToNode_canonicalHex hlt, NodeId.toNat, BitVec.ofNat_toNat, BitVec.setWidth_eq]

/-! ## There and back -/

variable {json : Json} {op : Operation}

/-- What has a known state is what deletes. -/
def KnowsWhatDeletes (op : Operation) : Prop :=
  op.metadata.knownState.isSome ↔ ∃ node, op.kind = .delete node

/-- `jsToOp` gives back the operation that `opToJs` wrote. -/
def RoundTrips (json : Json) (op : Operation) : Prop :=
  ∃ back, jsToOp json (opToJs json op) = .ok back ∧ back.Same op

/-- A log that is exported (`opsSince`) and read again (`appendOp`) is as it was. -/
def Imports (json : Json) (log : List Operation) : Prop :=
  ∃ backs, (log.map (opToJs json)).mapM (jsToOp json) = .ok backs ∧
    List.Forall₂ Operation.Same backs log

/-- The known state of all that does not delete is lost. -/
theorem jsToOp_opToJs (h : ∀ node, op.kind ≠ .delete node) :
    jsToOp json (opToJs json op) =
      .ok { op with metadata := { op.metadata with knownState := none } } := by
  obtain ⟨⟨⟨replica, counter⟩, lamport, knownState⟩, kind⟩ := op
  cases kind with
  | insert parent node orderKey content =>
    cases content <;>
      simp [jsToOp, opToJs, optional, bind, Except.bind, pure, Except.pure, Operation.insert,
        Operation.insertWithPayload, Operation.insertWithOptionalPayload, Functor.map, Except.map]
  | move node newParent orderKey =>
    simp [jsToOp, opToJs, optional, bind, Except.bind, pure, Except.pure, Operation.moveNode,
      Functor.map, Except.map]
  | delete node => exact absurd rfl (h node)
  | tombstone node =>
    simp [jsToOp, opToJs, bind, Except.bind, pure, Except.pure, Operation.tombstone]
  | payload node content =>
    cases content <;>
      simp [jsToOp, opToJs, optional, bind, Except.bind, pure, Except.pure, Operation.payload,
        Functor.map, Except.map]

theorem jsToOp_delete_unknown {node : NodeId} (hkind : op.kind = .delete node)
    (hnone : op.metadata.knownState = none) :
    jsToOp json (opToJs json op) = .error "delete op missing known_state" := by
  simp [jsToOp, opToJs, hkind, hnone, bind, Except.bind, throw, throwThe, MonadExceptOf.throw]

/-- A delete keeps its known state. -/
theorem jsToOp_delete {node : NodeId} {vv : VersionVector} (hkind : op.kind = .delete node)
    (hsome : op.metadata.knownState = some vv) (htext : json.toVec vv ≠ []) :
    jsToOp json (opToJs json op) =
      (json.fromSlice (json.toVec vv)).map fun back =>
        .delete op.metadata.id.replica op.metadata.id.counter op.metadata.lamport node
          (some back) := by
  cases hread : json.fromSlice (json.toVec vv) <;>
    simp [jsToOp, opToJs, hkind, hsome, htext, hread, bind, Except.bind, pure, Except.pure,
      Except.map]

theorem roundTrips_iff_knows (hread : ∀ vv ∈ op.metadata.knownState, json.Reads vv) :
    RoundTrips json op ↔ KnowsWhatDeletes op := by
  by_cases hdelete : ∃ node, op.kind = .delete node
  · rw [RoundTrips, KnowsWhatDeletes, iff_true_right hdelete]
    obtain ⟨node, hkind⟩ := hdelete
    cases hks : op.metadata.knownState with
    | none =>
      rw [jsToOp_delete_unknown hkind hks]
      refine iff_of_false ?_ (by decide)
      rintro ⟨back, h, -⟩
      cases h
    | some vv =>
      obtain ⟨vv', hvv, hsame⟩ := (hread vv hks).fromSlice
      rw [jsToOp_delete hkind hks (hread vv hks).text, hvv]
      refine iff_of_true ⟨_, rfl, rfl, rfl, ?_, hkind.symm⟩ rfl
      rw [hks]
      exact .some hsame
  · have hkind : ∀ node, op.kind ≠ .delete node := fun node h => hdelete ⟨node, h⟩
    rw [RoundTrips, KnowsWhatDeletes, jsToOp_opToJs hkind, iff_false_right hdelete]
    constructor
    · rintro ⟨back, h, hsame⟩
      cases h
      have hks := hsame.knownState
      cases h : op.metadata.knownState with
      | none => decide
      | some vv =>
        rw [h] at hks
        cases hks
    · intro hnone
      rw [Option.not_isSome_iff_eq_none] at hnone
      refine ⟨_, rfl, rfl, rfl, ?_, rfl⟩
      rw [hnone]
      exact .none

theorem imports_iff {log : List Operation} :
    Imports json log ↔ ∀ op ∈ log, RoundTrips json op := by
  induction log with
  | nil => exact iff_of_true ⟨[], rfl, .nil⟩ nofun
  | cons op log ih =>
    rw [List.forall_mem_cons, ← ih]
    constructor
    · rintro ⟨backs, hmap, hall⟩
      obtain ⟨back, rest, rfl, hback, hrest⟩ := except_mapM_cons_ok hmap
      obtain ⟨hsame, hall⟩ := List.forall₂_cons.mp hall
      exact ⟨⟨back, hback, hsame⟩, rest, hrest, hall⟩
    · rintro ⟨⟨back, hback, hsame⟩, rest, hrest, hall⟩
      refine ⟨back :: rest, ?_, .cons hsame hall⟩
      rw [List.map_cons, List.mapM_cons, hback, hrest]
      rfl

/-- The operations that come back as they were are those that have a known state exactly if they
delete, and a log comes back as it was if all its operations do. -/
theorem roundTrips_iff (json : Json) (log : List Operation)
    (hread : ∀ op ∈ log, ∀ vv ∈ op.metadata.knownState, json.Reads vv) :
    (∀ op ∈ log, RoundTrips json op ↔ KnowsWhatDeletes op) ∧
      (Imports json log ↔ ∀ op ∈ log, KnowsWhatDeletes op) := by
  have hops : ∀ op ∈ log, (RoundTrips json op ↔ KnowsWhatDeletes op) := fun op hop =>
    roundTrips_iff_knows (hread op hop)
  exact ⟨hops, imports_iff.trans (forall₂_congr hops)⟩

theorem roundTrips_iff_unseen :
    Imports .ofNew [.delete ⟨[1]⟩ 1 1 ⟨7⟩ (some .new), .tombstone ⟨[1]⟩ 2 2 ⟨8⟩] := by
  refine (roundTrips_iff .ofNew _ ?_).2.mpr ?_
  · refine List.forall_mem_cons.mpr ⟨fun vv hvv => ?_, List.forall_mem_singleton.mpr nofun⟩
    rw [← Option.some.inj hvv]
    exact Json.ofNew_reads
  · refine List.forall_mem_cons.mpr ⟨iff_of_true rfl ⟨_, rfl⟩, List.forall_mem_singleton.mpr ?_⟩
    refine iff_of_false (by decide) ?_
    rintro ⟨node, h⟩
    cases h

def seenTombstone : Operation where
  metadata := { id := ⟨⟨[1]⟩, 1⟩, lamport := 1, knownState := some .new }
  kind := .tombstone ⟨7⟩

/-- A tombstone with a known state comes back without one. -/
theorem seenTombstone_not_roundTrips : ¬ ∀ op : Operation,
    (∀ vv ∈ op.metadata.knownState, Json.ofNew.Reads vv) →
    ((∃ node, op.kind = .delete node) → op.metadata.knownState.isSome) →
    op.KnowsIfDeletes → RoundTrips .ofNew op := by
  intro h
  have hread : ∀ vv ∈ seenTombstone.metadata.knownState, Json.ofNew.Reads vv := fun vv hvv => by
    rw [← Option.some.inj hvv]
    exact Json.ofNew_reads
  have hknows := (roundTrips_iff_knows hread).mp (h seenTombstone hread (fun _ => rfl) nofun)
  obtain ⟨node, hkind⟩ := hknows.mp rfl
  cases hkind

end Wasm

end Treecrdt
