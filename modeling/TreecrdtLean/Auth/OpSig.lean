import TreecrdtLean.Lib.Codec
import TreecrdtLean.Lib.Exec
import TreecrdtLean.Auth.Interface

/-!
# The bytes that an operation signature covers (`op-sig.ts`)

The document id, the operation id, the Lamport time, the kind and its fields, each of a fixed
length or behind its length. Whoever signs these bytes signs every one of these fields
(`encodeTreecrdtOpSigInputV1_inj`). `known_state` is not among them, as the field list of the
signature format has it.
-/

namespace Treecrdt

namespace Auth

open Interface

/-- `utf8ToBytes`. -/
def utf8ToBytes (s : String) : Bytes := s.toUTF8.data.toList

def OP_SIG_V1_DOMAIN : Bytes := utf8ToBytes "treecrdt/op-sig/v1"

def u32be (n : ℕ) : Except String Bytes :=
  if n > 0xffffffff then .error ("u32 out of range: " ++ toString n) else .ok (beBytes 4 n)

def u64be (v : ℤ) : Except String Bytes :=
  if v < 0 ∨ v > 0xffffffffffffffff then .error ("u64 out of range: " ++ toString v)
  else .ok (beBytes 8 v.toNat)

def kindTag : Interface.OperationKind → UInt8
  | .insert .. => 1
  | .move .. => 2
  | .delete .. => 3
  | .tombstone .. => 4
  | .payload .. => 5

def kindFields : Interface.OperationKind → Except String Bytes
  | .insert parent node orderKey payload => do
    let parent ← nodeIdToBytes16 parent
    let node ← nodeIdToBytes16 node
    let orderKeyLen ← u32be orderKey.length
    match payload with
    | some payload => do
      let payloadLen ← u32be payload.length
      return parent ++ (node ++ (orderKeyLen ++ (orderKey ++ ([1] ++ (payloadLen ++ payload)))))
    | none => return parent ++ (node ++ (orderKeyLen ++ (orderKey ++ [0])))
  | .move node newParent orderKey => do
    let node ← nodeIdToBytes16 node
    let newParent ← nodeIdToBytes16 newParent
    let orderKeyLen ← u32be orderKey.length
    return node ++ (newParent ++ (orderKeyLen ++ orderKey))
  | .delete node => nodeIdToBytes16 node
  | .tombstone node => nodeIdToBytes16 node
  | .payload node payload => do
    let node ← nodeIdToBytes16 node
    match payload with
    | none => return node ++ [0]
    | some payload => do
      let payloadLen ← u32be payload.length
      return node ++ ([1] ++ (payloadLen ++ payload))

def encodeTreecrdtOpSigInputV1 (docId : String) (op : Interface.Operation) :
    Except String Bytes := do
  let docIdBytes := utf8ToBytes docId
  let replicaBytes ← replicaIdToBytes op.metadata.id.replica
  let kindFields ← kindFields op.kind
  let docIdLen ← u32be docIdBytes.length
  let replicaLen ← u32be replicaBytes.length
  let counter ← u64be op.metadata.id.counter
  let lamport ← u64be op.metadata.lamport
  return OP_SIG_V1_DOMAIN ++ ([0] ++ (docIdLen ++ (docIdBytes ++ (replicaLen ++ (replicaBytes ++
    (counter ++ (lamport ++ ([kindTag op.kind] ++ kindFields))))))))

/-! ## Fields -/

theorem u32be_ok {n : ℕ} {b : Bytes} (h : u32be n = .ok b) : n < 256 ^ 4 ∧ b = beBytes 4 n := by
  unfold u32be at h
  split at h
  · cases h
  · cases h
    exact ⟨by omega, rfl⟩

theorem u64be_ok {v : ℤ} {b : Bytes} (h : u64be v = .ok b) :
    0 ≤ v ∧ v.toNat < 256 ^ 8 ∧ b = beBytes 8 v.toNat := by
  unfold u64be at h
  split at h
  · cases h
  · cases h
    exact ⟨by omega, by omega, rfl⟩

theorem nodeIdToBytes16_length {node : Interface.NodeId} {b : Bytes} (h : nodeIdToBytes16 node = .ok b) :
    b.length = 16 := by
  unfold nodeIdToBytes16 at h
  obtain ⟨hex, -, h⟩ := except_bind_ok h
  obtain ⟨bytes, -, h⟩ := except_bind_ok h
  split at h
  · cases h
  · rename_i hlen
    cases h
    exact not_not.mp hlen

theorem replicaIdToBytes_ok {replica b : Bytes} (h : replicaIdToBytes replica = .ok b) :
    b = replica ∧ replica.length = 32 := by
  unfold replicaIdToBytes at h
  split at h
  · cases h
  · rename_i hlen
    cases h
    exact ⟨rfl, not_not.mp hlen⟩

theorem utf8ToBytes_injective : Function.Injective utf8ToBytes := fun _ _ h =>
  String.toByteArray_inj.mp (ByteArray.ext (Array.toList_inj.mp h))

section

variable {b b' x y : Bytes}

/-- A node id is read back from the front. -/
theorem nodeId_append_inj {node node' : Interface.NodeId} (hb : nodeIdToBytes16 node = .ok b)
    (hb' : nodeIdToBytes16 node' = .ok b') (h : b ++ x = b' ++ y) :
    nodeIdToBytes16 node = nodeIdToBytes16 node' ∧ x = y := by
  obtain ⟨rfl, hxy⟩ := List.append_inj h
    ((nodeIdToBytes16_length hb).trans (nodeIdToBytes16_length hb').symm)
  exact ⟨hb.trans hb'.symm, hxy⟩

/-- So is a byte string behind its length. -/
theorem u32be_append_inj {s s' : Bytes} (hb : u32be s.length = .ok b)
    (hb' : u32be s'.length = .ok b') (h : b ++ (s ++ x) = b' ++ (s' ++ y)) : s = s' ∧ x = y := by
  obtain ⟨hs, rfl⟩ := u32be_ok hb
  obtain ⟨hs', rfl⟩ := u32be_ok hb'
  refine lengthPrefixed_append_inj hs hs' ?_
  rwa [lengthPrefixed, lengthPrefixed, List.append_assoc, List.append_assoc]

theorem u32be_inj {s s' : Bytes} (hb : u32be s.length = .ok b) (hb' : u32be s'.length = .ok b')
    (h : b ++ s = b' ++ s') : s = s' :=
  (u32be_append_inj (x := []) (y := []) hb hb' (by rw [List.append_nil, List.append_nil, h])).1

theorem u64be_append_inj {v v' : ℤ} (hb : u64be v = .ok b) (hb' : u64be v' = .ok b')
    (h : b ++ x = b' ++ y) : v = v' ∧ x = y := by
  obtain ⟨h0, hv, rfl⟩ := u64be_ok hb
  obtain ⟨h0', hv', rfl⟩ := u64be_ok hb'
  obtain ⟨he, hxy⟩ := beBytes_append_inj hv hv' h
  exact ⟨by omega, hxy⟩

end

/-! ## The signature input -/

/-- Two kinds agree in every field; node ids agree if they are spellings of the same 16 bytes. -/
def SameKind : Interface.OperationKind → Interface.OperationKind → Prop
  | .insert parent node key payload, .insert parent' node' key' payload' =>
    nodeIdToBytes16 parent = nodeIdToBytes16 parent' ∧
      nodeIdToBytes16 node = nodeIdToBytes16 node' ∧ key = key' ∧ payload = payload'
  | .move node newParent key, .move node' newParent' key' =>
    nodeIdToBytes16 node = nodeIdToBytes16 node' ∧
      nodeIdToBytes16 newParent = nodeIdToBytes16 newParent' ∧ key = key'
  | .delete node, .delete node' => nodeIdToBytes16 node = nodeIdToBytes16 node'
  | .tombstone node, .tombstone node' => nodeIdToBytes16 node = nodeIdToBytes16 node'
  | .payload node payload, .payload node' payload' =>
    nodeIdToBytes16 node = nodeIdToBytes16 node' ∧ payload = payload'
  | _, _ => False

/-- The bytes of an optional payload: a flag, and the payload behind its length. -/
def payloadFields : Option Bytes → Except String Bytes
  | none => .ok [0]
  | some payload => do
    let payloadLen ← u32be payload.length
    return [1] ++ (payloadLen ++ payload)

theorem payloadFields_inj {p p' : Option Bytes} {b : Bytes} (h : payloadFields p = .ok b)
    (h' : payloadFields p' = .ok b) : p = p' := by
  rcases p with _ | p <;> rcases p' with _ | p'
  · rfl
  · cases h
    obtain ⟨l', hl', h'⟩ := except_bind_ok h'
    cases h'
  · cases h'
    obtain ⟨l, hl, h⟩ := except_bind_ok h
    cases h
  · obtain ⟨l, hl, h⟩ := except_bind_ok h
    obtain ⟨l', hl', h'⟩ := except_bind_ok h'
    cases h
    injection h' with h'
    rw [u32be_inj hl hl' (List.append_cancel_left h').symm]

theorem kindFields_insert {parent node : Interface.NodeId} {key : Bytes} {payload : Option Bytes}
    {b : Bytes} (h : kindFields (.insert parent node key payload) = .ok b) :
    ∃ p n l q, nodeIdToBytes16 parent = .ok p ∧ nodeIdToBytes16 node = .ok n ∧
      u32be key.length = .ok l ∧ payloadFields payload = .ok q ∧
      b = p ++ (n ++ (l ++ (key ++ q))) := by
  obtain ⟨p, hp, h⟩ := except_bind_ok h
  obtain ⟨n, hn, h⟩ := except_bind_ok h
  obtain ⟨l, hl, h⟩ := except_bind_ok h
  rcases payload with _ | payload
  · cases h
    exact ⟨p, n, l, [0], hp, hn, hl, rfl, rfl⟩
  · obtain ⟨q, hq, h⟩ := except_bind_ok h
    cases h
    exact ⟨p, n, l, _, hp, hn, hl, by rw [payloadFields, hq]; rfl, rfl⟩

theorem kindFields_move {node newParent : Interface.NodeId} {key b : Bytes}
    (h : kindFields (.move node newParent key) = .ok b) :
    ∃ n p l, nodeIdToBytes16 node = .ok n ∧ nodeIdToBytes16 newParent = .ok p ∧
      u32be key.length = .ok l ∧ b = n ++ (p ++ (l ++ key)) := by
  obtain ⟨n, hn, h⟩ := except_bind_ok h
  obtain ⟨p, hp, h⟩ := except_bind_ok h
  obtain ⟨l, hl, h⟩ := except_bind_ok h
  cases h
  exact ⟨n, p, l, hn, hp, hl, rfl⟩

theorem kindFields_payload {node : Interface.NodeId} {payload : Option Bytes} {b : Bytes}
    (h : kindFields (.payload node payload) = .ok b) :
    ∃ n q, nodeIdToBytes16 node = .ok n ∧ payloadFields payload = .ok q ∧ b = n ++ q := by
  obtain ⟨n, hn, h⟩ := except_bind_ok h
  rcases payload with _ | payload
  · cases h
    exact ⟨n, [0], hn, rfl, rfl⟩
  · obtain ⟨q, hq, h⟩ := except_bind_ok h
    cases h
    exact ⟨n, _, hn, by rw [payloadFields, hq]; rfl, rfl⟩

/-- The fields of two kinds with one tag are read back in turn. -/
theorem kindFields_inj {k k' : Interface.OperationKind} {b : Bytes} (ht : kindTag k = kindTag k')
    (h : kindFields k = .ok b) (h' : kindFields k' = .ok b) : SameKind k k' := by
  cases k <;> cases k' <;> simp [kindTag] at ht
  case insert.insert =>
    obtain ⟨p, n, l, q, hp, hn, hl, hq, rfl⟩ := kindFields_insert h
    obtain ⟨p', n', l', q', hp', hn', hl', hq', he⟩ := kindFields_insert h'
    obtain ⟨h1, he⟩ := nodeId_append_inj hp hp' he
    obtain ⟨h2, he⟩ := nodeId_append_inj hn hn' he
    obtain ⟨h3, rfl⟩ := u32be_append_inj hl hl' he
    exact ⟨h1, h2, h3, payloadFields_inj hq hq'⟩
  case move.move =>
    obtain ⟨n, p, l, hn, hp, hl, rfl⟩ := kindFields_move h
    obtain ⟨n', p', l', hn', hp', hl', he⟩ := kindFields_move h'
    obtain ⟨h1, he⟩ := nodeId_append_inj hn hn' he
    obtain ⟨h2, he⟩ := nodeId_append_inj hp hp' he
    exact ⟨h1, h2, u32be_inj hl hl' he⟩
  case delete.delete => exact h.trans h'.symm
  case tombstone.tombstone => exact h.trans h'.symm
  case payload.payload =>
    obtain ⟨n, q, hn, hq, rfl⟩ := kindFields_payload h
    obtain ⟨n', q', hn', hq', he⟩ := kindFields_payload h'
    obtain ⟨h1, rfl⟩ := nodeId_append_inj hn hn' he
    exact ⟨h1, payloadFields_inj hq hq'⟩

/-- **Operation signatures.** Documents and operations with the same signature input agree in the
document id and in every signed field of the operation. -/
theorem encodeTreecrdtOpSigInputV1_inj {docId docId' : String} {op op' : Interface.Operation}
    {b : Bytes} (h : encodeTreecrdtOpSigInputV1 docId op = .ok b)
    (h' : encodeTreecrdtOpSigInputV1 docId' op' = .ok b) :
    docId = docId' ∧ op.metadata.id = op'.metadata.id ∧
      op.metadata.lamport = op'.metadata.lamport ∧ SameKind op.kind op'.kind := by
  obtain ⟨r, hr, h⟩ := except_bind_ok h
  obtain ⟨fields, hk, h⟩ := except_bind_ok h
  obtain ⟨dl, hdl, h⟩ := except_bind_ok h
  obtain ⟨rl, hrl, h⟩ := except_bind_ok h
  obtain ⟨c, hc, h⟩ := except_bind_ok h
  obtain ⟨l, hl, h⟩ := except_bind_ok h
  obtain ⟨r', hr', h'⟩ := except_bind_ok h'
  obtain ⟨fields', hk', h'⟩ := except_bind_ok h'
  obtain ⟨dl', hdl', h'⟩ := except_bind_ok h'
  obtain ⟨rl', hrl', h'⟩ := except_bind_ok h'
  obtain ⟨c', hc', h'⟩ := except_bind_ok h'
  obtain ⟨l', hl', h'⟩ := except_bind_ok h'
  have he := List.append_cancel_left (List.append_cancel_left
    ((Except.ok.inj h).trans (Except.ok.inj h').symm))
  obtain ⟨hdoc, he⟩ := u32be_append_inj hdl hdl' he
  obtain ⟨hrep, he⟩ := u32be_append_inj hrl hrl' he
  obtain ⟨hcounter, he⟩ := u64be_append_inj hc hc' he
  obtain ⟨hlamport, he⟩ := u64be_append_inj hl hl' he
  obtain ⟨htag, hfields⟩ := List.append_inj he rfl
  subst hfields
  refine ⟨utf8ToBytes_injective hdoc, ?_, hlamport,
    kindFields_inj (List.head_eq_of_cons_eq htag) hk hk'⟩
  rw [(replicaIdToBytes_ok hr).1, (replicaIdToBytes_ok hr').1] at hrep
  rcases hid : op.metadata.id with ⟨replica, counter⟩
  rcases hid' : op'.metadata.id with ⟨replica', counter'⟩
  rw [hid, hid'] at hrep hcounter
  simp_all

/-- A delete of a node with some `known_state`. -/
def deleteKnowing (node knownState : String) : Interface.Operation where
  metadata := { id := ⟨List.replicate 32 7, 1⟩, lamport := 2, knownState := utf8ToBytes knownState }
  kind := .delete node

/-- Two spellings of one node. -/
theorem encodeTreecrdtOpSigInputV1_inj_spelling :
    let op := deleteKnowing "5" ""
    let op' := deleteKnowing "0x05" ""
    "doc" = "doc" ∧ op.metadata.id = op'.metadata.id ∧
      op.metadata.lamport = op'.metadata.lamport ∧ SameKind op.kind op'.kind := by
  obtain ⟨b, hb, hb'⟩ : ∃ b, encodeTreecrdtOpSigInputV1 "doc" (deleteKnowing "5" "") = .ok b ∧
      encodeTreecrdtOpSigInputV1 "doc" (deleteKnowing "0x05" "") = .ok b := ⟨_, rfl, rfl⟩
  exact encodeTreecrdtOpSigInputV1_inj hb hb'

/-- Two deletes that knew nothing and the first nine operations of a replica have one signature
input. -/
theorem encodeTreecrdtOpSigInputV1_knownState :
    let op := deleteKnowing "5" "\x7b\"entries\":[]\x7d"
    let op' := deleteKnowing "5"
      "\x7b\"entries\":[\x7b\"replica\":[7],\"frontier\":9,\"ranges\":[]\x7d]\x7d"
    ∃ b, encodeTreecrdtOpSigInputV1 "doc" op = .ok b ∧
      encodeTreecrdtOpSigInputV1 "doc" op' = .ok b ∧
      op.metadata.knownState ≠ op'.metadata.knownState :=
  ⟨_, rfl, rfl, by decide⟩

end Auth

end Treecrdt
