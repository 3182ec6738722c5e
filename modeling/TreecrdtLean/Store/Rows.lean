import TreecrdtLean.Core.Traits
import TreecrdtLean.Core.Serialize
import TreecrdtLean.Lib.Codec
import TreecrdtLean.Lib.Exec

/-!
# Rows of operations

The tables of the SQL backends hold an operation in nullable columns, with its `u64` fields in signed
ones. Whatever a backend makes of the columns, a scan of rows that hold small numbers visits the
operations in their order (`scanRows_map`): a table is as faithful as the reading of one row.
-/

namespace Treecrdt

/-! ## Signed columns -/

/-- `x.max(0) as u64`. -/
def maxZero (x : Int64) : UInt64 := (max x 0).toUInt64

theorem maxZero_toNat (x : Int64) : (maxZero x).toNat = x.toNatClampNeg := by
  have hmax : max x 0 = if x ≤ 0 then 0 else x := rfl
  rw [maxZero, hmax]
  split
  · rename_i h
    rw [Int64.le_iff_toInt_le, Int64.toInt_zero] at h
    rw [← Int64.toNat_toInt, Int.toNat_of_nonpos h]
    rfl
  · rename_i h
    exact Int64.toNat_toUInt64_of_le (Int64.le_of_lt (Int64.not_le.mp h))

theorem maxZero_lt (x : Int64) : (maxZero x).toNat < 2 ^ 63 := by
  rw [maxZero_toNat]
  exact x.toNatClampNeg_lt

theorem maxZero_ne_zero {x : Int64} (h : 0 < x) : maxZero x ≠ 0 := by
  intro hzero
  have hnat := congrArg UInt64.toNat hzero
  rw [maxZero_toNat, ← Int64.toNat_toInt, UInt64.toNat_zero] at hnat
  rw [Int64.lt_iff_toInt_lt, Int64.toInt_zero] at h
  omega

theorem toInt64_toInt (x : UInt64) :
    x.toInt64.toInt = if x.toNat < 2 ^ 63 then (x.toNat : ℤ) else x.toNat - 2 ^ 64 := by
  have htoInt : x.toInt64.toInt = x.toBitVec.toInt := rfl
  rw [htoInt, BitVec.toInt_eq_toNat_cond, UInt64.toNat_toBitVec]
  split <;> split <;> first | rfl | omega

theorem toInt64_toInt_of_lt {x : UInt64} (h : x.toNat < 2 ^ 63) : x.toInt64.toInt = x.toNat := by
  rw [toInt64_toInt, if_pos h]

theorem maxZero_toInt64 {x : UInt64} (h : x.toNat < 2 ^ 63) : maxZero x.toInt64 = x := by
  refine UInt64.toNat_inj.mp ?_
  rw [maxZero_toNat, ← Int64.toNat_toInt, toInt64_toInt_of_lt h, Int.toNat_natCast]

/-- Where the sign bit is set the number is negative. -/
theorem toInt64_pos_iff {x : UInt64} : 0 < x.toInt64 ↔ x ≠ 0 ∧ x.toNat < 2 ^ 63 := by
  have hlt := UInt64.toNat_lt x
  rw [Int64.lt_iff_toInt_lt, Int64.toInt_zero, toInt64_toInt, ne_eq, ← UInt64.toNat_inj,
    UInt64.toNat_zero]
  split <;> omega

/-! ## Node ids in columns -/

/-- `to_be_bytes`. -/
def nodeToBytes (node : NodeId) : Bytes := beBytes 16 node.toNat

/-- `u128::from_be_bytes`. -/
def nodeOfBytes (bytes : Bytes) : NodeId := ⟨BitVec.ofNat 128 (beValue bytes)⟩

@[simp] theorem nodeToBytes_length (node : NodeId) : (nodeToBytes node).length = 16 :=
  beBytes_length _ _

@[simp] theorem nodeOfBytes_nodeToBytes (node : NodeId) : nodeOfBytes (nodeToBytes node) = node := by
  have hlt : node.toNat < 256 ^ 16 := node.val.isLt
  rw [nodeOfBytes, nodeToBytes, beValue_beBytes hlt, NodeId.toNat, BitVec.ofNat_toNat,
    BitVec.setWidth_eq]

theorem nodeToBytes_injective : Function.Injective nodeToBytes :=
  Function.LeftInverse.injective nodeOfBytes_nodeToBytes

theorem nodeToBytes_lt_iff {a b : NodeId} : (nodeToBytes a).nats < (nodeToBytes b).nats ↔ a < b :=
  beBytes_lt_iff a.val.isLt b.val.isLt

/-! ## What an operation carries -/

/-- The byte strings of an application. -/
def OperationKind.blobs : OperationKind → List Bytes
  | .insert _ _ orderKey content => orderKey :: content.toList
  | .move _ _ orderKey => [orderKey]
  | .delete _ | .tombstone _ => []
  | .payload _ content => content.toList

def OperationKind.isDeletion : OperationKind → Bool
  | .delete _ | .tombstone _ => true
  | _ => false

/-- Only a deletion has a known state. -/
def Operation.KnowsIfDeletes (op : Operation) : Prop :=
  op.kind.isDeletion = false → op.metadata.knownState = none

/-! ## Rows -/

/-- A row of the `ops` table; `none` is `NULL`. -/
structure OpRow where
  replica : Bytes
  counter : Int64
  lamport : Int64
  kind : String
  parent : Option Bytes
  node : Bytes
  newParent : Option Bytes
  orderKey : Option Bytes
  knownState : Option Bytes
  payload : Option Bytes
  deriving DecidableEq

/-- A known state that is absent or of zero bytes is none. -/
def readKnownState (parse : Bytes → Except Error VersionVector) :
    Option Bytes → Except Error (Option VersionVector)
  | some bytes => if bytes.isEmpty then return none else return some (← parse bytes)
  | none => return none

/-- `vv_from_bytes`. -/
def Json.vvFromBytes (json : Json) (bytes : Bytes) : Except Error VersionVector :=
  (json.fromSlice bytes).mapError .storage

theorem readKnownState_toVec {json : Json} {knownState : Option VersionVector}
    (fail : String → Error) (h : ∀ vv ∈ knownState, json.Reads vv) :
    ∃ back, readKnownState (fun bytes => (json.fromSlice bytes).mapError fail)
      (knownState.map json.toVec) = .ok back ∧ Option.Rel VersionVector.Same back knownState := by
  cases knownState with
  | none => exact ⟨none, rfl, .none⟩
  | some vv =>
    obtain ⟨vv', hread, hsame⟩ := (h vv rfl).fromSlice
    refine ⟨some vv', ?_, .some hsame⟩
    have htext : (json.toVec vv).isEmpty = false :=
      List.isEmpty_eq_false_iff.mpr (h vv rfl).text
    rw [Option.map_some, readKnownState, htext, hread]
    rfl

namespace OpRow

/-- The columns of `ORDER BY lamport, replica, counter`. -/
def key (row : OpRow) : Lex (ℤ × Lex (List ℕ × ℤ)) :=
  toLex (row.lamport.toInt, toLex (row.replica.nats, row.counter.toInt))

def le (a b : OpRow) : Bool := a.key ≤ b.key

end OpRow

/-- The columns that hold the metadata of an operation. -/
structure OpRow.Holds (row : OpRow) (op : Operation) : Prop where
  replica : row.replica = op.metadata.id.replica.bytes
  counter : row.counter = op.metadata.id.counter.toInt64
  lamport : row.lamport = op.metadata.lamport.toInt64

/-- The numbers of the operation fit into signed columns. -/
structure Operation.FitsI64 (op : Operation) : Prop where
  lamport : op.metadata.lamport.toNat < 2 ^ 63
  counter : op.metadata.id.counter.toNat < 2 ^ 63

/-- The rows are in the order of the operations. -/
theorem OpRow.Holds.le_iff {a b : OpRow} {x y : Operation} (ha : a.Holds x) (hb : b.Holds y)
    (hx : x.FitsI64) (hy : y.FitsI64) : a.le b = true ↔ x.key ≤ y.key := by
  rw [OpRow.le, decide_eq_true_eq, OpRow.key, OpRow.key, ha.replica, ha.counter, ha.lamport,
    hb.replica, hb.counter, hb.lamport, toInt64_toInt_of_lt hx.lamport,
    toInt64_toInt_of_lt hx.counter, toInt64_toInt_of_lt hy.lamport, toInt64_toInt_of_lt hy.counter,
    Operation.key, Operation.key, opKey, opKey]
  simp only [Prod.Lex.toLex_le_toLex, Int.ofNat_lt, Int.ofNat_le, Int.ofNat_inj]

/-- The loop over the rows: one that `read` makes nothing of is skipped. -/
def readRows (read : OpRow → Except Error (Option Operation)) :
    List OpRow → Except Error (List Operation)
  | [] => return []
  | row :: rows => do
    match ← read row with
    | some op => return op :: (← readRows read rows)
    | none => readRows read rows

/-- `WHERE lamport > ?1 ORDER BY lamport, replica, counter`. -/
def scanRows (read : OpRow → Except Error (Option Operation)) (rows : List OpRow) (lamport : Int64) :
    Except Error (List Operation) :=
  readRows read ((rows.filter fun row => lamport < row.lamport).mergeSort OpRow.le)

theorem mem_readRows {read : OpRow → Except Error (Option Operation)} {rows : List OpRow}
    {backs : List Operation} (h : readRows read rows = .ok backs) {back : Operation}
    (hback : back ∈ backs) : ∃ row ∈ rows, read row = .ok (some back) := by
  induction rows generalizing backs with
  | nil =>
    cases h
    cases hback
  | cons row rows ih =>
    obtain ⟨op, hop, h⟩ := except_bind_ok h
    cases op with
    | none =>
      obtain ⟨r, hr, hread⟩ := ih h hback
      exact ⟨r, List.mem_cons_of_mem _ hr, hread⟩
    | some op =>
      obtain ⟨rest, hrest, h⟩ := except_bind_ok h
      cases h
      obtain rfl | hback := List.mem_cons.mp hback
      · exact ⟨row, List.mem_cons_self, hop⟩
      · obtain ⟨r, hr, hread⟩ := ih hrest hback
        exact ⟨r, List.mem_cons_of_mem _ hr, hread⟩

/-- What a scan visits is read from a row behind its start. -/
theorem mem_scanRows {read : OpRow → Except Error (Option Operation)} {rows : List OpRow}
    {lamport : Int64} {backs : List Operation} (h : scanRows read rows lamport = .ok backs)
    {back : Operation} (hback : back ∈ backs) :
    ∃ row ∈ rows, lamport < row.lamport ∧ read row = .ok (some back) := by
  obtain ⟨row, hrow, hread⟩ := mem_readRows h hback
  obtain ⟨hrow, hlamport⟩ := List.mem_filter.mp ((List.mergeSort_perm _ _).mem_iff.mp hrow)
  exact ⟨row, hrow, of_decide_eq_true hlamport, hread⟩

theorem readRows_map {read : OpRow → Except Error (Option Operation)} {toRow : Operation → OpRow}
    {Same : Operation → Operation → Prop} {ops : List Operation}
    (h : ∀ op ∈ ops, ∃ back, read (toRow op) = .ok (some back) ∧ Same back op) :
    ∃ backs, readRows read (ops.map toRow) = .ok backs ∧ List.Forall₂ Same backs ops := by
  induction ops with
  | nil => exact ⟨[], rfl, .nil⟩
  | cons op ops ih =>
    obtain ⟨⟨back, hop, hsame⟩, hops⟩ := List.forall_mem_cons.mp h
    obtain ⟨backs, hrest, hall⟩ := ih hops
    refine ⟨back :: backs, ?_, .cons hsame hall⟩
    rw [List.map_cons, readRows, hop]
    simp only [bind, Except.bind, hrest]
    rfl

/-- Rows of operations that fit are read one by one, in the order of the operations. -/
theorem scanRows_map {read : OpRow → Except Error (Option Operation)} {toRow : Operation → OpRow}
    {Same : Operation → Operation → Prop} {ops : List Operation}
    (hholds : ∀ op ∈ ops, (toRow op).Holds op) (hfits : ∀ op ∈ ops, op.FitsI64)
    (hpos : ∀ op ∈ ops, op.metadata.lamport ≠ 0)
    (hread : ∀ op ∈ ops, ∃ back, read (toRow op) = .ok (some back) ∧ Same back op) :
    ∃ backs, scanRows read (ops.map toRow) 0 = .ok backs ∧
      List.Forall₂ Same backs (sortOps ops) := by
  have hfilter : (ops.map toRow).filter (fun row => 0 < row.lamport) = ops.map toRow := by
    rw [List.filter_eq_self]
    rintro row hrow
    obtain ⟨op, hop, rfl⟩ := List.mem_map.mp hrow
    rw [(hholds op hop).lamport, decide_eq_true_eq]
    exact toInt64_pos_iff.mpr ⟨hpos op hop, (hfits op hop).lamport⟩
  have hsort : (ops.map toRow).mergeSort OpRow.le = (sortOps ops).map toRow := by
    refine (List.map_mergeSort fun a ha b hb => ?_).symm
    rw [Bool.eq_iff_iff, decide_eq_true_eq, cmpOps_ne_gt]
    exact ((hholds a ha).le_iff (hholds b hb) (hfits a ha) (hfits b hb)).symm
  rw [scanRows, hfilter, hsort]
  exact readRows_map fun op hop => hread op ((sortOps_perm ops).mem_iff.mp hop)

/-! ## Logs -/

/-- What was read back of an operation of a log. -/
theorem exists_back {backs ops : List Operation}
    (h : List.Forall₂ Operation.Same backs (sortOps ops)) {op : Operation} (hop : op ∈ ops) :
    ∃ back ∈ backs, back.Same op := by
  obtain ⟨i, hi, rfl⟩ := List.getElem_of_mem ((sortOps_perm ops).mem_iff.mpr hop)
  have hlen := h.length_eq
  exact ⟨backs[i], List.getElem_mem _, h.get (by omega) hi⟩

/-- The operations that a storage accepted, whatever else was handed to it. -/
inductive Accepted {S : Type} [Storage S] (s₀ : S) : List Operation → S → Prop
  | start : Accepted s₀ [] s₀
  | accept {ops : List Operation} {s s' : S} {op : Operation} (before : Accepted s₀ ops s)
      (next : Storage.apply op s = some (.ok true, s')) : Accepted s₀ (ops ++ [op]) s'
  | refuse {ops : List Operation} {s s' : S} {op : Operation} {r : Except Error Bool}
      (before : Accepted s₀ ops s) (next : Storage.apply op s = some (r, s')) (not : r ≠ .ok true) :
      Accepted s₀ ops s'

end Treecrdt
