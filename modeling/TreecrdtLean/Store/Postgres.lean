import TreecrdtLean.Store.Rows

/-!
# The operation log in Postgres (`treecrdt-postgres-rs`, `store.rs`)

The `u64` numbers of an operation are cast to `BIGINT` columns, and come back through a clamp at 0.
The filter and the order of a scan are those of the signed values, so a log is scanned as it was
written exactly if its numbers have no sign bit (`scansAll_iff`).
-/

namespace Treecrdt

namespace Postgres

/-! ## Rows -/

/-- The columns of an operation. -/
def rowOf (json : Json) (op : Operation) : OpRow :=
  let fields (kind : String) (parent : Option NodeId) (node : NodeId) (newParent : Option NodeId)
      (orderKey payload : Option Bytes) : OpRow :=
    { replica := op.metadata.id.replica.bytes
      counter := op.metadata.id.counter.toInt64
      lamport := op.metadata.lamport.toInt64
      kind, parent := parent.map nodeToBytes, node := nodeToBytes node
      newParent := newParent.map nodeToBytes, orderKey
      knownState := op.metadata.knownState.map json.toVec, payload }
  match op.kind with
  | .insert parent node orderKey payload =>
    fields "insert" (some parent) node none (some orderKey) payload
  | .move node newParent orderKey => fields "move" none node (some newParent) (some orderKey) none
  | .delete node => fields "delete" none node none none none
  | .tombstone node => fields "tombstone" none node none none none
  | .payload node payload => fields "payload" none node none none payload

/-- A delete is only written with a known state. -/
def opKindToDb (json : Json) (op : Operation) : Except Error OpRow :=
  match op.kind, op.metadata.knownState with
  | .delete _, none =>
    throw (.invalidOperation "treecrdt: delete operations require meta.known_state")
  | .delete _, some vv =>
    if (json.toVec vv).isEmpty then
      throw (.invalidOperation "treecrdt: delete known_state must not be empty")
    else return rowOf json op
  | _, _ => return rowOf json op

def bytesToNode (bytes : Bytes) : Except Error NodeId :=
  if bytes.length = 16 then return nodeOfBytes bytes
  else throw (.storage "expected 16-byte node id")

/-- `value.ok_or_else(..)`. -/
def orMissing {α : Type} (message : String) : Option α → Except Error α
  | some value => return value
  | none => throw (.storage message)

def rowKind (row : OpRow) : Except Error OperationKind :=
  match row.kind with
  | "insert" => do
    let parent ← orMissing "insert op missing parent" row.parent
    let orderKey ← orMissing "insert op missing order_key" row.orderKey
    return .insert (← bytesToNode parent) (← bytesToNode row.node) orderKey row.payload
  | "move" => do
    let newParent ← orMissing "move op missing new_parent" row.newParent
    let orderKey ← orMissing "move op missing order_key" row.orderKey
    return .move (← bytesToNode row.node) (← bytesToNode newParent) orderKey
  | "delete" => do return .delete (← bytesToNode row.node)
  | "tombstone" => do return .tombstone (← bytesToNode row.node)
  | "payload" => do return .payload (← bytesToNode row.node) row.payload
  | other => throw (.storage ("unknown op kind: " ++ other))

def rowToOp (json : Json) (row : OpRow) : Except Error Operation := do
  let knownState ← readKnownState json.vvFromBytes row.knownState
  let kind ← rowKind row
  return ⟨⟨⟨⟨row.replica⟩, maxZero row.counter⟩, maxZero row.lamport, knownState⟩, kind⟩

/-! ## The storage -/

variable {Ref : Type} [DecidableEq Ref]

/-- The rows of a document in `treecrdt_ops`, with their refs; `opRef` is `derive_op_ref_v0` for the
document. -/
structure PgOpStorage (json : Json) (opRef : OperationId → Ref) where
  rows : List (Ref × OpRow) := []

variable {json : Json} {opRef : OperationId → Ref}

/-- `insert_op_in_tx`: a ref that is there is left, and no two refs may share their columns of the
id. -/
def insertOpInTx (op : Operation) : Exec Error (PgOpStorage json opRef) Bool := fun s =>
  match opKindToDb json op with
  | .error e => some (.error e, s)
  | .ok row =>
    if s.rows.any fun r => r.1 = opRef op.metadata.id then some (.ok false, s)
    else if s.rows.any fun r => r.2.replica = row.replica ∧ r.2.counter = row.counter then
      some (.error (.storage "duplicate key value violates unique constraint"), s)
    else some (.ok true, ⟨s.rows ++ [(opRef op.metadata.id, row)]⟩)

/-- `COALESCE(MAX(column), 0)`, clamped. -/
def maxColumn (values : List Int64) : UInt64 := maxZero (values.max?.getD 0)

def loadSince (s : PgOpStorage json opRef) (lamport : Lamport) : Except Error (List Operation) :=
  scanRows (fun row => some <$> rowToOp json row) (s.rows.map Prod.snd) lamport.toInt64

instance : Storage (PgOpStorage json opRef) where
  apply := insertOpInTx
  loadSince := loadSince
  latestLamport s := maxColumn (s.rows.map fun r => r.2.lamport)
  latestCounter s replica := .ok <|
    maxColumn ((s.rows.filter fun r => r.2.replica = replica.bytes).map fun r => r.2.counter)
  -- `scan_since` visits what `load_since` returns.
  scanSince s lamport :=
    match loadSince s lamport with
    | .ok ops => ops.map .ok
    | .error e => [.error e]

/-! ## Reading a row back -/

variable {op : Operation} {ops : List Operation} {s : PgOpStorage json opRef}

theorem rowOf_holds (op : Operation) : (rowOf json op).Holds op := by
  unfold rowOf
  split <;> exact ⟨rfl, rfl, rfl⟩

theorem bytesToNode_node (node : NodeId) : bytesToNode (nodeToBytes node) = .ok node := by
  simp [bytesToNode]
  rfl

/-- The row gives back everything but the sign bits. -/
theorem rowToOp_rowOf {ks : Option VersionVector}
    (hks : readKnownState json.vvFromBytes (op.metadata.knownState.map json.toVec) = .ok ks) :
    rowToOp json (rowOf json op) =
      .ok ⟨⟨⟨op.metadata.id.replica, maxZero op.metadata.id.counter.toInt64⟩,
        maxZero op.metadata.lamport.toInt64, ks⟩, op.kind⟩ := by
  obtain ⟨⟨⟨⟨replica⟩, counter⟩, lamport, ks'⟩, kind⟩ := op
  cases kind <;>
    simp [rowToOp, rowOf, rowKind, orMissing, bytesToNode_node, hks, bind, Except.bind, pure,
      Except.pure]

theorem rowToOp_fits {row : OpRow} {back : Operation} (h : rowToOp json row = .ok back) :
    back.FitsI64 := by
  obtain ⟨ks, -, h⟩ := except_bind_ok h
  obtain ⟨kind, -, h⟩ := except_bind_ok h
  cases h
  exact ⟨maxZero_lt _, maxZero_lt _⟩

theorem opKindToDb_ok {row : OpRow} (h : opKindToDb json op = .ok row) : row = rowOf json op := by
  unfold opKindToDb at h
  split at h
  · cases h
  · split at h <;> cases h
    rfl
  · cases h
    rfl

theorem insertOpInTx_some {s' : PgOpStorage json opRef} {r : Except Error Bool}
    (h : insertOpInTx op s = some (r, s')) :
    (r = .ok true ∧ s'.rows = s.rows ++ [(opRef op.metadata.id, rowOf json op)]) ∨
      (r ≠ .ok true ∧ s' = s) := by
  unfold insertOpInTx at h
  split at h
  · cases h
    exact .inr ⟨nofun, rfl⟩
  · rename_i row hdb
    obtain rfl := opKindToDb_ok hdb
    split at h
    · cases h
      exact .inr ⟨nofun, rfl⟩
    · split at h <;> cases h
      · exact .inr ⟨nofun, rfl⟩
      · exact .inl ⟨rfl, rfl⟩

/-- The rows are those of the operations that were accepted. -/
theorem rows_of_accepted (h : Accepted ({} : PgOpStorage json opRef) ops s) :
    s.rows.map Prod.snd = ops.map (rowOf json) := by
  induction h with
  | start => rfl
  | accept before next ih =>
    obtain ⟨-, hrows⟩ | ⟨hnot, -⟩ := insertOpInTx_some next
    · rw [hrows, List.map_append, List.map_append, ih]
      rfl
    · exact absurd rfl hnot
  | refuse before next not ih =>
    obtain ⟨hr, -⟩ | ⟨-, rfl⟩ := insertOpInTx_some next
    · exact absurd hr not
    · exact ih

/-! ## What a scan visits -/

/-- Every operation that was accepted is scanned, as it was written and in the order of the
operations. -/
def ScansAll (ops : List Operation) (s : PgOpStorage json opRef) : Prop :=
  ∃ backs, Storage.scanSince s 0 = backs.map .ok ∧ List.Forall₂ Operation.Same backs (sortOps ops)

theorem scansAll_iff_load : ScansAll ops s ↔ ∃ backs, loadSince s 0 = .ok backs ∧
    List.Forall₂ Operation.Same backs (sortOps ops) := by
  refine exists_congr fun backs => and_congr_left fun _ => ?_
  simp only [Storage.scanSince]
  cases loadSince s 0 with
  | error e =>
    cases backs <;> simp
  | ok loaded =>
    simp only [Except.ok.injEq]
    exact (List.map_injective_iff.mpr fun _ _ h => Except.ok.inj h).eq_iff

/-- The row that an operation was read from. -/
theorem ScansAll.row (h : ScansAll ops s) (hop : op ∈ ops) : ∃ row back,
    0 < row.lamport ∧ rowToOp json row = .ok back ∧ back.Same op := by
  obtain ⟨backs, hload, hsame⟩ := scansAll_iff_load.mp h
  obtain ⟨back, hback, hop⟩ := exists_back hsame hop
  obtain ⟨row, -, hpos, hread⟩ := mem_scanRows hload hback
  have hmap : (rowToOp json row).map some = .ok (some back) := hread
  obtain ⟨read, hread', hsome⟩ := except_map_ok hmap
  rw [Option.some.inj hsome] at hread'
  exact ⟨row, back, hpos, hread', hop⟩

/-- Nothing that is read has a sign bit. -/
theorem ScansAll.fits (h : ScansAll ops s) : ∀ op ∈ ops, op.FitsI64 := by
  intro op hop
  obtain ⟨row, back, -, hread, hsame⟩ := h.row hop
  have hfits := rowToOp_fits hread
  exact ⟨hsame.lamport ▸ hfits.lamport, hsame.id ▸ hfits.counter⟩

/-- Nothing that is read has the Lamport time 0. -/
theorem ScansAll.lamport_ne_zero (h : ScansAll ops s) : ∀ op ∈ ops, op.metadata.lamport ≠ 0 := by
  intro op hop
  obtain ⟨row, back, hpos, hread, hsame⟩ := h.row hop
  obtain ⟨ks, -, hread⟩ := except_bind_ok hread
  obtain ⟨kind, -, hread⟩ := except_bind_ok hread
  cases hread
  exact hsame.lamport ▸ maxZero_ne_zero hpos

/-- **Which logs Postgres keeps.** A log of positive Lamport times is scanned as it was written, in
the order of the operations, exactly if no Lamport time and no counter has its top bit set. -/
theorem scansAll_iff (json : Json) (opRef : OperationId → Ref) (ops : List Operation)
    (s : PgOpStorage json opRef) (h : Accepted ({} : PgOpStorage json opRef) ops s)
    (hlamport : ∀ op ∈ ops, 1 ≤ op.metadata.lamport.toNat)
    (hjson : ∀ op ∈ ops, ∀ vv ∈ op.metadata.knownState, json.Reads vv) :
    ScansAll ops s ↔ ∀ op ∈ ops, op.FitsI64 := by
  refine ⟨ScansAll.fits, fun hfits => ?_⟩
  rw [scansAll_iff_load, loadSince, rows_of_accepted h]
  refine scanRows_map (fun op _ => rowOf_holds op) hfits (fun op hop hzero => ?_) fun op hop => ?_
  · have := hlamport op hop
    rw [hzero] at this
    exact absurd this (by decide)
  · obtain ⟨ks, hks, hsame⟩ := readKnownState_toVec .storage (hjson op hop)
    refine ⟨_, congrArg (some <$> ·) (rowToOp_rowOf hks), ?_⟩
    rw [maxZero_toInt64 (hfits op hop).lamport, maxZero_toInt64 (hfits op hop).counter]
    exact ⟨rfl, rfl, hsame, rfl⟩

/-- One operation that is accepted on its own. -/
theorem accepted_singleton (h : opKindToDb json op = .ok (rowOf json op)) :
    Accepted ({} : PgOpStorage json opRef) [op] ⟨[(opRef op.metadata.id, rowOf json op)]⟩ := by
  show Accepted _ ([] ++ [op]) _
  refine .accept .start ?_
  show insertOpInTx op _ = _
  rw [insertOpInTx, h]
  rfl

theorem scansAll_iff_delete :
    ScansAll [.delete ⟨[1]⟩ 1 1 ⟨7⟩ (some .new)]
      (⟨[(⟨⟨[1]⟩, 1⟩, rowOf .ofNew (.delete ⟨[1]⟩ 1 1 ⟨7⟩ (some .new)))]⟩ :
        PgOpStorage .ofNew (id : OperationId → OperationId)) := by
  refine (scansAll_iff .ofNew id _ _ (accepted_singleton (by rfl)) ?_ ?_).mpr ?_ <;>
    intro op hop <;> rw [List.mem_singleton.mp hop]
  · decide
  · rintro vv hvv
    obtain rfl : VersionVector.new = vv := Option.some.inj hvv
    exact Json.ofNew_reads
  · exact ⟨by decide, by decide⟩

/-- A counter with its top bit set comes back as 0. -/
theorem counter_not_scansAll : ¬ ∀ (ops : List Operation)
    (s : PgOpStorage .ofNew (id : OperationId → OperationId)), Accepted {} ops s → (∀ op ∈ ops, 1 ≤ op.metadata.lamport.toNat) →
      (∀ op ∈ ops, 1 ≤ op.metadata.id.counter.toNat) →
      (∀ op ∈ ops, ∀ vv ∈ op.metadata.knownState, Json.ofNew.Reads vv) → ScansAll ops s := by
  intro h
  let op : Operation := .clearPayload ⟨[1]⟩ 9223372036854775808 1 ⟨7⟩
  have hscan : ScansAll [op] _ := h [op] _ (accepted_singleton rfl)
    (by decide) (by decide) (fun op hop vv hvv => by
      rw [List.mem_singleton.mp hop] at hvv
      cases hvv)
  exact absurd (hscan.fits op List.mem_cons_self).counter (by decide)

end Postgres

end Treecrdt
