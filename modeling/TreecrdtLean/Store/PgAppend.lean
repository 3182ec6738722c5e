import TreecrdtLean.Lib.Pick
import TreecrdtLean.Store.Postgres

/-!
# Batches of operations in Postgres (`treecrdt-postgres-rs`, `store.rs`)

One statement inserts a batch, skips the refs that are in the table, and returns those that it
inserted. The operations of these refs are then materialized: they are those whose rows the table
took, each once (`selectInsertedOps_exact`, `bulkInsertOpsInTx_rows`).
-/

namespace Treecrdt

namespace Postgres

variable {Ref : Type} [DecidableEq Ref] {json : Json} {opRef : OperationId → Ref}

/-- `INSERT .. ON CONFLICT (doc_id, op_ref) DO NOTHING RETURNING op_ref`, row after row. -/
def insertRows : List (Ref × OpRow) → Exec Error (PgOpStorage json opRef) (List Ref)
  | [] => pure []
  | row :: rows => fun s =>
    if s.rows.any fun r => r.1 = row.1 then insertRows rows s
    else if s.rows.any fun r => r.2.replica = row.2.replica ∧ r.2.counter = row.2.counter then
      some (.error (.storage "duplicate key value violates unique constraint"), s)
    else
      (do
        let refs ← insertRows rows
        return row.1 :: refs : Exec Error (PgOpStorage json opRef) (List Ref)) ⟨s.rows ++ [row]⟩

/-- The loop of `bulk_insert_ops_in_tx` that fills the columns. -/
def batchRows (json : Json) (opRef : OperationId → Ref) (ops : List Operation) :
    Except Error (List (Ref × OpRow)) :=
  ops.mapM fun op => do return (opRef op.metadata.id, ← opKindToDb json op)

def bulkInsertOpsInTx (ops : List Operation) : Exec Error (PgOpStorage json opRef) (List Ref) :=
  if ops.isEmpty then pure []
  else do
    let rows ← Exec.getsE fun _ => batchRows json opRef ops
    Exec.atomically (insertRows rows)

/-- The walk of `select_inserted_ops` over the batch. -/
def keepRemaining (opRef : OperationId → Ref) : (Ref → Option ℕ) → List Operation → List Operation
  | _, [] => []
  | remainingByRef, op :: ops =>
    match remainingByRef (opRef op.metadata.id) with
    | none => keepRemaining opRef remainingByRef ops
    | some 0 => keepRemaining opRef remainingByRef ops
    | some (remaining + 1) =>
      op :: keepRemaining opRef
        (Function.update remainingByRef (opRef op.metadata.id) (some remaining)) ops

/-- `*remaining_by_ref.entry(op_ref).or_insert(0) += 1`. -/
def countRef (remainingByRef : Ref → Option ℕ) (ref : Ref) : Ref → Option ℕ :=
  Function.update remainingByRef ref (some ((remainingByRef ref).getD 0 + 1))

def selectInsertedOps (opRef : OperationId → Ref) (ops : List Operation)
    (insertedOpRefs : List Ref) : List Operation :=
  if insertedOpRefs.isEmpty then []
  else if insertedOpRefs.length = ops.length then ops
  else keepRemaining opRef (insertedOpRefs.foldl countRef fun _ => none) ops

/-! ## Which operations are selected -/

variable {ops : List Operation} {refs : List Ref}

/-- The ref of an operation, as `derive_op_ref_v0` makes it of the id. -/
def refOf (opRef : OperationId → Ref) (op : Operation) : Ref := opRef op.metadata.id

theorem foldl_countRef (remainingByRef : Ref → Option ℕ) (refs : List Ref) (ref : Ref) :
    (refs.foldl countRef remainingByRef ref).getD 0 =
      (remainingByRef ref).getD 0 + refs.count ref := by
  induction refs generalizing remainingByRef with
  | nil => simp
  | cons first refs ih =>
    rw [List.foldl_cons, ih, countRef]
    by_cases h : ref = first
    · subst h
      rw [Function.update_self, Option.getD_some, List.count_cons_self]
      omega
    · rw [Function.update_of_ne h, List.count_cons_of_ne (Ne.symm h)]

theorem keepRemaining_eq_pick (remainingByRef : Ref → Option ℕ) (ops : List Operation) :
    keepRemaining opRef remainingByRef ops =
      pick (refOf opRef) (fun ref => (remainingByRef ref).getD 0) ops := by
  induction ops generalizing remainingByRef with
  | nil => rfl
  | cons op ops ih =>
    unfold keepRemaining
    rw [pick]
    cases h : remainingByRef (opRef op.metadata.id) with
    | none => rw [if_pos (by rw [refOf, h]; rfl), ih]
    | some remaining =>
      cases remaining with
      | zero => rw [if_pos (by rw [refOf, h]; rfl), ih]
      | succ remaining =>
        rw [if_neg (by rw [refOf, h]; exact Nat.succ_ne_zero remaining)]
        refine congrArg (op :: ·) ((ih _).trans (congrArg (pick _ · ops) ?_))
        funext ref
        by_cases hr : ref = refOf opRef op
        · subst hr
          rw [Function.update_self, refOf, Function.update_self, h]
          rfl
        · rw [Function.update_of_ne hr, Function.update_of_ne (by rwa [refOf] at hr)]

/-- The refs that were inserted are a part of those of the batch: the shortcuts of
`select_inserted_ops` give what its walk gives. -/
theorem selectInsertedOps_eq_pick (h : refs.Subperm (ops.map (refOf opRef))) :
    selectInsertedOps opRef ops refs = pick (refOf opRef) (fun ref => refs.count ref) ops := by
  have hlength : (pick (refOf opRef) (fun ref => refs.count ref) ops).length = refs.length := by
    rw [← (pick_perm h).length_eq, List.length_map]
  unfold selectInsertedOps
  split
  · rename_i hempty
    rw [List.isEmpty_iff.mp hempty, List.length_nil] at hlength
    rw [List.isEmpty_iff.mp hempty, List.length_eq_zero_iff.mp hlength]
  · split
    · rename_i hall
      exact ((pick_sublist _ ops).eq_of_length (hlength.trans hall)).symm
    · rw [keepRemaining_eq_pick]
      congr 1
      funext ref
      rw [foldl_countRef, Option.getD_none, Nat.zero_add]

/-- The operations of the inserted refs are selected, each once and in the order of the batch, and
no other. A statement reports a set of refs, each of an operation of its batch
(`bulkInsertOpsInTx_reported`). -/
theorem selectInsertedOps_exact (hset : refs.Nodup) (hof : refs ⊆ ops.map (refOf opRef)) :
    (selectInsertedOps opRef ops refs).Sublist ops ∧
      ∀ ref, ((selectInsertedOps opRef ops refs).map (refOf opRef)).count ref =
        if ref ∈ refs then 1 else 0 := by
  have hpart : refs.Subperm (ops.map (refOf opRef)) := List.subperm_of_subset hset hof
  rw [selectInsertedOps_eq_pick hpart]
  refine ⟨pick_sublist _ ops, fun ref => ?_⟩
  rw [(pick_perm hpart).count_eq, hset.count]

/-- The batch repeats its first operation around the second, and both were inserted. -/
theorem selectInsertedOps_exact_repeated :
    let first : Operation := ⟨⟨⟨⟨[1]⟩, 1⟩, 1, none⟩, .tombstone ⟨7⟩⟩
    let second : Operation := ⟨⟨⟨⟨[1]⟩, 2⟩, 2, none⟩, .payload ⟨7⟩ none⟩
    let selected := selectInsertedOps id [first, second, first] [⟨⟨[1]⟩, 2⟩, ⟨⟨[1]⟩, 1⟩]
    selected.Sublist [first, second, first] ∧ ∀ ref, (selected.map (refOf id)).count ref =
      if ref ∈ [(⟨⟨[1]⟩, 2⟩ : OperationId), ⟨⟨[1]⟩, 1⟩] then 1 else 0 :=
  selectInsertedOps_exact (by decide) (by decide)

/-! ## What the table takes -/

variable {s s' : PgOpStorage json opRef}

/-- The rows of the refs that are not there, the first of each. -/
theorem insertRows_ok {rows : List (Ref × OpRow)} (h : insertRows rows s = some (.ok refs, s')) :
    refs = (fresh Prod.fst (s.rows.map Prod.fst) rows).map Prod.fst ∧
      s'.rows = s.rows ++ fresh Prod.fst (s.rows.map Prod.fst) rows := by
  induction rows generalizing s refs with
  | nil =>
    cases h
    exact ⟨rfl, (List.append_nil _).symm⟩
  | cons row rows ih =>
    have hany : (s.rows.any fun r => r.1 = row.1) ↔ row.1 ∈ s.rows.map Prod.fst := by
      simp [List.any_eq_true]
    unfold insertRows at h
    split at h
    · rename_i hthere
      rw [fresh, if_pos (hany.mp hthere)]
      exact ih h
    · rename_i hnew
      split at h
      · cases h
      · obtain ⟨later, s₁, hlater, hret⟩ := Exec.bind_ok h
        cases hret
        obtain ⟨hrefs, hrows⟩ := ih hlater
        have hseen : ∀ ref, ref ∈ (s.rows ++ [row]).map Prod.fst ↔
            ref ∈ row.1 :: s.rows.map Prod.fst := by
          intro ref
          simp [or_comm]
        rw [fresh_congr hseen] at hrefs hrows
        rw [fresh, if_neg fun hmem => hnew (hany.mpr hmem), hrows, hrefs, List.map_cons,
          List.append_assoc]
        exact ⟨rfl, rfl⟩

omit [DecidableEq Ref] in
theorem batchRows_ok {rows : List (Ref × OpRow)} (h : batchRows json opRef ops = .ok rows) :
    rows = ops.map fun op => (refOf opRef op, rowOf json op) := by
  refine except_mapM_eq_map (fun op columns hop => ?_) h
  obtain ⟨row, hrow, hret⟩ := except_bind_ok hop
  cases hret
  rw [opKindToDb_ok hrow, refOf]

theorem bulkInsertOpsInTx_ok (h : bulkInsertOpsInTx ops s = some (.ok refs, s')) :
    refs = (fresh (refOf opRef) (s.rows.map Prod.fst) ops).map (refOf opRef) ∧
      s'.rows = s.rows ++ (fresh (refOf opRef) (s.rows.map Prod.fst) ops).map fun op =>
        (refOf opRef op, rowOf json op) := by
  unfold bulkInsertOpsInTx at h
  split at h
  · rename_i hempty
    cases h
    rw [List.isEmpty_iff.mp hempty]
    exact ⟨rfl, (List.append_nil _).symm⟩
  · obtain ⟨rows, s₁, hrows, h⟩ := Exec.bind_ok h
    simp only [Exec.getsE_run, Option.some.injEq, Prod.mk.injEq] at hrows
    obtain ⟨hmap, rfl⟩ := hrows
    obtain ⟨hrefs, hrows⟩ := insertRows_ok (Exec.atomically_ok h)
    rw [batchRows_ok hmap, fresh_map] at hrefs hrows
    rw [List.map_map] at hrefs
    exact ⟨hrefs, hrows⟩

/-- What a statement reports is a set of refs, each of an operation of its batch. -/
theorem bulkInsertOpsInTx_reported (h : bulkInsertOpsInTx ops s = some (.ok refs, s')) :
    refs.Nodup ∧ refs ⊆ ops.map (refOf opRef) := by
  obtain ⟨rfl, -⟩ := bulkInsertOpsInTx_ok h
  exact ⟨fresh_nodup _ ops, ((fresh_sublist _ ops).map _).subset⟩

/-- In whatever order the refs are reported, the operations that are selected are those whose rows
the table took. -/
theorem bulkInsertOpsInTx_rows {reported : List Ref}
    (h : bulkInsertOpsInTx ops s = some (.ok reported, s')) (horder : refs.Perm reported) :
    s'.rows = s.rows ++ (selectInsertedOps opRef ops refs).map fun op =>
      (refOf opRef op, rowOf json op) := by
  obtain ⟨hset, hof⟩ := bulkInsertOpsInTx_reported h
  have hpart : refs.Subperm (ops.map (refOf opRef)) :=
    List.subperm_of_subset (horder.nodup_iff.mpr hset) (List.Subset.trans horder.subset hof)
  obtain ⟨rfl, hrows⟩ := bulkInsertOpsInTx_ok h
  have hcount : (fun ref => refs.count ref) = fun ref =>
      ((fresh (refOf opRef) (s.rows.map Prod.fst) ops).map (refOf opRef)).count ref := by
    funext ref
    exact horder.count_eq ref
  rw [hrows, selectInsertedOps_eq_pick hpart, hcount, pick_fresh]

/-- Every row is that of an operation, under its ref. -/
def PgOpStorage.Sound (s : PgOpStorage json opRef) : Prop :=
  ∀ row ∈ s.rows, ∃ op, row = (refOf opRef op, rowOf json op)

/-- The columns of an id give it back. -/
theorem rowOf_id {op op' : Operation} (hreplica : (rowOf json op).replica = (rowOf json op').replica)
    (hcounter : (rowOf json op).counter = (rowOf json op').counter) :
    op.metadata.id = op'.metadata.id := by
  rw [(rowOf_holds op).replica, (rowOf_holds op').replica] at hreplica
  rw [(rowOf_holds op).counter, (rowOf_holds op').counter] at hcounter
  obtain ⟨⟨⟨⟨replica⟩, counter⟩, _, _⟩, _⟩ := op
  obtain ⟨⟨⟨⟨replica'⟩, counter'⟩, _, _⟩, _⟩ := op'
  obtain rfl : replica = replica' := hreplica
  obtain rfl : counter = counter' := congrArg Int64.toUInt64 hcounter
  rfl

/-- A row that shares the columns of an id has its ref, so no statement fails on them. -/
theorem insertRows_returns (hs : s.Sound) {rows : List (Ref × OpRow)}
    (hrows : ∀ row ∈ rows, ∃ op, row = (refOf opRef op, rowOf json op)) :
    ∃ refs s', insertRows rows s = some (.ok refs, s') ∧ s'.Sound := by
  induction rows generalizing s with
  | nil => exact ⟨[], s, rfl, hs⟩
  | cons row rows ih =>
    obtain ⟨⟨op, hop⟩, hlater⟩ := List.forall_mem_cons.mp hrows
    unfold insertRows
    split
    · exact ih hs hlater
    · rename_i hnew
      have hfree : ¬ (s.rows.any fun r =>
          r.2.replica = row.2.replica ∧ r.2.counter = row.2.counter) := by
        intro hshared
        obtain ⟨r, hr, hcolumns⟩ := List.any_eq_true.mp hshared
        obtain ⟨hreplica, hcounter⟩ := of_decide_eq_true hcolumns
        obtain ⟨op', rfl⟩ := hs r hr
        subst hop
        have hid := rowOf_id hreplica hcounter
        exact hnew (List.any_eq_true.mpr ⟨_, hr, decide_eq_true (congrArg opRef hid)⟩)
      rw [if_neg hfree]
      have hsound : PgOpStorage.Sound (⟨s.rows ++ [row]⟩ : PgOpStorage json opRef) := by
        intro r hr
        obtain hr | hr := List.mem_append.mp hr
        · exact hs r hr
        · exact ⟨op, (List.mem_singleton.mp hr).trans hop⟩
      obtain ⟨refs, s', hrun, hs'⟩ := ih hsound hlater
      exact ⟨row.1 :: refs, s', Exec.bind_of_ok hrun, hs'⟩

/-- A batch whose operations all have their columns is inserted. -/
theorem bulkInsertOpsInTx_returns (hs : s.Sound)
    (hops : ∀ op ∈ ops, ∃ row, opKindToDb json op = .ok row) :
    ∃ refs s', bulkInsertOpsInTx ops s = some (.ok refs, s') ∧ s'.Sound := by
  unfold bulkInsertOpsInTx
  split
  · exact ⟨[], s, rfl, hs⟩
  · obtain ⟨rows, hrows⟩ : ∃ rows, batchRows json opRef ops = .ok rows :=
      except_mapM_ok_iff.mpr fun op hop => by
        obtain ⟨row, hrow⟩ := hops op hop
        exact ⟨(opRef op.metadata.id, row), by rw [hrow]; rfl⟩
    have hof : ∀ row ∈ rows, ∃ op, row = (refOf opRef op, rowOf json op) := by
      rw [batchRows_ok hrows]
      intro row hrow
      obtain ⟨op, -, rfl⟩ := List.mem_map.mp hrow
      exact ⟨op, rfl⟩
    obtain ⟨refs, s', hrun, hs'⟩ := insertRows_returns hs hof
    refine ⟨refs, s', ?_, hs'⟩
    have hstart : (Exec.getsE fun _ => batchRows json opRef ops) s = some (.ok rows, s) := by
      rw [Exec.getsE_run, hrows]
    rw [Exec.bind_of_ok hstart, Exec.atomically, hrun]

end Postgres

end Treecrdt
