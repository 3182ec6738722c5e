import TreecrdtLean.Sync.Backend
import TreecrdtLean.Tree.Batch

/-!
# The log of a SQLite document (`op_storage.rs`, `append_ops_impl`)

The rows of the log have distinct ids, and a scan visits all of them (`SqliteOpStorage.Sound`). A
batch that is inserted adds its new operations, each once, at the end (`insertOps_returns`). Where
all of them are newer than the log, the scan goes on with them (`sortOps_append_newer`).
-/

namespace Treecrdt

/-! ## The order of a longer log -/

section

variable {ops batch : List Operation}

/-- Operations that are newer than a log sort behind it. -/
theorem sortOps_append_newer (hid : DistinctIds (ops ++ batch))
    (h : ∀ a ∈ ops, ∀ b ∈ batch, a.key ≤ b.key) :
    sortOps (ops ++ batch) = sortOps ops ++ sortOps batch := by
  have hsorted : (sortOps ops ++ sortOps batch).Pairwise fun a b => a.key ≤ b.key :=
    List.pairwise_append.mpr ⟨sortOps_sorted ops, sortOps_sorted batch, fun a ha b hb =>
      h a ((sortOps_perm ops).mem_iff.mp ha) b ((sortOps_perm batch).mem_iff.mp hb)⟩
  have hperm : (ops ++ batch).Perm (sortOps ops ++ sortOps batch) :=
    (sortOps_perm ops).symm.append (sortOps_perm batch).symm
  rw [sortOps_eq_of_perm hperm hid, sortOps_of_sorted hsorted]

/-- Sorted operations with distinct ids ascend. -/
theorem ascends_of_distinct (hid : DistinctIds batch) : TreeCrdt.Ascends none (sortOps batch) := by
  rw [TreeCrdt.ascends_sortOps (by simp)]
  refine ⟨?_, by simp⟩
  refine List.Nodup.map_on (fun a ha b hb hkey => ?_) hid.of_map
  exact List.inj_on_of_nodup_map hid ha hb (Operation.id_of_key hkey)

theorem le_foldl_max {l : List UInt64} {a x : UInt64} (h : x ≤ a ∨ x ∈ l) : x ≤ l.foldl max a := by
  induction l generalizing a with
  | nil => exact h.resolve_right List.not_mem_nil
  | cons y l ih =>
    have hmax : max a y = if a ≤ y then y else a := rfl
    rw [List.foldl_cons]
    refine ih ?_
    rw [List.mem_cons] at h
    split_ifs at hmax with hle <;> rw [hmax]
    · exact h.elim (fun h => Or.inl (UInt64.le_trans h hle)) fun h => h.imp_left UInt64.le_of_eq
    · obtain h | rfl | h := h
      · exact Or.inl h
      · exact Or.inl ((UInt64.le_total a x).resolve_left hle)
      · exact Or.inr h

end

namespace Sync

open Exec

/-- A payload that is written has bytes: a blob without bytes reads as `NULL`. -/
def writesBytes : OperationKind → Prop
  | .insert _ _ _ payload => payload ≠ some []
  | .payload _ payload => payload ≠ some []
  | _ => True

/-- An operation that its row gives back: its numbers are `INTEGER`s behind the start of the scan,
and neither its replica nor its payload is a blob without bytes. -/
structure Storable (op : Operation) : Prop where
  lamport : op.metadata.lamport ≠ 0 ∧ op.metadata.lamport.toNat < 2 ^ 63
  counter : op.metadata.id.counter.toNat < 2 ^ 63
  replica : op.metadata.id.replica.bytes ≠ []
  payload : writesBytes op.kind

theorem opRow_metadata (op : Operation) : (opRow op).metadata.id = op.metadata.id ∧
    (opRow op).metadata.lamport = op.metadata.lamport ∧ (opRow op).kind = op.kind := by
  unfold opRow
  split <;> exact ⟨rfl, rfl, rfl⟩

/-- A log of distinct operations that its scan visits. -/
structure SqliteOpStorage.Sound (s : SqliteOpStorage) : Prop where
  ids : DistinctIds s.rows
  storable : ∀ op ∈ s.rows, Storable op

namespace SqliteOpStorage

variable {s : SqliteOpStorage} {op : Operation} {ops : List Operation}

theorem Sound.new : Sound {} := ⟨List.nodup_nil, fun _ hop => (nomatch hop)⟩

theorem Sound.scan (h : s.Sound) : Storage.scanSince s 0 = (sortOps s.rows).map .ok := by
  have hall : s.rows.filter (fun op => op.metadata.lamport > 0 ∧ op.metadata.id.replica.bytes ≠ []) =
      s.rows := by
    refine List.filter_eq_self.mpr fun op hop => ?_
    have hop := h.storable op hop
    exact decide_eq_true ⟨UInt64.pos_iff_ne_zero.mpr hop.lamport.1, hop.replica⟩
  show ((s.since 0).map Except.ok : List (Except Error Operation)) = _
  rw [since, hall]

theorem Sound.append (h : s.Sound) (hop : Storable op)
    (hnew : ∀ row ∈ s.rows, row.metadata.id ≠ op.metadata.id) : Sound ⟨s.rows ++ [op]⟩ where
  ids := by
    rw [DistinctIds, List.map_append]
    refine List.Nodup.append h.ids (List.nodup_singleton _) fun id hid hid' => ?_
    obtain ⟨row, hrow, rfl⟩ := List.mem_map.mp hid
    exact hnew row hrow (List.mem_singleton.mp hid')
  storable op' hop' := by
    obtain hop' | hop' := List.mem_append.mp hop'
    · exact h.storable op' hop'
    · exact List.mem_singleton.mp hop' ▸ hop

theorem storable_opRow (hop : Storable op) : Storable (opRow op) := by
  obtain ⟨hid, hlamport, hkind⟩ := opRow_metadata op
  exact ⟨hlamport ▸ hop.lamport, hid ▸ hop.counter, hid ▸ hop.replica, hkind ▸ hop.payload⟩

/-- An operation with a new id is taken. -/
theorem apply_new (hnew : ∀ row ∈ s.rows, row.metadata.id ≠ op.metadata.id) :
    Storage.apply op s = some (.ok true, ⟨s.rows ++ [opRow op]⟩) := by
  show (if _ then _ else _) = _
  rw [if_neg]
  simpa using hnew

theorem apply_known {row : Operation} (hrow : row ∈ s.rows)
    (hid : row.metadata.id = op.metadata.id) :
    Storage.apply op s = some (.ok false, s) := by
  show (if _ then _ else _) = _
  rw [if_pos]
  exact List.any_eq_true.mpr ⟨row, hrow, decide_eq_true hid⟩

/-- Inserted operations are the new ones, at the end of the log. -/
theorem insertOps_returns (h : s.Sound) (hops : ∀ op ∈ ops, Storable op) :
    ∃ inserted, SqliteDoc.insertOps ops s = some (.ok inserted, ⟨s.rows ++ inserted⟩) ∧
      Sound ⟨s.rows ++ inserted⟩ := by
  induction ops generalizing s with
  | nil =>
    refine ⟨[], ?_, ?_⟩
    · rw [List.append_nil]
      rfl
    · rwa [List.append_nil]
  | cons op ops ih =>
    rw [List.forall_mem_cons] at hops
    by_cases hknown : ∃ row ∈ s.rows, row.metadata.id = op.metadata.id
    · obtain ⟨row, hrow, hid⟩ := hknown
      obtain ⟨inserted, hrest, hsound⟩ := ih h hops.2
      refine ⟨inserted, ?_, hsound⟩
      rw [SqliteDoc.insertOps, bind_of_ok (apply_known hrow hid), bind_of_ok hrest]
      rfl
    · have hnew : ∀ row ∈ s.rows, row.metadata.id ≠ op.metadata.id := fun row hrow hid =>
        hknown ⟨row, hrow, hid⟩
      have hsound := h.append (storable_opRow hops.1) fun row hrow => by
        rw [(opRow_metadata op).1]
        exact hnew row hrow
      obtain ⟨inserted, hrest, hsound'⟩ := ih hsound hops.2
      rw [List.append_assoc, List.singleton_append] at hrest hsound'
      refine ⟨opRow op :: inserted, ?_, hsound'⟩
      rw [SqliteDoc.insertOps, bind_of_ok (apply_new hnew), bind_of_ok hrest]
      rfl

theorem le_latestLamport (hop : op ∈ s.rows) :
    op.metadata.lamport ≤ Storage.latestLamport s := by
  show _ ≤ (s.rows.map fun op => op.metadata.lamport).foldl max 0
  exact le_foldl_max (Or.inr (List.mem_map_of_mem hop))

theorem latestCounter_ok (replica : ReplicaId) :
    ∃ counter, Storage.latestCounter s replica = .ok counter ∧
      ∀ op ∈ s.rows, op.metadata.id.replica = replica → op.metadata.id.counter ≤ counter := by
  refine ⟨_, rfl, fun op hop hreplica => le_foldl_max (Or.inr ?_)⟩
  exact List.mem_map_of_mem (List.mem_filter.mpr ⟨hop, decide_eq_true hreplica⟩)

end SqliteOpStorage

/-! ## The head -/

/-- The greatest key of a log, as the cursor holds it. -/
def headOf (ops : List Operation) : Lamport × Bytes × UInt64 :=
  match (sortOps ops).getLast? with
  | some last => (last.metadata.lamport, last.metadata.id.replica.bytes, last.metadata.id.counter)
  | none => (0, [], 0)

/-- The head of the cursor. -/
def cursorHead (cursor : TreeMeta) : Lamport × Bytes × UInt64 :=
  (cursor.headLamport, cursor.headReplica, cursor.headCounter)

/-- A batch that is not behind the head of a log is newer than the log. -/
theorem newer_of_not_behind {cursor : TreeMeta} {ops batch : List Operation}
    (hhead : cursorHead cursor = headOf ops)
    (hbehind : (sortOps batch).head?.any (TreeCrdt.behindHead cursor) = false) :
    ∀ a ∈ ops, ∀ b ∈ batch, a.key ≤ b.key := by
  intro a ha b hb
  obtain ⟨first, rest, hsorted⟩ := List.exists_cons_of_ne_nil
    (List.ne_nil_of_mem ((sortOps_perm batch).mem_iff.mpr hb))
  obtain ⟨last, hlast⟩ : ∃ last, (sortOps ops).getLast? = some last :=
    ⟨_, List.getLast?_eq_some_getLast (List.ne_nil_of_mem ((sortOps_perm ops).mem_iff.mpr ha))⟩
  have hle : last.key ≤ first.key := by
    rw [hsorted, List.head?_cons, Option.any_some] at hbehind
    have hnot := of_decide_eq_false hbehind
    rw [headOf, hlast, cursorHead, Prod.mk.injEq, Prod.mk.injEq] at hhead
    rw [hhead.1, hhead.2.1, hhead.2.2] at hnot
    exact not_lt.mp fun hlt => hnot ((cmp_eq_lt_iff _ _).mpr hlt)
  have hfirst : first.key ≤ b.key := by
    have hmem := (sortOps_perm batch).mem_iff.mpr hb
    have hpair := sortOps_sorted batch
    rw [hsorted] at hmem hpair
    obtain rfl | hmem := List.mem_cons.mp hmem
    · exact le_rfl
    · exact (List.pairwise_cons.mp hpair).1 b hmem
  exact ((le_getLast_sortOps hlast a ha).trans hle).trans hfirst

end Sync

end Treecrdt
