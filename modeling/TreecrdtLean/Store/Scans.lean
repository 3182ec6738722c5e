import TreecrdtLean.Store.Postgres
import TreecrdtLean.Store.SqliteStorage
import TreecrdtLean.Tree.Converge

/-!
# What a replay sees of a log

A replay asks `scan_since(0)` for all operations, but the storages give those whose Lamport time is
greater. So an operation of Lamport time 0 is applied in order and gone behind the next replay
(`seesAll_iff`). In Postgres that is also so for a time with a sign bit.
-/

namespace Treecrdt

open Exec

/-- A replay over the log sees all operations of it: each is visited once, in their order, and both
a replay and a late operation leave the stores with their fold. -/
structure SeesAll {S : Type} [Storage S] (ops : List Operation) (s : S) : Prop where
  scanned : ∃ backs, Storage.scanSince s 0 = backs.map .ok ∧
    List.Forall₂ Operation.Same backs (sortOps ops)
  replayed : ∀ {C : Type} [Clock C] (t : TreeCrdt S C MemoryNodeStore MemoryPayloadStore),
    t.storage = s → ∃ t' backs, TreeCrdt.replayFromStorage t = some (.ok (), t') ∧
      List.Forall₂ Operation.Same backs (sortOps ops) ∧
      forwardAll backs (MemoryNodeStore.default, {}) = some (.ok (), (t'.nodes, t'.payloads))
  late : ∀ {C : Type} [Clock C] (t : TreeCrdt S C MemoryNodeStore MemoryPayloadStore)
    (op : Operation), Storage.apply op t.storage = some (.ok true, s) → ¬ t.isInOrder op →
    ∃ t' backs, TreeCrdt.applyRemote op t = some (.ok (), t') ∧
      List.Forall₂ Operation.Same backs (sortOps ops) ∧
      forwardAll backs (MemoryNodeStore.default, {}) = some (.ok (), (t'.nodes, t'.payloads))

section

variable {S : Type} [Storage S] {ops backs : List Operation} {s : S}

/-- A replay ends in the fold of what is scanned. -/
theorem replayFromStorage_fold {C : Type} [Clock C]
    (t : TreeCrdt S C MemoryNodeStore MemoryPayloadStore)
    (hscan : Storage.scanSince t.storage 0 = backs.map .ok) :
    ∃ t', TreeCrdt.replayFromStorage t = some (.ok (), t') ∧
      forwardAll backs (MemoryNodeStore.default, {}) = some (.ok (), (t'.nodes, t'.payloads)) := by
  obtain ⟨stores, hfold, -⟩ := TreeCrdt.exists_forwardAll backs
  obtain ⟨opCount, hrun⟩ := TreeCrdt.replayFromStorage_run hscan rfl rfl hfold
  exact ⟨_, hrun, hfold⟩

/-- A scan that visits all operations is all that a replay needs. -/
theorem seesAll_iff_scans : SeesAll ops s ↔ ∃ backs, Storage.scanSince s 0 = backs.map .ok ∧
    List.Forall₂ Operation.Same backs (sortOps ops) := by
  refine ⟨SeesAll.scanned, fun ⟨backs, hscan, hsame⟩ => ⟨⟨backs, hscan, hsame⟩, ?_, ?_⟩⟩
  · intro C _ t ht
    subst ht
    obtain ⟨t', hrun, hfold⟩ := replayFromStorage_fold t hscan
    exact ⟨t', backs, hrun, hsame, hfold⟩
  · intro C _ t op happly hlate
    rw [TreeCrdt.applyRemote_replay happly hlate]
    obtain ⟨t', hrun, hfold⟩ :=
      replayFromStorage_fold { TreeCrdt.observed op t with storage := s } hscan
    exact ⟨t', backs, hrun, hsame, hfold⟩

end

/-! ## In memory -/

theorem Accepted.scans_iff {ops : List Operation} {s : MemoryStorage}
    (h : Accepted {} ops s) :
    (∃ backs, Storage.scanSince s 0 = backs.map .ok ∧
      List.Forall₂ Operation.Same backs (sortOps ops)) ↔
        ∀ op ∈ ops, op.metadata.lamport ≠ 0 := by
  rw [← h.memory]
  constructor
  · rintro ⟨backs, hscan, hsame⟩ op hop hzero
    obtain ⟨back, hback, hop⟩ := exists_back hsame hop
    have hscanned : (Except.ok back : Except Error Operation) ∈ Storage.scanSince s 0 := by
      rw [hscan]
      exact List.mem_map_of_mem hback
    obtain ⟨_, hmem, heq⟩ := List.mem_map.mp hscanned
    cases heq
    have hpos := of_decide_eq_true (List.mem_filter.mp ((sortOps_perm _).mem_iff.mp hmem)).2
    rw [hop.lamport, hzero] at hpos
    exact absurd hpos (by decide)
  · intro hpos
    exact ⟨_, TreeCrdt.scanSince_eq fun op hop => UInt64.pos_iff_ne_zero.mpr (hpos op hop),
      List.forall₂_same.mpr fun op _ => .refl op⟩

/-! ## Which logs are seen -/

open Postgres in
/-- **Which logs a replay sees.** In memory, those without an operation of Lamport time 0. In
Postgres, also none may have a Lamport time or a counter with its top bit set. -/
theorem seesAll_iff {Ref : Type} [DecidableEq Ref] (json : Json) (opRef : OperationId → Ref)
    (ops : List Operation) :
    (∀ s : MemoryStorage, Accepted {} ops s →
      (SeesAll ops s ↔ ∀ op ∈ ops, op.metadata.lamport ≠ 0)) ∧
    ∀ s : PgOpStorage json opRef, Accepted {} ops s →
      (∀ op ∈ ops, ∀ vv ∈ op.metadata.knownState, json.Reads vv) →
      (SeesAll ops s ↔ ∀ op ∈ ops, op.metadata.lamport ≠ 0 ∧ op.FitsI64) := by
  refine ⟨fun s haccepted => seesAll_iff_scans.trans haccepted.scans_iff,
    fun s haccepted hjson => seesAll_iff_scans.trans ⟨fun hscan => ?_, fun h => ?_⟩⟩
  · have hscans : ScansAll ops s := hscan
    exact fun op hop => ⟨hscans.lamport_ne_zero op hop, hscans.fits op hop⟩
  · have hlamport : ∀ op ∈ ops, 1 ≤ op.metadata.lamport.toNat := fun op hop =>
      Nat.one_le_iff_ne_zero.mpr fun hzero => (h op hop).1 (UInt64.toNat_inj.mp hzero)
    exact (scansAll_iff json opRef ops s haccepted hlamport hjson).mpr fun op hop => (h op hop).2

/-- The first operation of a log in memory is accepted. -/
theorem accepted_first (op : Operation) :
    Accepted {} [op] ({ ops := [op], ids := [op.metadata.id] } : MemoryStorage) := by
  show Accepted _ ([] ++ [op]) _
  exact .accept .start rfl

open Postgres in
theorem seesAll_iff_insert :
    let op : Operation := .insert ⟨[1]⟩ 1 1 NodeId.ROOT ⟨7⟩ []
    SeesAll [op] ({ ops := [op], ids := [op.metadata.id] } : MemoryStorage) ∧
      SeesAll [op] (⟨[(op.metadata.id, rowOf .ofNew op)]⟩ :
        PgOpStorage .ofNew (id : OperationId → OperationId)) := by
  intro op
  obtain ⟨hmemory, hpg⟩ := seesAll_iff .ofNew (id : OperationId → OperationId) [op]
  refine ⟨(hmemory _ (accepted_first op)).mpr ?_, (hpg _ (accepted_singleton rfl) ?_).mpr ?_⟩ <;>
    intro o ho <;> rw [List.mem_singleton.mp ho]
  · decide
  · rintro vv ⟨⟩
  · exact ⟨by decide, by decide, by decide⟩

/-- An operation of Lamport time 0 is gone behind a replay. -/
theorem zero_not_seesAll :
    ¬ ∀ (ops : List Operation) (s : MemoryStorage), Accepted {} ops s → SeesAll ops s := by
  intro h
  let op : Operation := .insert ⟨[1]⟩ 1 0 NodeId.ROOT ⟨7⟩ []
  have hsees : SeesAll [op] _ := h [op] _ (accepted_first op)
  exact (accepted_first op).scans_iff.mp hsees.scanned op List.mem_cons_self rfl

end Treecrdt
