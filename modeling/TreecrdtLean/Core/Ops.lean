import Mathlib.Data.List.Sort
import TreecrdtLean.Core.VersionVector

/-!
# Operations and their order (`ops.rs`)

Every operation carries its id, its Lamport time and, for a delete, the `known_state` of the
replica that minted it. The canonical order of operations is the order of their keys
`(lamport, replica, counter)`; replica ids compare as byte strings.
-/

namespace Treecrdt

/-- Metadata that accompanies every operation (`meta`). -/
structure OperationMetadata where
  id : OperationId
  lamport : Lamport
  knownState : Option VersionVector
  deriving DecidableEq

/-- The CRDT tree mutations. -/
inductive OperationKind where
  | insert (parent node : NodeId) (orderKey : Bytes) (payload : Option Bytes)
  | move (node newParent : NodeId) (orderKey : Bytes)
  | delete (node : NodeId)
  | tombstone (node : NodeId)
  | payload (node : NodeId) (payload : Option Bytes)
  deriving DecidableEq

/-- Full operation envelope. -/
structure Operation where
  metadata : OperationMetadata
  kind : OperationKind
  deriving DecidableEq

def OperationKind.node : OperationKind → NodeId
  | .insert _ node _ _ => node
  | .move node _ _ => node
  | .delete node => node
  | .tombstone node => node
  | .payload node _ => node

namespace Operation

def insertWithOptionalPayload (replica : ReplicaId) (counter : UInt64) (lamport : Lamport)
    (parent node : NodeId) (orderKey : Bytes) (payload : Option Bytes) : Operation :=
  { metadata := { id := ⟨replica, counter⟩, lamport, knownState := none }
    kind := .insert parent node orderKey payload }

def insert (replica : ReplicaId) (counter : UInt64) (lamport : Lamport) (parent node : NodeId)
    (orderKey : Bytes) : Operation :=
  insertWithOptionalPayload replica counter lamport parent node orderKey none

def insertWithPayload (replica : ReplicaId) (counter : UInt64) (lamport : Lamport)
    (parent node : NodeId) (orderKey payload : Bytes) : Operation :=
  insertWithOptionalPayload replica counter lamport parent node orderKey (some payload)

def moveNode (replica : ReplicaId) (counter : UInt64) (lamport : Lamport)
    (node newParent : NodeId) (orderKey : Bytes) : Operation :=
  { metadata := { id := ⟨replica, counter⟩, lamport, knownState := none }
    kind := .move node newParent orderKey }

def delete (replica : ReplicaId) (counter : UInt64) (lamport : Lamport) (node : NodeId)
    (knownState : Option VersionVector) : Operation :=
  { metadata := { id := ⟨replica, counter⟩, lamport, knownState }, kind := .delete node }

def tombstone (replica : ReplicaId) (counter : UInt64) (lamport : Lamport) (node : NodeId) :
    Operation :=
  { metadata := { id := ⟨replica, counter⟩, lamport, knownState := none }
    kind := .tombstone node }

def payload (replica : ReplicaId) (counter : UInt64) (lamport : Lamport) (node : NodeId)
    (payload : Option Bytes) : Operation :=
  { metadata := { id := ⟨replica, counter⟩, lamport, knownState := none }
    kind := .payload node payload }

def setPayload (replica : ReplicaId) (counter : UInt64) (lamport : Lamport) (node : NodeId)
    (payload : Bytes) : Operation :=
  .payload replica counter lamport node (some payload)

def clearPayload (replica : ReplicaId) (counter : UInt64) (lamport : Lamport) (node : NodeId) :
    Operation :=
  .payload replica counter lamport node none

end Operation

/-! ## The canonical order -/

/-- `(lamport, replica, counter)`, as numbers, ordered lexicographically. -/
abbrev OpKey := Lex (ℕ × Lex (List ℕ × ℕ))

def opKey (lamport : Lamport) (replica : Bytes) (counter : UInt64) : OpKey :=
  toLex (lamport.toNat, toLex (replica.nats, counter.toNat))

/-- Deterministic tie-breaker used to order operations with equal Lamport timestamps. -/
def cmpOpKey (aLamport : Lamport) (aReplica : Bytes) (aCounter : UInt64)
    (bLamport : Lamport) (bReplica : Bytes) (bCounter : UInt64) : Ordering :=
  cmp (opKey aLamport aReplica aCounter) (opKey bLamport bReplica bCounter)

/-- The key of an operation. -/
def Operation.key (op : Operation) : OpKey :=
  opKey op.metadata.lamport op.metadata.id.replica.bytes op.metadata.id.counter

/-- Canonical ordering for full operations. -/
def cmpOps (a b : Operation) : Ordering :=
  cmpOpKey a.metadata.lamport a.metadata.id.replica.bytes a.metadata.id.counter
    b.metadata.lamport b.metadata.id.replica.bytes b.metadata.id.counter

/-- `ops.sort_by(cmp_ops)`: a stable sort. -/
def sortOps (ops : List Operation) : List Operation := ops.mergeSort fun a b => cmpOps a b ≠ .gt

theorem cmpOps_eq (a b : Operation) : cmpOps a b = cmp a.key b.key := rfl

theorem cmpOps_ne_gt (a b : Operation) : cmpOps a b ≠ .gt ↔ a.key ≤ b.key := by
  rw [cmpOps_eq, ne_eq, cmp_eq_gt_iff, not_lt]

theorem opKey_inj {l l' : Lamport} {r r' : Bytes} {c c' : UInt64} :
    opKey l r c = opKey l' r' c' ↔ l = l' ∧ r = r' ∧ c = c' := by
  simp only [opKey, toLex_inj, Prod.mk.injEq, UInt64.toNat_inj, Bytes.nats_injective.eq_iff]

/-- Operations with one key have one id. -/
theorem Operation.id_of_key {a b : Operation} (h : a.key = b.key) :
    a.metadata.id = b.metadata.id := by
  obtain ⟨-, hr, hc⟩ := opKey_inj.mp h
  rcases ha : a.metadata.id with ⟨⟨ra⟩, ca⟩
  rcases hb : b.metadata.id with ⟨⟨rb⟩, cb⟩
  rw [ha, hb] at hr hc
  simp_all

@[simp] theorem sortOps_nil : sortOps [] = [] := List.mergeSort_nil

theorem sortOps_perm (ops : List Operation) : (sortOps ops).Perm ops := List.mergeSort_perm _ _

theorem sortOps_sorted (ops : List Operation) :
    (sortOps ops).Pairwise fun a b => a.key ≤ b.key := by
  have hsorted : (sortOps ops).Pairwise fun a b => decide (cmpOps a b ≠ .gt) := by
    refine List.pairwise_mergeSort ?_ ?_ ops
    · intro a b c hab hbc
      rw [decide_eq_true_eq, cmpOps_ne_gt] at hab hbc ⊢
      exact hab.trans hbc
    · intro a b
      rw [Bool.or_eq_true, decide_eq_true_eq, decide_eq_true_eq, cmpOps_ne_gt, cmpOps_ne_gt]
      exact le_total _ _
  exact hsorted.imp fun {a b} h => by rwa [decide_eq_true_eq, cmpOps_ne_gt] at h

/-- No two operations of the list share an id. -/
def DistinctIds (ops : List Operation) : Prop := (ops.map fun op => op.metadata.id).Nodup

instance (ops : List Operation) : Decidable (DistinctIds ops) :=
  inferInstanceAs (Decidable (List.Nodup _))

theorem DistinctIds.perm {ops ops' : List Operation} (hid : DistinctIds ops) (h : ops.Perm ops') :
    DistinctIds ops' := (h.map _).nodup_iff.mp hid

/-- Operations with distinct ids sort into one list, in whatever order they come. -/
theorem sortOps_eq_of_perm {ops ops' : List Operation} (h : ops.Perm ops')
    (hid : DistinctIds ops) : sortOps ops = sortOps ops' := by
  have hperm : (sortOps ops).Perm (sortOps ops') :=
    ((sortOps_perm ops).trans h).trans (sortOps_perm ops').symm
  refine hperm.eq_of_pairwise (fun a b ha hb hab hba => ?_) (sortOps_sorted _) (sortOps_sorted _)
  have ha' := (sortOps_perm ops).mem_iff.mp ha
  have hb' := h.mem_iff.mpr ((sortOps_perm ops').mem_iff.mp hb)
  exact List.inj_on_of_nodup_map hid ha' hb' (Operation.id_of_key (le_antisymm hab hba))

theorem sortOps_of_sorted {ops : List Operation} (h : ops.Pairwise fun a b => a.key ≤ b.key) :
    sortOps ops = ops :=
  List.mergeSort_of_pairwise (h.imp fun {a b} hab => by
    rw [decide_eq_true_eq, cmpOps_ne_gt]
    exact hab)

/-- A newest operation sorts to the end. -/
theorem sortOps_append {ops : List Operation} {op : Operation} (hid : DistinctIds (ops ++ [op]))
    (h : ∀ a ∈ ops, a.key ≤ op.key) : sortOps (ops ++ [op]) = sortOps ops ++ [op] := by
  have hsorted : (sortOps ops ++ [op]).Pairwise fun a b => a.key ≤ b.key :=
    List.pairwise_append.mpr ⟨sortOps_sorted ops, List.pairwise_singleton _ _,
      fun a ha b hb => by
        rw [List.mem_singleton.mp hb]
        exact h a ((sortOps_perm ops).mem_iff.mp ha)⟩
  rw [sortOps_eq_of_perm ((sortOps_perm ops).symm.append_right [op]) hid,
    sortOps_of_sorted hsorted]

/-- The last of the sorted operations has the greatest key. -/
theorem le_getLast_sortOps {ops : List Operation} {last : Operation}
    (h : (sortOps ops).getLast? = some last) : ∀ a ∈ ops, a.key ≤ last.key := by
  obtain ⟨ys, hys⟩ := List.getLast?_eq_some_iff.mp h
  intro a ha
  have hsorted := sortOps_sorted ops
  rw [hys, List.pairwise_append] at hsorted
  have hmem := (sortOps_perm ops).mem_iff.mpr ha
  rw [hys, List.mem_append] at hmem
  rcases hmem with hmem | hmem
  · exact hsorted.2.2 a hmem last (by simp)
  · rw [List.mem_singleton.mp hmem]

end Treecrdt
