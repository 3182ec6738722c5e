import TreecrdtLean.Core.Deserialize
import TreecrdtLean.Core.Ops

/-!
# The JSON of a version vector (`version_vector.rs`, `serde_impl`)

Outside the core the known state of an operation is the JSON of its vector. The entries are written
sorted by replica, and reading them gives the same map (`deserialize_serialize`); its order may be
another one, so two operations are compared by `Operation.Same`.
-/

namespace Treecrdt

namespace VersionVector

/-- Equality of the maps. -/
def Same (vv other : VersionVector) : Prop := ∀ r, vv.entries.lookup r = other.entries.lookup r

@[refl] theorem Same.refl (vv : VersionVector) : vv.Same vv := fun _ => rfl

def serialize (vv : VersionVector) : List VersionVectorEntry :=
  (vv.entries.entries.map fun e => ⟨e.1.bytes, e.2.frontier, e.2.ranges⟩).mergeSort
    fun a b => a.replica.nats ≤ b.replica.nats

open VersionVectorWire in
/-- A map lists a replica once. -/
theorem versionsOf_entries {l : List (Sigma fun _ : ReplicaId => ReplicaVersion)} (h : l.NodupKeys)
    (r : ReplicaId) :
    versionsOf (.repr (l.map fun e => ⟨e.1.bytes, e.2.frontier, e.2.ranges⟩)) r =
      (l.dlookup r).toList := by
  induction l with
  | nil => rfl
  | cons e l ih =>
    obtain ⟨k, v⟩ := e
    obtain ⟨hk, hl⟩ := List.nodupKeys_cons.mp h
    have hrest := ih hl
    simp only [versionsOf, listed, List.map_cons, List.filter_cons] at hrest ⊢
    by_cases hr : k = r
    · subst hr
      rw [List.dlookup_eq_none.mpr hk] at hrest
      simp only [decide_true, if_true, List.map_cons, hrest, List.dlookup_cons_eq]
      rfl
    · rw [List.dlookup_cons_ne _ _ (Ne.symm hr), ← hrest]
      simp only [hr, decide_false, Bool.false_eq_true, if_false]

/-- What is written is read as the same map. -/
theorem deserialize_serialize (vv : VersionVector) :
    (VersionVectorWire.deserialize (.repr vv.serialize)).Same vv := by
  intro r
  have hperm : (VersionVectorWire.versionsOf (.repr vv.serialize) r).Perm
      (vv.entries.entries.dlookup r).toList := by
    rw [← versionsOf_entries vv.entries.nodupKeys]
    exact (((List.mergeSort_perm _ _).map _).filter _).map _
  rw [VersionVectorWire.lookup_repr, AList.lookup]
  cases hl : vv.entries.entries.dlookup r with
  | none =>
    rw [hl] at hperm
    rw [hperm.eq_nil]
  | some v =>
    rw [hl] at hperm
    rw [List.perm_singleton.mp hperm]
    rfl

/-- Equal maps are written as the same entries. -/
theorem Same.serialize_eq {vv other : VersionVector} (h : vv.Same other) :
    vv.serialize = other.serialize := by
  have hentries : vv.entries.entries.Perm other.entries.entries := by
    refine List.lookup_ext vv.entries.nodupKeys other.entries.nodupKeys fun r v => ?_
    have hr := h r
    rw [AList.lookup, AList.lookup] at hr
    rw [hr]
  let entry (e : Sigma fun _ : ReplicaId => ReplicaVersion) : VersionVectorEntry :=
    ⟨e.1.bytes, e.2.frontier, e.2.ranges⟩
  have hsorted : ∀ l : List VersionVectorEntry,
      (l.mergeSort fun a b => decide (a.replica.nats ≤ b.replica.nats)).Pairwise
        fun a b => a.replica.nats ≤ b.replica.nats := fun l => by
    refine (List.pairwise_mergeSort ?_ ?_ l).imp fun h => decide_eq_true_eq.mp h
    · intro a b c hab hbc
      rw [decide_eq_true_eq] at hab hbc ⊢
      exact hab.trans hbc
    · intro a b
      rw [Bool.or_eq_true, decide_eq_true_eq, decide_eq_true_eq]
      exact le_total _ _
  have hperm : vv.serialize.Perm other.serialize :=
    ((List.mergeSort_perm _ _).trans (hentries.map entry)).trans (List.mergeSort_perm _ _).symm
  refine hperm.eq_of_pairwise (fun a b ha hb hab hba => ?_) (hsorted _) (hsorted _)
  -- Two entries of one replica are one entry.
  have hnats : a.replica.nats = b.replica.nats := le_antisymm hab hba
  obtain ⟨x, hx, rfl⟩ := List.mem_map.mp ((List.mergeSort_perm _ _).mem_iff.mp ha)
  obtain ⟨y, hy, rfl⟩ := List.mem_map.mp ((List.mergeSort_perm _ _).mem_iff.mp hb)
  have hkey : x.1 = y.1 := congrArg ReplicaId.mk (Bytes.nats_injective hnats)
  rw [vv.entries.nodupKeys.eq_of_fst_eq hx (hentries.mem_iff.mpr hy) hkey]

theorem serialize_new : new.serialize = [] := List.mergeSort_nil

end VersionVector

/-! ## The text -/

/-- `serde_json` for version vectors. -/
structure Json where
  print : List VersionVectorEntry → Bytes
  parse : Bytes → Except String VersionVectorWire

namespace Json

variable (json : Json) {vv : VersionVector}

/-- `vv_to_bytes`. -/
def toVec (vv : VersionVector) : Bytes := json.print vv.serialize

/-- `vv_from_bytes`. -/
def fromSlice (bytes : Bytes) : Except String VersionVector := do
  return (← json.parse bytes).deserialize

/-- The text of the entries is read as these entries, and it is not empty. -/
structure Reads (vv : VersionVector) : Prop where
  text : json.toVec vv ≠ []
  parse : json.parse (json.toVec vv) = .ok (.repr vv.serialize)

variable {json}

theorem Reads.fromSlice (h : json.Reads vv) :
    ∃ vv', json.fromSlice (json.toVec vv) = .ok vv' ∧ vv'.Same vv := by
  refine ⟨_, ?_, vv.deserialize_serialize⟩
  rw [Json.fromSlice, h.parse]
  rfl

theorem toVec_congr {other : VersionVector} (h : vv.Same other) :
    json.toVec vv = json.toVec other := congrArg json.print h.serialize_eq

/-- The JSON of the empty vector, and its reading. -/
def ofNew : Json where
  print _ := "\x7b\"entries\":[]\x7d".toList.map fun c => UInt8.ofNat c.toNat
  parse bytes :=
    if bytes = "\x7b\"entries\":[]\x7d".toList.map fun c => UInt8.ofNat c.toNat then
      .ok (.repr [])
    else .error "expected value"

theorem ofNew_reads : ofNew.Reads .new := by
  refine ⟨by decide, ?_⟩
  rw [VersionVector.serialize_new]
  rfl

end Json

/-! ## The same operation -/

/-- Equality of operations, with the known states as maps. -/
structure Operation.Same (a b : Operation) : Prop where
  id : a.metadata.id = b.metadata.id
  lamport : a.metadata.lamport = b.metadata.lamport
  knownState : Option.Rel VersionVector.Same a.metadata.knownState b.metadata.knownState
  kind : a.kind = b.kind

theorem Operation.Same.key {a b : Operation} (h : a.Same b) : a.key = b.key := by
  rw [Operation.key, h.id, h.lamport]
  rfl

@[refl] theorem Operation.Same.refl (op : Operation) : op.Same op := by
  refine ⟨rfl, rfl, ?_, rfl⟩
  cases op.metadata.knownState with
  | none => exact .none
  | some vv => exact .some (.refl vv)

theorem Operation.Same.toVec_eq {json : Json} {a b : Operation} (h : a.Same b) :
    a.metadata.knownState.map json.toVec = b.metadata.knownState.map json.toVec := by
  have hks := h.knownState
  revert hks
  generalize a.metadata.knownState = x
  generalize b.metadata.knownState = y
  rintro (hvv | _)
  · exact congrArg some (Json.toVec_congr hvv)
  · rfl

end Treecrdt
