import TreecrdtLean.Spec.Changes
import TreecrdtLean.Tree.Shape

/-!
# Defensive delete

A node is tombstoned exactly if the deletes of it knew every edit of its subtree: what counts is
the subtree after the whole fold, and every accepted insert, move or payload that touched one of
its nodes, whether it came before the delete or after it.
-/

namespace Treecrdt

open Exec Forest MemoryNodeStore

/-- An operation is accepted by the stores and touches `m`: as the operated node, as the target
parent, or for a move as the previous parent. An insert whose place is refused still writes its
payload, as a payload operation at the same key would. -/
def touches (s : MemoryStores) (op : Operation) (m : NodeId) : Prop :=
  match op.kind with
  | .insert parent node _ payload =>
    (parent ≠ node ∧ s.1.introducesCycle node parent = false ∧ (m = node ∨ m = parent)) ∨
      (payload.isSome ∧ acceptsPayload node ∧ m = node)
  | .move node newParent _ =>
    node ≠ NodeId.ROOT ∧
      (newParent = NodeId.TRASH ∨ s.1.introducesCycle node newParent = false ∧ node ≠ newParent) ∧
      (m = node ∨ m = newParent ∨ (s.1.parent node = some m ∧ m ≠ NodeId.TRASH))
  | .payload node _ => acceptsPayload node ∧ m = node
  | .delete _ => False
  | .tombstone _ => False
where
  acceptsPayload (node : NodeId) : Prop :=
    newerThan op ((s.2.entries.lookup node).bind (·.lastWriter)) = true

/-- `op` touched `m` in the fold over `ops`. -/
def TouchedIn (ops : List Operation) (m : NodeId) (op : Operation) : Prop :=
  ∃ pre post s, ops = pre ++ op :: post ∧
    forwardAll pre (MemoryNodeStore.default, ({} : MemoryPayloadStore)) = some (.ok (), s) ∧
    touches s op m

/-- What the deletes and tombstones of a node knew. -/
def deleteDots (ops : List Operation) (n : NodeId) : Set (ReplicaId × ℕ) :=
  {d | ∃ op ∈ ops, op.kind.Deletes n ∧ d ∈ op.dots}

/-! ## The model touches what the stores touch -/

theorem touches_iff {s : MemoryStores} {d : Doc} (h : ModelsDoc s d) (hr : Acyclic d.rows.up)
    (op : Operation) {m : NodeId} (hm : m ≠ NodeId.TRASH) :
    touches s op m ↔ d.Touches op m := by
  have hc : ∀ n p, s.1.introducesCycle n p = false ↔ ¬ d.rows.Cyclic n p := fun n p => by
    rw [← introducesCycle_iff h.1 hr, Bool.not_eq_true]
  have hw : ∀ n, touches.acceptsPayload s op n ↔
      newerThan op (d.payloads n).lastWriter = true := fun n => by
    rw [touches.acceptsPayload, (h.2 n).2]
  have hp : s.1.parent = d.rows.parent := MemoryNodeStore.Models.parent h.1
  unfold touches Doc.Touches
  cases op.kind with
  | insert p n key payload =>
    simp only [Rows.target_insert_isSome, hc, hw, and_assoc]
  | move n p key =>
    have hmp : m = p ∧ p ≠ NodeId.TRASH ↔ m = p := and_iff_left_of_imp fun he => he ▸ hm
    simp only [Rows.target_move_isSome, hc, hp, and_assoc, hmp]
  | delete n => rfl
  | tombstone n => rfl
  | payload n payload => simp only [hw]

/-! ## Runs that leave `ROOT` and `TRASH` alone -/

theorem Doc.special_parent_none {ops : List Operation}
    (hs : ∀ op ∈ ops, ¬ op.kind.node.special) :
    ∀ n, n.special → (Doc.initial.applyAll Backend.memory ops).rows.parent n = none := by
  induction ops using List.reverseRecOn with
  | nil =>
    intro n hn
    rcases hn with rfl | rfl <;> rfl
  | append_singleton ops op ih =>
    rw [Doc.applyAll, List.foldl_append]
    refine (Doc.special_parent_apply _ op).mpr ⟨ih fun x hx => hs x (by simp [hx]), fun h => ?_⟩
    exact hs op (by simp) h.1

/-- Where `ROOT` and `TRASH` have no parents, the listed nodes below a node are all the nodes
below it. -/
theorem above_listed_iff {r : Rows} (htrash : r.parent NodeId.TRASH = none) {m n : NodeId}
    (hn : n ≠ NodeId.TRASH) : Above r.listed m n ↔ Above r.parent m n := by
  constructor
  · exact fun h => Relation.ReflTransGen.mono (fun a b hab => (Rows.listed_eq_some.mp hab).2) m n h
  · intro h
    induction h using Relation.ReflTransGen.head_induction_on with
    | refl => exact Relation.ReflTransGen.refl
    | @head a b hab hbn ih =>
      refine Relation.ReflTransGen.head (Rows.listed_eq_some.mpr ⟨?_, hab⟩) ih
      rintro rfl
      rcases above_iff.mp hbn with he | ⟨c, hc, -⟩
      · exact hn he.symm
      · rw [htrash] at hc
        cases hc

/-- The fold that the stores ran and the documents it stands for touch the same nodes. -/
theorem touchedIn_iff {ops : List Operation} {m : NodeId} (hm : m ≠ NodeId.TRASH)
    (op : Operation) : TouchedIn ops m op ↔ Doc.TouchedBy ops m op := by
  have hacyc := fun pre => Doc.acyclic_applyAll Doc.acyclic_initial Backend.memory pre
  constructor
  · rintro ⟨pre, post, s, he, hs, ht⟩
    obtain ⟨s', hs', hmod⟩ := TreeCrdt.exists_forwardAll pre
    rw [hs] at hs'
    cases hs'
    exact ⟨pre, post, he, (touches_iff hmod (hacyc pre) op hm).mp ht⟩
  · rintro ⟨pre, post, he, ht⟩
    obtain ⟨s, hs, hmod⟩ := TreeCrdt.exists_forwardAll pre
    exact ⟨pre, post, s, he, hs, (touches_iff hmod (hacyc pre) op hm).mpr ht⟩

/-- `TRASH` is below no other node. -/
theorem ne_trash_of_above {r : Rows} (htrash : r.parent NodeId.TRASH = none) {m n : NodeId}
    (hn : n ≠ NodeId.TRASH) (h : Above r.parent m n) : m ≠ NodeId.TRASH := by
  rintro rfl
  rcases above_iff.mp h with he | ⟨c, hc, -⟩
  · exact hn he.symm
  · rw [htrash] at hc
    cases hc

/-! ## The whole fold -/

theorem accounted_forwardAll {ops : List Operation} (hs : ∀ op ∈ ops, ¬ op.kind.node.special) :
    Doc.Accounted ops (Doc.initial.applyAll Backend.memory ops).rows := by
  refine Doc.accounted_applyAll hs fun ops => ?_
  obtain ⟨s, -, hmod⟩ := TreeCrdt.exists_forwardAll ops
  exact LawfulNodeStore.parent_isSome s.1 _ _ hmod.1

/-- The condition of a tombstone, read off the rows of the fold. -/
theorem tombstoned_iff {ops : List Operation} (hc : ∀ op ∈ ops, 0 < op.metadata.id.counter)
    (hs : ∀ op ∈ ops, ¬ op.kind.node.special) (n : NodeId) :
    (Doc.initial.applyAll Backend.memory ops).rows.Tombstoned n ↔
      (∃ op ∈ ops, op.kind.Deletes n) ∧
      ∀ m op, Above (Doc.initial.applyAll Backend.memory ops).rows.parent m n →
        TouchedIn ops m op → op.dots ⊆ deleteDots ops n := by
  have hacc := accounted_forwardAll hs
  have hmem : ∀ {m op}, TouchedIn ops m op → op ∈ ops := by
    rintro m op ⟨pre, post, s, rfl, -⟩
    simp
  have htrash := Doc.special_parent_none hs NodeId.TRASH (Or.inl rfl)
  generalize (Doc.initial.applyAll Backend.memory ops).rows = r at hacc htrash
  by_cases hdel : ∃ op ∈ ops, op.kind.Deletes n
  · -- A deleted node is not `TRASH`, so the deletes have to know everything below it.
    have hn : n ≠ NodeId.TRASH := by
      rintro rfl
      obtain ⟨op, hop, hk | hk⟩ := hdel <;> exact hs op hop (by rw [hk]; exact Or.inl rfl)
    obtain ⟨vv, hvv⟩ := Option.isSome_iff_exists.mp ((hacc.isSome n).mpr hdel)
    have hdots : vv.dots = deleteDots ops n := by
      ext d
      have hop : d ∈ deleteDots ops n ↔ d ∈ r.deletedDots n := by
        rw [hacc.deleted]
        refine exists_congr fun op => and_congr_right fun hop => and_congr_right fun _ => ?_
        rw [Operation.merged_eq (hc op hop)]
      rw [hop]
      simp [Rows.deletedDots, hvv]
    rw [Rows.Tombstoned]
    simp only [hvv, Option.some.injEq, exists_eq_left', hdots, hdel, true_and]
    constructor
    · intro h m op hm ht d hd
      refine h ⟨m, (above_listed_iff htrash hn).mpr hm, (hacc.last m d).mpr ⟨op, ?_, ?_⟩⟩
      · exact (touchedIn_iff (ne_trash_of_above htrash hn hm) op).mp ht
      · rwa [Operation.merged_eq (hc op (hmem ht))]
    · rintro h d ⟨m, hm, hd⟩
      have hm' := (above_listed_iff htrash hn).mp hm
      obtain ⟨op, ht, hd⟩ := (hacc.last m d).mp hd
      replace ht := (touchedIn_iff (ne_trash_of_above htrash hn hm') op).mpr ht
      exact h m op hm' ht (op.merged_subset hd)
  · have hnone : (r.row n).deletedAt = none := by
      rw [← Option.not_isSome_iff_eq_none, hacc.isSome]
      exact hdel
    simp [Rows.Tombstoned, hnone, hdel]

/-- **Defensive delete.** After the canonical fold a node is tombstoned exactly if it was deleted
and its deletes knew the dot and the known state of every operation that touched a node of its
subtree; so an edit below a node that no delete of the node knew keeps the node visible. -/
theorem isTombstoned_forwardAll (ops : List Operation)
    (hc : ∀ op ∈ ops, 0 < op.metadata.id.counter) (hs : ∀ op ∈ ops, ¬ op.kind.node.special) :
    ∃ s : MemoryStores,
      forwardAll (sortOps ops) (MemoryNodeStore.default, {}) = some (.ok (), s) ∧
      ∀ n, ∃ b s', TreeCrdt.isTombstoned n s.1 = some (.ok b, s') ∧
        (b = true ↔ (∃ op ∈ ops, op.kind.Deletes n) ∧
          ∀ m op, Above s.1.parent m n → TouchedIn (sortOps ops) m op →
            op.dots ⊆ deleteDots ops n) ∧
        ∀ m op, Above s.1.parent m n → TouchedIn (sortOps ops) m op →
          (op.metadata.id.replica, op.metadata.id.counter.toNat) ∉ deleteDots ops n →
            b = false := by
  have hmem : ∀ op, op ∈ sortOps ops ↔ op ∈ ops := fun op => (sortOps_perm ops).mem_iff
  have hc' : ∀ op ∈ sortOps ops, 0 < op.metadata.id.counter := fun op h => hc op ((hmem op).mp h)
  have hs' : ∀ op ∈ sortOps ops, ¬ op.kind.node.special := fun op h => hs op ((hmem op).mp h)
  obtain ⟨s, hrun, hmod⟩ := TreeCrdt.exists_forwardAll (sortOps ops)
  have hspecial := Doc.special_parent_none hs'
  have hnormal := (accounted_forwardAll hs').normal
  have hacyc : Acyclic (Doc.initial.applyAll Backend.memory (sortOps ops)).rows.listed := by
    refine (Doc.acyclic_applyAll Doc.acyclic_initial Backend.memory (sortOps ops)).of_imp
      fun a b hab => ?_
    have hp := (Rows.listed_eq_some.mp hab).2
    rw [Rows.up, if_neg fun hsp => by rw [hspecial a hsp] at hp; cases hp]
    exact hp
  refine ⟨s, hrun, fun n => ?_⟩
  obtain ⟨b, s', hb, hiff, -⟩ := isTombstoned_runs hacyc hnormal _ n s.1 hmod.1
  rw [tombstoned_iff hc' hs', ← MemoryNodeStore.Models.parent hmod.1] at hiff
  have hdots : deleteDots (sortOps ops) n = deleteDots ops n := by simp [deleteDots, hmem]
  simp only [hmem, hdots] at hiff
  refine ⟨b, s', hb, hiff, fun m op hm ht hnot => ?_⟩
  rw [← Bool.not_eq_true, hiff]
  exact fun h => hnot (h.2 m op hm ht (Or.inl rfl))

/-- A delete that knew nothing, and an insert under the deleted node that comes before it. -/
theorem isTombstoned_forwardAll_insert :
    let ops : List Operation :=
      [.insert ⟨[1]⟩ 1 1 NodeId.ROOT ⟨5⟩ [0, 7], .insert ⟨[1]⟩ 2 2 ⟨5⟩ ⟨6⟩ [0, 7],
        .delete ⟨[2]⟩ 1 3 ⟨5⟩ none]
    ∃ s : MemoryStores,
      forwardAll (sortOps ops) (MemoryNodeStore.default, {}) = some (.ok (), s) ∧
      ∀ n, ∃ b s', TreeCrdt.isTombstoned n s.1 = some (.ok b, s') ∧
        (b = true ↔ (∃ op ∈ ops, op.kind.Deletes n) ∧
          ∀ m op, Above s.1.parent m n → TouchedIn (sortOps ops) m op →
            op.dots ⊆ deleteDots ops n) ∧
        ∀ m op, Above s.1.parent m n → TouchedIn (sortOps ops) m op →
          (op.metadata.id.replica, op.metadata.id.counter.toNat) ∉ deleteDots ops n →
            b = false :=
  isTombstoned_forwardAll _ (by decide) (by decide)

end Treecrdt
