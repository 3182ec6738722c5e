import TreecrdtLean.Tree.Converge

/-!
# The shape of the tree

From the reset store any operations leave the nodes other than `ROOT` and `TRASH` a forest. `ROOT`
and `TRASH` themselves stay at the top only while no operation hangs them somewhere: `apply_move`
refuses `ROOT`, but `apply_insert` takes both and `apply_move` takes `TRASH`. Once hung they stay
hung, so the shape holds at the end exactly if no step of the run hung one of them.
-/

namespace Treecrdt

open Exec Forest

namespace MemoryNodeStore

/-- The parents among the nodes other than `ROOT` and `TRASH`. -/
def innerParent (s : MemoryNodeStore) (n : NodeId) : Option NodeId :=
  if n.special then none else (s.parent n).filter fun p => ¬ p.special

/-- `ROOT` and `TRASH` are at the top, the other nodes are a forest, and no chain of parents that
starts at `ROOT` or at a child of `ROOT` returns to its start. -/
structure TreeShape (s : MemoryNodeStore) : Prop where
  root : s.parent NodeId.ROOT = none
  trash : s.parent NodeId.TRASH = none
  forest : Acyclic s.innerParent
  rooted : ∀ n, n = NodeId.ROOT ∨ s.parent n = some NodeId.ROOT → ¬ StrictlyAbove s.parent n n

/-- The cycle check on a store. -/
def introducesCycle (s : MemoryNodeStore) (node parent : NodeId) : Bool :=
  match Treecrdt.introducesCycle node parent s with
  | some (.ok b, _) => b
  | _ => false

/-- The operation hangs `ROOT` or `TRASH` somewhere: an accepted insert of one of them, or an
accepted move of `TRASH`. -/
def hangsSpecial (s : MemoryNodeStore) (op : Operation) : Prop :=
  match op.kind with
  | .insert parent node _ _ =>
    node.special ∧ parent ≠ node ∧ s.introducesCycle node parent = false
  | .move node newParent _ =>
    node = NodeId.TRASH ∧ (newParent = NodeId.TRASH ∨ s.introducesCycle node newParent = false)
  | _ => False

instance (s : MemoryNodeStore) (op : Operation) : Decidable (s.hangsSpecial op) := by
  unfold hangsSpecial
  split <;> infer_instance

theorem introducesCycle_iff {s : MemoryNodeStore} {r : Rows} {f : NodeId → Bool}
    (h : Models s (r, f)) (hr : Acyclic r.up) (node parent : NodeId) :
    s.introducesCycle node parent = true ↔ r.Cyclic node parent := by
  obtain ⟨b, s', hrun, hb, -⟩ := introducesCycle_runs hr f node parent s h
  rw [introducesCycle, hrun, hb]

theorem hangsSpecial_iff {s : MemoryNodeStore} {r : Rows} {f : NodeId → Bool}
    (h : Models s (r, f)) (hr : Acyclic r.up) (op : Operation) :
    s.hangsSpecial op ↔ op.kind.node.special ∧ (r.target op.kind).isSome := by
  have hc : ∀ n p, s.introducesCycle n p = false ↔ ¬ r.Cyclic n p := fun n p => by
    rw [← introducesCycle_iff h hr, Bool.not_eq_true]
  unfold hangsSpecial
  cases op.kind with
  | insert p n key payload => simp only [OperationKind.node, Rows.target_insert_isSome, hc]
  | move n p key =>
    simp only [OperationKind.node, Rows.target_move_isSome, hc, NodeId.special]
    constructor
    · rintro ⟨rfl, hp⟩
      refine ⟨Or.inl rfl, by decide, ?_⟩
      by_cases hT : p = NodeId.TRASH
      · exact Or.inl hT
      · exact Or.inr ⟨hp.resolve_left hT, Ne.symm hT⟩
    · rintro ⟨hn, hroot, hp⟩
      exact ⟨hn.resolve_right hroot, hp.imp_right And.left⟩
  | delete n => simp [Rows.target]
  | tombstone n => simp [Rows.target]
  | payload n payload => simp [Rows.target]

/-! ## The shape from the parents of `ROOT` and `TRASH` -/

/-- A chain of inner parents is a chain that the cycle check walks. -/
theorem innerParent_acyclic {s : MemoryNodeStore} {r : Rows} {f : NodeId → Bool}
    (h : Models s (r, f)) (hr : Acyclic r.up) : Acyclic s.innerParent := by
  refine hr.of_imp fun a b hab => ?_
  obtain ⟨rfl, -, -⟩ := h
  simp only [innerParent] at hab
  split at hab
  · cases hab
  · rename_i hs
    rw [Rows.up, if_neg hs, view_parent]
    exact (Option.filter_eq_some_iff.mp hab).1

/-- Where `ROOT` and `TRASH` have no parents, the chains that the cycle check walks are all there
are. -/
theorem treeShape_iff {s : MemoryNodeStore} {r : Rows} {f : NodeId → Bool}
    (h : Models s (r, f)) (hr : Acyclic r.up) :
    s.TreeShape ↔ r.parent NodeId.ROOT = none ∧ r.parent NodeId.TRASH = none := by
  have hp := h.parent
  constructor
  · intro hs
    exact ⟨hp ▸ hs.root, hp ▸ hs.trash⟩
  · rintro ⟨hroot, htrash⟩
    have hall : Acyclic s.parent := hr.of_imp fun a b hab => ?_
    · exact ⟨by rw [hp, hroot], by rw [hp, htrash], innerParent_acyclic h hr, fun n _ => hall n⟩
    rw [hp] at hab
    unfold Rows.up
    split
    · rename_i hs
      rcases hs with rfl | rfl
      · rw [htrash] at hab
        cases hab
      · rw [hroot] at hab
        cases hab
    · exact hab

end MemoryNodeStore

open MemoryNodeStore

/-- `ROOT` and `TRASH` have no parents after an operation exactly if they had none before and the
operation hangs neither. -/
theorem Doc.special_parent_apply (d : Doc) (op : Operation) :
    (∀ n, n.special → (d.apply Backend.memory op).rows.parent n = none) ↔
      (∀ n, n.special → d.rows.parent n = none) ∧
        ¬ (op.kind.node.special ∧ (d.rows.target op.kind).isSome) := by
  rw [Doc.parent_apply fun _ => rfl]
  rcases ht : d.rows.target op.kind with _ | p
  · simp [Doc.hang]
  · simp only [Doc.hang, Option.isSome_some, and_true]
    constructor
    · intro h
      have hns : ¬ op.kind.node.special := fun hs => by
        have := h _ hs
        rw [Function.update_self] at this
        cases this
      refine ⟨fun n hn => ?_, hns⟩
      have := h n hn
      rwa [Function.update_of_ne fun he => hns (by rwa [← he])] at this
    · rintro ⟨h, hns⟩ n hn
      rw [Function.update_of_ne fun he => hns (by rwa [← he])]
      exact h n hn

/-- No step of the run hangs `ROOT` or `TRASH`. -/
def KeepsSpecial (ops : List Operation) : Prop :=
  ∀ pre op post s, ops = pre ++ op :: post →
    forwardAll pre (MemoryNodeStore.default, ({} : MemoryPayloadStore)) = some (.ok (), s) →
      ¬ s.1.hangsSpecial op

theorem keepsSpecial_concat {ops : List Operation} {op : Operation}
    {s : MemoryNodeStore × MemoryPayloadStore}
    (hs : forwardAll ops (MemoryNodeStore.default, {}) = some (.ok (), s)) :
    KeepsSpecial (ops ++ [op]) ↔ KeepsSpecial ops ∧ ¬ s.1.hangsSpecial op := by
  constructor
  · intro h
    refine ⟨fun pre o post s' he => h pre o (post ++ [op]) s' (by rw [he]; simp), ?_⟩
    exact h ops op [] s rfl hs
  · rintro ⟨h, hlast⟩ pre o post s' he hs'
    rcases List.eq_nil_or_concat post with rfl | ⟨post, last, rfl⟩
    · obtain ⟨rfl, hop⟩ := List.append_inj' he rfl
      cases hop
      rw [hs] at hs'
      cases hs'
      exact hlast
    · rw [List.concat_eq_append, ← List.cons_append, ← List.append_assoc] at he
      obtain ⟨rfl, -⟩ := List.append_inj' he rfl
      exact h pre o post s' rfl hs'

/-- The parents of `ROOT` and `TRASH` over a run. -/
theorem Doc.special_parent_applyAll (ops : List Operation) :
    (∀ n, n.special → (Doc.initial.applyAll Backend.memory ops).rows.parent n = none) ↔
      KeepsSpecial ops := by
  induction ops using List.reverseRecOn with
  | nil =>
    refine ⟨fun _ pre op post s he => by simp at he, fun _ n hn => ?_⟩
    rcases hn with rfl | rfl <;> rfl
  | append_singleton ops op ih =>
    obtain ⟨s, hs, hm⟩ := TreeCrdt.exists_forwardAll ops
    have hr := Doc.acyclic_applyAll Doc.acyclic_initial Backend.memory ops
    rw [keepsSpecial_concat hs, ← ih, hangsSpecial_iff hm.1 hr, Doc.applyAll, List.foldl_append]
    exact Doc.special_parent_apply _ op

/-- **Tree shape.** After any operations from the reset store the shape holds exactly if no step
hung `ROOT` or `TRASH`. -/
theorem treeShape_forwardAll (ops : List Operation) :
    ∃ s, forwardAll ops (MemoryNodeStore.default, ({} : MemoryPayloadStore)) = some (.ok (), s) ∧
      (s.1.TreeShape ↔ KeepsSpecial ops) := by
  obtain ⟨s, hs, hm⟩ := TreeCrdt.exists_forwardAll ops
  refine ⟨s, hs, ?_⟩
  rw [treeShape_iff hm.1 (Doc.acyclic_applyAll Doc.acyclic_initial _ ops),
    ← Doc.special_parent_applyAll]
  constructor
  · rintro ⟨hroot, htrash⟩ n (rfl | rfl)
    · exact htrash
    · exact hroot
  · intro h
    exact ⟨h _ (Or.inr rfl), h _ (Or.inl rfl)⟩

/-- `ROOT` inserted under a node that hangs nowhere, and that node under `ROOT`: a chain of parents
leads from `ROOT` back to `ROOT`. -/
theorem treeShape_insert_root :
    ∃ s, forwardAll
        [.insert ⟨[1]⟩ 1 1 ⟨7⟩ NodeId.ROOT [0, 1], .insert ⟨[1]⟩ 2 2 NodeId.ROOT ⟨7⟩ [0, 1]]
        (MemoryNodeStore.default, ({} : MemoryPayloadStore)) = some (.ok (), s) ∧
      s.1.parent NodeId.ROOT = some ⟨7⟩ ∧ s.1.parent ⟨7⟩ = some NodeId.ROOT ∧
      ¬ s.1.TreeShape := by
  refine ⟨_, rfl, rfl, rfl, fun h => ?_⟩
  exact absurd h.root (by decide)

end Treecrdt
