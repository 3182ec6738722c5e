import TreecrdtLean.Tree.Awareness
import TreecrdtLean.Tree.Flags

/-!
# What hides a node

Only a delete is meant to hide a node. A move marks the parent that it takes its node from, so the
deletes of that parent do not know everything below it any more. An insert of a node that is there
already marks only the new parent: it can take the one edit that kept a deleted node visible out of
the subtree of that node (`Rows.Strands`), and this is all that hides a node (`Doc.hides_iff`).
-/

namespace Treecrdt

open Exec Forest

namespace Rows

/-- `op` takes its node from below `a`, and with it every change that the deletes of `a` did not
know. A move is known to these deletes itself. -/
structure Strands (r : Rows) (op : Operation) (a : NodeId) : Prop where
  target : ∃ p, r.target op.kind = some p ∧ (p = NodeId.TRASH ∨ ¬ Above r.listed p a)
  below : ∃ q, r.listed op.kind.node = some q ∧ Above r.listed q a
  deleted : (r.row a).deletedAt.isSome
  rest : ∀ m, Above r.listed m a → ¬ Above r.listed m op.kind.node → r.lastDots m ⊆ r.deletedDots a
  taken : ¬ r.subtreeDots op.kind.node ⊆ r.deletedDots a
  unmarked : ∀ n p key, op.kind = .move n p key → op.merged ⊆ r.deletedDots a

theorem tombstoned_iff_deletedDots {r : Rows} {a : NodeId} :
    r.Tombstoned a ↔ (r.row a).deletedAt.isSome ∧ r.subtreeDots a ⊆ r.deletedDots a := by
  rw [Tombstoned, deletedDots]
  rcases (r.row a).deletedAt with _ | vv <;> simp

end Rows

namespace Doc

variable {d : Doc} {op : Operation} {a : NodeId}

/-- `op` hides a node. -/
def Hides (d : Doc) (op : Operation) (a : NodeId) : Prop :=
  ¬ d.rows.Tombstoned a ∧ (d.apply Backend.memory op).rows.Tombstoned a

theorem Shaped.applyAll {ops : List Operation} (hs : ∀ op ∈ ops, ¬ op.kind.node.special) :
    (Doc.initial.applyAll Backend.memory ops).Shaped := by
  induction ops using List.reverseRecOn with
  | nil => exact .initial
  | append_singleton ops op ih =>
    rw [Doc.applyAll, List.foldl_append]
    exact (ih fun x hx => hs x (List.mem_append_left _ hx)).apply (hs op (by simp))

theorem Shaped.listed_special (h : d.Shaped) {n : NodeId} (hn : n.special) :
    d.rows.listed n = none := by
  rw [Rows.listed, h.top n hn]
  rfl

theorem Shaped.up_of_listed (h : d.Shaped) {n p : NodeId} (hnp : d.rows.listed n = some p) :
    d.rows.up n = some p := by
  rw [Rows.up, if_neg fun hn => by rw [h.listed_special hn] at hnp; cases hnp]
  exact (Rows.listed_eq_some.mp hnp).2

/-- A node is hung under one that is not below it. -/
theorem Shaped.not_above_target (h : d.Shaped) {p : NodeId} (hp : p ≠ NodeId.TRASH)
    (ht : d.rows.target op.kind = some p) : ¬ Above d.rows.listed p op.kind.node := by
  intro habove
  have hcyc : p = op.kind.node ∨ d.rows.Cyclic op.kind.node p := by
    by_cases hspecial : p.special
    · obtain he | ⟨c, hc, -⟩ := above_iff.mp habove
      · exact Or.inl he
      · rw [h.listed_special hspecial] at hc
        cases hc
    · exact Or.inr ⟨hspecial, Relation.ReflTransGen.mono (fun _ _ => h.up_of_listed) _ _ habove⟩
  unfold Rows.target at ht
  cases hk : op.kind with
  | insert q n key payload =>
    rw [hk] at ht hcyc
    simp only [Option.ite_none_left_eq_some, Option.some.injEq] at ht
    obtain ⟨hnot, rfl⟩ := ht
    exact hnot hcyc
  | move n q key =>
    rw [hk] at ht hcyc
    simp only [Option.ite_none_left_eq_some, Option.some.injEq] at ht
    obtain ⟨hnot, rfl⟩ := ht
    exact hnot (Or.inr ⟨hp, hcyc.symm.imp_right Eq.symm⟩)
  | delete n => rw [hk] at ht; cases ht
  | tombstone n => rw [hk] at ht; cases ht
  | payload n payload => rw [hk] at ht; cases ht

/-- The target of a node is not below it: nothing but `TRASH` itself is above `TRASH`. -/
theorem Shaped.target_not_above (h : d.Shaped) (hs : ¬ op.kind.node.special) {p : NodeId}
    (ht : d.rows.target op.kind = some p) : ¬ Above d.rows.listed p op.kind.node := by
  by_cases hp : p = NodeId.TRASH
  · subst hp
    intro habove
    obtain he | ⟨c, hc, -⟩ := above_iff.mp habove
    · exact hs (Or.inl he.symm)
    · rw [h.listed_special (Or.inl rfl)] at hc
      cases hc
  · exact h.not_above_target hp ht

/-- The listed parents stay a forest. -/
theorem Shaped.listed_apply (h : d.Shaped) (op : Operation) :
    Acyclic (d.apply Backend.memory op).rows.listed := by
  have hparent := parent_apply (b := Backend.memory) (fun _ => rfl) d op
  cases ht : d.rows.target op.kind with
  | none =>
    rw [ht] at hparent
    have hlisted : (d.apply Backend.memory op).rows.listed = d.rows.listed := by
      funext m
      simp only [Rows.listed, hparent, hang]
    rw [hlisted]
    exact h.listed
  | some p =>
    rw [ht] at hparent
    rw [listed_hang hparent]
    refine h.listed.update fun q hq => ?_
    obtain ⟨he, hq⟩ := Option.filter_eq_some_iff.mp hq
    cases he
    exact h.not_above_target (by simpa using hq) ht

/-! ## One step -/

/-- What an operation that takes its node from below `a` leaves below `a`. -/
theorem Shaped.above_taken (h : d.Shaped) (hs : ¬ op.kind.node.special) {p q : NodeId}
    (ht : d.rows.target op.kind = some p) (hp : p = NodeId.TRASH ∨ ¬ Above d.rows.listed p a)
    (hq : d.rows.listed op.kind.node = some q) (hqa : Above d.rows.listed q a) {m : NodeId} :
    Above (d.apply Backend.memory op).rows.listed m a ↔
      Above d.rows.listed m a ∧ ¬ Above d.rows.listed m op.kind.node := by
  have hparent := parent_apply (b := Backend.memory) (fun _ => rfl) d op
  rw [ht] at hparent
  have hlisted := listed_hang hparent
  have hne : op.kind.node ≠ a := by
    rintro rfl
    exact h.listed _ (Relation.TransGen.head' hq hqa)
  have hnp := h.target_not_above hs ht
  rw [hlisted]
  constructor
  · intro hm
    -- A walk from the node would lead through its new parent.
    have hnode : ¬ Above (Function.update d.rows.listed op.kind.node
        ((some p).filter (· ≠ NodeId.TRASH))) op.kind.node a := by
      intro habove
      obtain he | ⟨c, hc, hca⟩ := above_iff.mp habove
      · exact hne he
      · rw [Function.update_self, Option.filter_eq_some_iff] at hc
        obtain ⟨hc, hcT⟩ := hc
        cases hc
        refine hp.elim (fun he => by simp [he] at hcT) fun hpa => hpa ?_
        have := above_update_of_not_above (n := op.kind.node) (p := d.rows.listed op.kind.node) hca
          fun hpn => hnp (above_update_self.mp hpn)
        rwa [Function.update_idem, Function.update_eq_self] at this
    have hmn : ¬ Above (Function.update d.rows.listed op.kind.node
        ((some p).filter (· ≠ NodeId.TRASH))) m op.kind.node := by
      intro hmn
      obtain hna | han := Relation.ReflTransGen.total_of_right_unique
        (fun x y z hxy hxz => Option.some.inj (hxy.symm.trans hxz)) hmn hm
      · exact hnode hna
      · have hcycle : StrictlyAbove d.rows.listed op.kind.node op.kind.node :=
          .head' hq (hqa.trans (above_update_self.mp han))
        exact h.listed _ hcycle
    have := above_update_of_not_above (n := op.kind.node) (p := d.rows.listed op.kind.node) hm hmn
    rw [Function.update_idem, Function.update_eq_self] at this
    exact ⟨this, fun hmn' => hmn (above_update_self.mpr hmn')⟩
  · rintro ⟨hma, hmn⟩
    exact above_update_of_not_above hma hmn

/-- Nothing listed is below `TRASH`. -/
theorem ne_trash_of_listed {r : Rows} {n q : NodeId} (hq : r.listed n = some q)
    (hqa : Above r.listed q a) : a ≠ NodeId.TRASH := by
  rcases Relation.ReflTransGen.cases_tail hqa with rfl | ⟨c, -, hc⟩
  · exact (Rows.listed_eq_some.mp hq).1
  · exact (Rows.listed_eq_some.mp hc).1

/-- A node that is no longer below `a` was below the operated node, and that node hung below `a`. -/
theorem Shaped.taken_of_not_above (h : d.Shaped) (hs : ¬ op.kind.node.special) {m : NodeId}
    (hma : Above d.rows.listed m a)
    (hm : ¬ Above (d.apply Backend.memory op).rows.listed m a) :
    Above d.rows.listed m op.kind.node ∧
      (∃ p, d.rows.target op.kind = some p ∧
        (p = NodeId.TRASH ∨ ¬ Above d.rows.listed p a)) ∧
      ∃ q, d.rows.listed op.kind.node = some q ∧ Above d.rows.listed q a := by
  have hparent := parent_apply (b := Backend.memory) (fun _ => rfl) d op
  cases ht : d.rows.target op.kind with
  | none =>
    rw [ht] at hparent
    have hlisted : (d.apply Backend.memory op).rows.listed = d.rows.listed := by
      funext m
      simp only [Rows.listed, hparent, hang]
    rw [hlisted] at hm
    exact absurd hma hm
  | some p =>
    rw [ht] at hparent
    rw [listed_hang hparent] at hm
    have hmn : Above d.rows.listed m op.kind.node := by
      by_contra hmn
      exact hm (above_update_of_not_above hma hmn)
    refine ⟨hmn, ⟨p, rfl, or_iff_not_imp_left.mpr fun hT hpa => hm ?_⟩, ?_⟩
    · refine (above_update_self.mpr hmn).trans (Relation.ReflTransGen.head (b := p) ?_ ?_)
      · simp [hT]
      · exact above_update_of_not_above hpa (h.target_not_above hs ht)
    · obtain habove | he | ⟨q, hq, hqa⟩ := above_update_of_above (n := op.kind.node)
        (p := (some p).filter (· ≠ NodeId.TRASH)) hma
      · exact absurd habove hm
      · refine absurd ?_ hm
        rw [← he]
        exact above_update_self.mpr hmn
      · refine ⟨q, hq, ?_⟩
        have hqn : ¬ Above d.rows.listed q op.kind.node := fun hqn =>
          h.listed _ (.head' hq hqn)
        have := above_update_of_not_above (n := op.kind.node)
          (p := d.rows.listed op.kind.node) hqa fun h => hqn (above_update_self.mp h)
        rwa [Function.update_idem, Function.update_eq_self] at this

/-- An operation that is no delete hides exactly the nodes that it strands. -/
theorem Shaped.hides_iff (h : d.Shaped) (hs : ¬ op.kind.node.special)
    (hpar : ∀ n p, d.rows.parent n = some p → (d.rows p).isSome)
    (hdel : ∀ n, ¬ op.kind.Deletes n) : d.Hides op a ↔ d.rows.Strands op a := by
  obtain ⟨-, hlast, hdeleted⟩ := touched_apply (b := Backend.memory) hpar hdel
  replace hlast := hlast h.normal
  have hdots : (d.apply Backend.memory op).rows.deletedDots a = d.rows.deletedDots a := by
    rw [Rows.deletedDots, hdeleted, Rows.deletedDots]
  rw [Hides, Rows.tombstoned_iff_deletedDots, Rows.tombstoned_iff_deletedDots, hdots, hdeleted]
  constructor
  · rintro ⟨hbefore, hsome, hafter⟩
    have hafter' : ∀ m, Above (d.apply Backend.memory op).rows.listed m a →
        (d.apply Backend.memory op).rows.lastDots m ⊆ d.rows.deletedDots a :=
      fun m hm y hy => hafter ⟨m, hm, hy⟩
    have hkeep : ∀ m, d.rows.lastDots m ⊆ (d.apply Backend.memory op).rows.lastDots m :=
      fun m y hy => (hlast m y).mpr (Or.inl hy)
    -- A change that the deletes do not know is no longer below `a`.
    obtain ⟨x, ⟨m, hma, hx⟩, hxd⟩ := Set.not_subset.mp fun hsub => hbefore ⟨hsome, hsub⟩
    obtain ⟨hmn, ⟨p, ht, hp⟩, q, hq, hqa⟩ := h.taken_of_not_above hs hma fun hm =>
      hxd (hafter' m hm (hkeep m hx))
    have habove := fun {m} => h.above_taken hs ht hp hq hqa (m := m)
    refine ⟨⟨p, ht, hp⟩, ⟨q, hq, hqa⟩, hsome, fun m hm hmn => ?_, fun hsub => hxd (hsub ⟨m, hmn, hx⟩),
      fun n p' key hk y hy => ?_⟩
    · exact (hkeep m).trans (hafter' m (habove.mpr ⟨hm, hmn⟩))
    -- A move marks the parent that it takes its node from.
    · have hqn : ¬ Above d.rows.listed q op.kind.node := fun hqn => h.listed _ (.head' hq hqn)
      refine hafter' q (habove.mpr ⟨hqa, hqn⟩) ((hlast q y).mpr (Or.inr ⟨?_, hy⟩))
      rw [Rows.listed_eq_some] at hq
      rw [hk] at hq ht
      rw [Touches, hk]
      exact ⟨by rw [ht]; rfl, Or.inr (Or.inr ⟨hq.2, hq.1⟩)⟩
  · rintro ⟨⟨p, ht, hp⟩, ⟨q, hq, hqa⟩, hsome, hrest, htaken, hunmarked⟩
    obtain ⟨x, ⟨m, hmn, hx⟩, hxd⟩ := Set.not_subset.mp htaken
    refine ⟨fun hbefore => hxd (hbefore.2 ⟨m, ?_, hx⟩), hsome, ?_⟩
    · exact hmn.trans (.head hq hqa)
    rintro y ⟨m, hm, hy⟩
    obtain ⟨hma, hmn⟩ := (h.above_taken hs ht hp hq hqa).mp hm
    obtain hy | ⟨htouch, hy⟩ := (hlast m y).mp hy
    · exact hrest m hma hmn hy
    have hmnode : m ≠ op.kind.node := by
      rintro rfl
      exact hmn .refl
    cases hk : op.kind with
    | insert p' n key payload =>
      rw [hk] at ht hmnode
      rw [Touches, hk] at htouch
      have hpp : p' = p := by
        unfold Rows.target at ht
        simp only [Option.ite_none_left_eq_some, Option.some.injEq] at ht
        exact ht.2
      obtain ⟨-, rfl | rfl⟩ | ⟨-, -, rfl⟩ := htouch
      · exact absurd rfl hmnode
      · -- The new parent is not below `a`.
        subst hpp
        have hT := hp.resolve_right (not_not.mpr hma)
        obtain he | ⟨c, hc, -⟩ := above_iff.mp hma
        · exact absurd (he.symm.trans hT) (ne_trash_of_listed hq hqa)
        · rw [h.listed_special (Or.inl hT)] at hc
          cases hc
      · exact absurd rfl hmnode
    | move n p' key => exact hunmarked n p' key hk hy
    | delete n => exact absurd (Or.inl hk) (hdel n)
    | tombstone n => exact absurd (Or.inr hk) (hdel n)
    | payload n payload =>
      rw [hk] at ht
      cases ht

end Doc

/-! ## Runs -/

/-- The fold over `ops` applies `op` to the stores `s` and leaves `s'`. -/
def StepIn (ops : List Operation) (s : MemoryStores) (op : Operation) (s' : MemoryStores) : Prop :=
  ∃ pre post snap, ops = pre ++ op :: post ∧
    forwardAll pre (MemoryNodeStore.default, ({} : MemoryPayloadStore)) = some (.ok (), s) ∧
    applyForward op s = some (.ok snap, s')

/-- A node that exists in `s` is not tombstoned there, but is in `s'`. -/
def HidesNode (s s' : MemoryStores) (a : NodeId) : Prop :=
  (s.1.nodes.lookup a).isSome ∧
    (∃ t, TreeCrdt.isTombstoned a s.1 = some (.ok false, t)) ∧
    ∃ t, TreeCrdt.isTombstoned a s'.1 = some (.ok true, t)

/-- The deletes and tombstones know no operation that does not sort before them. -/
def CausalDeletes (ops : List Operation) : Prop :=
  ∀ op ∈ ops, (∃ n, op.kind.Deletes n) → ∀ knownState, op.metadata.knownState = some knownState →
    ∀ x ∈ ops, (x.metadata.id.replica, x.metadata.id.counter.toNat) ∈ knownState.dots →
      x.key < op.key

theorem isTombstoned_iff {s : MemoryStores} {d : Doc} (h : d.Shaped) (hmod : ModelsDoc s d)
    (a : NodeId) {b : Bool} :
    (∃ t, TreeCrdt.isTombstoned a s.1 = some (.ok b, t)) ↔ (b = true ↔ d.rows.Tombstoned a) := by
  obtain ⟨b', t, hrun, hiff, -⟩ := isTombstoned_runs h.listed h.normal d.flags a s.1 hmod.1
  rw [hrun]
  constructor
  · rintro ⟨t', he⟩
    cases he
    exact hiff
  · intro hb
    have : b = b' := Bool.eq_iff_iff.mpr (hb.trans hiff.symm)
    exact ⟨t, by rw [this]⟩

/-- The documents on both sides of a step. -/
theorem StepIn.docs {ops : List Operation} {s s' : MemoryStores} {op : Operation}
    (h : StepIn ops s op s') (hs : ∀ op ∈ ops, ¬ op.kind.node.special) :
    ∃ pre post, ops = pre ++ op :: post ∧ (Doc.initial.applyAll Backend.memory pre).Shaped ∧
      ModelsDoc s (Doc.initial.applyAll Backend.memory pre) ∧
      ModelsDoc s' ((Doc.initial.applyAll Backend.memory pre).apply Backend.memory op) := by
  obtain ⟨pre, post, snap, rfl, hpre, hop⟩ := h
  have hshaped : (Doc.initial.applyAll Backend.memory pre).Shaped :=
    .applyAll fun x hx => hs x (by simp [hx])
  obtain ⟨s₁, hs₁, hmod⟩ := TreeCrdt.exists_forwardAll pre
  rw [hpre] at hs₁
  cases hs₁
  obtain ⟨snap', s₂, hop', -, hmod'⟩ := applyForward_runs hshaped.acyclic op s hmod
  rw [hop] at hop'
  cases hop'
  exact ⟨pre, post, rfl, hshaped, hmod, hmod'⟩

/-- A step that is no delete hides exactly the nodes that it strands. -/
theorem StepIn.hidesNode_iff {ops : List Operation} {s s' : MemoryStores} {op : Operation}
    (h : StepIn ops s op s') (hs : ∀ op ∈ ops, ¬ op.kind.node.special)
    (hdel : ∀ n, ¬ op.kind.Deletes n) (a : NodeId) :
    HidesNode s s' a ↔ s.1.view.Strands op a := by
  obtain ⟨pre, post, rfl, hshaped, hmod, hmod'⟩ := h.docs hs
  have hop : ¬ op.kind.node.special := hs op (by simp)
  have hview : s.1.view = (Doc.initial.applyAll Backend.memory pre).rows := hmod.1.1
  have hstep := hshaped.hides_iff (a := a) hop (LawfulNodeStore.parent_isSome s.1 _ _ hmod.1) hdel
  rw [HidesNode, isTombstoned_iff hshaped hmod, isTombstoned_iff (hshaped.apply hop) hmod', hview,
    ← hstep, Doc.Hides]
  simp only [Bool.false_eq_true, false_iff, true_iff, and_iff_right_iff_imp]
  intro hhides
  -- A node that was deleted exists.
  have hdeleted := (hstep.mp hhides).deleted
  rw [← hview] at hdeleted
  rcases hlookup : s.1.nodes.lookup a with _ | st
  · simp [Rows.row, MemoryNodeStore.view, hlookup, Row.blank] at hdeleted
  · rfl

/-- The deletes so far do not know the dot of a move, so the move strands nothing. -/
theorem not_strands_move {pre post : List Operation} {op : Operation} {n p : NodeId} {key : Bytes}
    (hsorted : (pre ++ op :: post).Pairwise fun a b => a.key ≤ b.key)
    (hcausal : CausalDeletes (pre ++ op :: post))
    (hs : ∀ op ∈ pre, ¬ op.kind.node.special) (hk : op.kind = .move n p key)
    (hc : 0 < op.metadata.id.counter) (hid : ∀ x ∈ pre, x.metadata.id ≠ op.metadata.id)
    (a : NodeId) : ¬ (Doc.initial.applyAll Backend.memory pre).rows.Strands op a := by
  intro h
  have hdot : (op.metadata.id.replica, op.metadata.id.counter.toNat) ∈ op.merged := by
    rw [Operation.merged_eq hc]
    exact Or.inl rfl
  have hknown := h.unmarked n p key hk hdot
  rw [(accounted_forwardAll hs).deleted] at hknown
  obtain ⟨del, hdel, hdeletes, hdots⟩ := hknown
  obtain heq | ⟨knownState, hks, hmem⟩ := del.merged_subset hdots
  · obtain ⟨hreplica, hcounter⟩ := Prod.mk.inj heq
    exact hid del hdel (congrArg₂ OperationId.mk hreplica.symm (UInt64.toNat_inj.mp hcounter.symm))
  · have hlt := hcausal del (by simp [hdel]) ⟨a, hdeletes⟩ knownState hks op (by simp) hmem
    have hle := (List.pairwise_append.mp hsorted).2.2 del hdel op (by simp)
    exact absurd hle (not_le.mpr hlt)

/-- **Only deletes hide, but for inserts that strand a node.** In a run in key order whose deletes
are causal, no insert, move or payload hides a node exactly if none strands one. A move with a
counter and an id of its own never does: the parent that it takes its node from gets its dot. -/
theorem hidesNode_iff_strands (ops : List Operation)
    (hsorted : ops.Pairwise fun a b => a.key ≤ b.key) (hcausal : CausalDeletes ops)
    (hs : ∀ op ∈ ops, ¬ op.kind.node.special) :
    ((∀ s op s', StepIn ops s op s' → (∀ n, ¬ op.kind.Deletes n) → ∀ a, ¬ HidesNode s s' a) ↔
      ∀ s op s', StepIn ops s op s' → (∀ n, ¬ op.kind.Deletes n) → ∀ a,
        ¬ s.1.view.Strands op a) ∧
    ∀ pre op post s n p key, ops = pre ++ op :: post →
      forwardAll pre (MemoryNodeStore.default, ({} : MemoryPayloadStore)) = some (.ok (), s) →
      op.kind = .move n p key → 0 < op.metadata.id.counter →
      (∀ x ∈ pre, x.metadata.id ≠ op.metadata.id) → ∀ a, ¬ s.1.view.Strands op a := by
  constructor
  · refine forall₃_congr fun s op s' => forall₃_congr fun hstep hdel a => ?_
    rw [hstep.hidesNode_iff hs hdel]
  · rintro pre op post s n p key rfl hpre hk hc hid a
    obtain ⟨s₁, hs₁, hmod⟩ := TreeCrdt.exists_forwardAll pre
    rw [hpre] at hs₁
    cases hs₁
    rw [show s.1.view = (Doc.initial.applyAll Backend.memory pre).rows from hmod.1.1]
    exact not_strands_move hsorted hcausal (fun x hx => hs x (by simp [hx])) hk hc hid a

/-- What the delete of `strandingOps` knows. -/
def strandingKnown : VersionVector := (VersionVector.new.observe ⟨[1]⟩ 1).observe ⟨[1]⟩ 2

/-- An edit of the node 6 below the node 5 that the delete of 5 does not know, and an insert that
takes 6 away. -/
def strandingOps : List Operation :=
  [.insert ⟨[1]⟩ 1 1 NodeId.ROOT ⟨5⟩ [0, 7], .insert ⟨[1]⟩ 2 2 ⟨5⟩ ⟨6⟩ [0, 7],
    .payload ⟨[2]⟩ 1 3 ⟨6⟩ (some [1]), .delete ⟨[1]⟩ 3 4 ⟨5⟩ (some strandingKnown),
    .insert ⟨[2]⟩ 2 5 NodeId.ROOT ⟨6⟩ [0, 9]]

/-- The stores after operations. -/
def storesAfter (ops : List Operation) : MemoryStores :=
  match forwardAll ops (MemoryNodeStore.default, ({} : MemoryPayloadStore)) with
  | some (_, s) => s
  | none => (MemoryNodeStore.default, {})

theorem forwardAll_storesAfter (ops : List Operation) :
    forwardAll ops (MemoryNodeStore.default, ({} : MemoryPayloadStore)) =
      some (.ok (), storesAfter ops) := by
  obtain ⟨s, hs, -⟩ := TreeCrdt.exists_forwardAll ops
  rw [storesAfter, hs]

theorem storesAfter_models (ops : List Operation) :
    ModelsDoc (storesAfter ops) (Doc.initial.applyAll Backend.memory ops) := by
  obtain ⟨s, hs, hmod⟩ := TreeCrdt.exists_forwardAll ops
  rwa [storesAfter, hs]

/-- The delete of `strandingOps`. -/
theorem strandingOps_deletes {op : Operation} {n : NodeId} (h : op ∈ strandingOps)
    (hdel : op.kind.Deletes n) : op = .delete ⟨[1]⟩ 3 4 ⟨5⟩ (some strandingKnown) := by
  simp only [strandingOps, List.mem_cons, List.not_mem_nil, or_false] at h
  obtain rfl | rfl | rfl | rfl | rfl := h
  case inr.inr.inr.inl => rfl
  all_goals obtain hk | hk := hdel <;> cases hk

theorem strandingOps_causal : CausalDeletes strandingOps := by
  rintro op hop ⟨n, hdel⟩ knownState hks
  rw [strandingOps_deletes hop hdel] at hks ⊢
  cases hks
  decide +kernel

/-- The payload below keeps the node 5 visible. -/
theorem not_tombstoned_strandingOps :
    ¬ (Doc.initial.applyAll Backend.memory (strandingOps.take 4)).rows.Tombstoned ⟨5⟩ := by
  rw [tombstoned_iff (by decide) (by decide)]
  rintro ⟨-, h⟩
  have habove : Above (Doc.initial.applyAll Backend.memory (strandingOps.take 4)).rows.parent
      ⟨6⟩ ⟨5⟩ := by
    rw [← MemoryNodeStore.Models.parent (storesAfter_models (strandingOps.take 4)).1]
    exact .single (by decide +kernel)
  have htouched : TouchedIn (strandingOps.take 4) ⟨6⟩ (.payload ⟨[2]⟩ 1 3 ⟨6⟩ (some [1])) := by
    refine ⟨strandingOps.take 2, _, _, rfl, forwardAll_storesAfter _, ?_, rfl⟩
    show newerThan _ _ = true
    decide +kernel
  obtain ⟨op, hop, hdel, hdot⟩ := h ⟨6⟩ _ habove htouched (Or.inl rfl)
  rw [strandingOps_deletes (List.mem_of_mem_take hop) hdel] at hdot
  obtain hdot | ⟨knownState, hks, hdot⟩ := hdot
  · cases hdot
  · cases hks
    exact absurd hdot (by decide +kernel)

/-- A node without children is above no other. -/
theorem eq_of_above_childless {s : MemoryStores} {d : Doc} (h : ModelsDoc s d) {m n : NodeId}
    (hn : n ≠ NodeId.TRASH) (hchildless : (s.1.nodes.lookup n).map (·.children) = some [])
    (hm : Above d.rows.parent m n) : m = n := by
  obtain ⟨hview, -, hinv⟩ := h.1
  simp only at hview
  obtain ⟨st, hst, hchildren⟩ := Option.map_eq_some_iff.mp hchildless
  obtain he | ⟨c, -, hc⟩ := Relation.ReflTransGen.cases_tail hm
  · exact he.symm
  · rw [← hview] at hc
    have hmem := ((hinv.children n st hst).mem c).mpr ⟨hn, hc⟩
    rw [hchildren] at hmem
    cases hmem

/-- An operation that knows no other has its own dot only. -/
theorem Operation.eq_of_mem_dots {op : Operation} {x : ReplicaId × ℕ}
    (h : op.metadata.knownState = none) (hx : x ∈ op.dots) :
    x = (op.metadata.id.replica, op.metadata.id.counter.toNat) := by
  obtain hx | ⟨knownState, hks, -⟩ := hx
  · exact hx
  · rw [h] at hks
    cases hks

/-- With the node 6 gone, the delete knows everything below the node 5. -/
theorem tombstoned_strandingOps :
    (Doc.initial.applyAll Backend.memory strandingOps).rows.Tombstoned ⟨5⟩ := by
  have hdel : Operation.delete ⟨[1]⟩ 3 4 ⟨5⟩ (some strandingKnown) ∈ strandingOps := by
    simp [strandingOps]
  rw [tombstoned_iff (by decide) (by decide)]
  refine ⟨⟨_, hdel, Or.inl rfl⟩, fun m op hm ht x hx => ⟨_, hdel, Or.inl rfl, Or.inr ⟨_, rfl, ?_⟩⟩⟩
  have hm5 : m = ⟨5⟩ :=
    eq_of_above_childless (storesAfter_models strandingOps) (by decide) (by decide +kernel) hm
  subst hm5
  obtain ⟨pre, post, s, he, -, ht⟩ := ht
  have hop : op ∈ strandingOps := by simp [he]
  simp only [strandingOps, List.mem_cons, List.not_mem_nil, or_false] at hop
  obtain rfl | rfl | rfl | rfl | rfl := hop
  · rw [Operation.eq_of_mem_dots rfl hx]
    decide +kernel
  · rw [Operation.eq_of_mem_dots rfl hx]
    decide +kernel
  · cases ht.2
  · cases ht
  · obtain ⟨-, -, h | h⟩ | ⟨hsome, -⟩ := ht
    · cases h
    · exact absurd h (by decide)
    · cases hsome

/-- The last insert hides the node 5. -/
theorem hidesNode_strandingOps :
    strandingOps.Pairwise (fun a b => a.key ≤ b.key) ∧ CausalDeletes strandingOps ∧
      (∀ op ∈ strandingOps, ¬ op.kind.node.special) ∧
      ∃ s op s' a, StepIn strandingOps s op s' ∧ (∀ n, ¬ op.kind.Deletes n) ∧
        HidesNode s s' a := by
  have hlast : Operation.insert ⟨[2]⟩ 2 5 NodeId.ROOT ⟨6⟩ [0, 9] ∈ strandingOps := by
    simp [strandingOps]
  obtain ⟨snap, s', hop, -, hmod'⟩ := applyForward_runs
    (Doc.acyclic_applyAll Doc.acyclic_initial Backend.memory (strandingOps.take 4))
    (.insert ⟨[2]⟩ 2 5 NodeId.ROOT ⟨6⟩ [0, 9]) _ (storesAfter_models (strandingOps.take 4))
  have hstep : StepIn strandingOps (storesAfter (strandingOps.take 4))
      (.insert ⟨[2]⟩ 2 5 NodeId.ROOT ⟨6⟩ [0, 9]) s' :=
    ⟨strandingOps.take 4, [], snap, rfl, forwardAll_storesAfter _, hop⟩
  have hns : ∀ op ∈ strandingOps, ¬ op.kind.node.special := by decide
  refine ⟨by decide +kernel, strandingOps_causal, hns, _, _, s', ⟨5⟩, hstep, ?_, ?_, ?_, ?_⟩
  · rintro n (h | h) <;> cases h
  · decide +kernel
  · refine (isTombstoned_iff (.applyAll fun op h => hns op (List.mem_of_mem_take h))
      (storesAfter_models _) _).mpr ?_
    simpa using not_tombstoned_strandingOps
  · refine (isTombstoned_iff (.applyAll hns) hmod' _).mpr ?_
    simpa using tombstoned_strandingOps

theorem hidesNode_iff_strands_strandingOps :
    (∀ s op s', StepIn strandingOps s op s' → (∀ n, ¬ op.kind.Deletes n) →
        ∀ a, ¬ HidesNode s s' a) ↔
      ∀ s op s', StepIn strandingOps s op s' → (∀ n, ¬ op.kind.Deletes n) → ∀ a,
        ¬ s.1.view.Strands op a :=
  (hidesNode_iff_strands strandingOps (by decide +kernel) strandingOps_causal (by decide)).1

end Treecrdt
