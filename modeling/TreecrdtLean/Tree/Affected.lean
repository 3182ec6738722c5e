import TreecrdtLean.Spec.Place
import TreecrdtLean.Tree.Hide

/-!
# Affected nodes

A remote operation in order reports the nodes around it and the nodes whose tombstones the refresh
flipped. The reads of no other node change, but for one kind: where a node flips, the children of
its parent are other ones, and the parent is reported only if it is around the operation or flips
too (`affected_complete_iff`).
-/

namespace Treecrdt

open Exec Forest

/-! ## Reads -/

/-- What the reads of a tree say about a node. -/
structure Answers where
  children : Option (Except Error (List NodeId))
  parent : Option (Except Error (Option NodeId))
  tombstoned : Option (Except Error Bool)
  payload : Option (Except Error (Option Bytes))

def TreeCrdt.answers {S C N P : Type} [NodeStore N] [PayloadStore P] (t : TreeCrdt S C N P)
    (n : NodeId) : Answers where
  children := (children n t.nodes).map Prod.fst
  parent := (parent n t.nodes).map Prod.fst
  tombstoned := (isTombstoned n t.nodes).map Prod.fst
  payload := (PayloadStore.payload n t.payloads).map Prod.fst

section

variable {N : Type} [NodeStore N] [LawfulNodeStore N] {r : Rows}

open Classical in
/-- `children` returns the children that are not tombstoned. -/
theorem children_runs (hr : Acyclic r.listed) (hn : r.Normal) (f : NodeId → Bool) (n : NodeId) :
    Runs LawfulNodeStore.Models (r, f) (TreeCrdt.children n : Exec Error N _)
      (fun l => ∃ stored, r.IsChildren n stored ∧ l = stored.filter fun c => ¬ r.Tombstoned c)
      (r, f) := by
  unfold TreeCrdt.children
  refine (LawfulNodeStore.nodeExists r f n).bind fun b hb => ?_
  cases b with
  | false =>
    refine Runs.pure ⟨[], ⟨fun c => ?_, .nil⟩, rfl⟩
    simpa using fun _ => (hb.2 rfl).2 c
  | true =>
    simp only [Bool.not_true, Bool.false_eq_true, if_false]
    refine (LawfulNodeStore.children r f n (hb.1 rfl)).bind fun stored hstored => ?_
    have hloop := Runs.foldlM (R := LawfulNodeStore.Models) (a := (r, f))
      (f := fun (filtered : List NodeId) child => do
        return if ← (TreeCrdt.isTombstoned child : Exec Error N _) then filtered
          else filtered ++ [child])
      (I := fun rest filtered =>
        stored.filter (fun c => ¬ r.Tombstoned c) =
          filtered ++ rest.filter fun c => ¬ r.Tombstoned c)
      ?_ (l := stored) (b := []) rfl
    · exact hloop.imp fun l hl => ⟨stored, hstored, by simpa using hl.symm⟩
    · intro child rest filtered hfiltered
      refine (isTombstoned_runs hr hn f child).bind fun b hb => Runs.pure ?_
      rw [hfiltered]
      cases b with
      | false =>
        have hlive : ¬ r.Tombstoned child := fun h => by cases hb.mpr h
        simp [hlive]
      | true => simp [hb.mp rfl]

open Classical in
/-- What `parent` returns. -/
noncomputable def Rows.shown (r : Rows) (n : NodeId) : Option NodeId :=
  if r.Tombstoned n then some NodeId.TRASH else r.listed n

theorem parent_runs (hr : Acyclic r.listed) (hn : r.Normal) (f : NodeId → Bool) (n : NodeId) :
    Runs LawfulNodeStore.Models (r, f) (TreeCrdt.parent n : Exec Error N _) (· = r.shown n)
      (r, f) := by
  unfold TreeCrdt.parent Rows.shown
  refine (LawfulNodeStore.nodeExists r f n).bind fun b hb => ?_
  cases b with
  | false =>
    have hblank := (hb.2 rfl).1
    have hlive : ¬ r.Tombstoned n := Rows.not_tombstoned (by rw [hblank]; rfl)
    have hparent : r.parent n = none := by rw [Rows.parent_eq_row, hblank]; rfl
    rw [if_neg hlive, Rows.listed, hparent]
    exact Runs.pure rfl
  | true =>
    simp only [Bool.not_true, Bool.false_eq_true, if_false]
    refine (isTombstoned_runs hr hn f n).bind fun b hb => ?_
    cases b with
    | true =>
      rw [if_pos (hb.mp rfl)]
      exact Runs.pure rfl
    | false =>
      have hlive : ¬ r.Tombstoned n := fun h => by cases hb.mpr h
      rw [if_neg hlive]
      refine (LawfulNodeStore.parent r f n).bind fun p hp => Runs.pure ?_
      rw [hp, Rows.listed]

end

open Classical in
/-- What the reads say of a document; `stored` are the children of the node. -/
noncomputable def Doc.answers (d : Doc) (n : NodeId) (stored : List NodeId) : Answers where
  children := some (.ok (stored.filter fun c => ¬ d.rows.Tombstoned c))
  parent := some (.ok (d.rows.shown n))
  tombstoned := some (.ok (decide (d.rows.Tombstoned n)))
  payload := some (.ok (d.payloads n).payload)

open Classical in
theorem TreeCrdt.answers_eq {S C : Type} {t : StoreTree S C} {d : Doc}
    (hm : ModelsDoc (t.nodes, t.payloads) d) (hr : Acyclic d.rows.listed) (hn : d.rows.Normal)
    (n : NodeId) : ∃ stored, d.rows.IsChildren n stored ∧ t.answers n = d.answers n stored := by
  obtain ⟨l, s₁, hl, ⟨stored, hstored, rfl⟩, -⟩ := children_runs hr hn d.flags n _ hm.1
  obtain ⟨p, s₂, hp, rfl, -⟩ := parent_runs hr hn d.flags n _ hm.1
  obtain ⟨b, s₃, hb, hbt, -⟩ := isTombstoned_runs hr hn d.flags n _ hm.1
  obtain ⟨x, s₄, hx, rfl, -⟩ := LawfulPayloadStore.payload d.payloads n _ hm.2
  refine ⟨stored, hstored, ?_⟩
  have hb' : b = decide (d.rows.Tombstoned n) := by
    rw [Bool.eq_iff_iff, hbt, decide_eq_true_eq]
  rw [TreeCrdt.answers, hl, hp, hb, hx, hb']
  rfl

/-! ## Flips -/

namespace Rows

/-- Where the nodes are listed once the operation has hung its node. -/
noncomputable def hung (r : Rows) (kind : OperationKind) (n : NodeId) : Option NodeId :=
  (Doc.hang r.parent kind.node (r.target kind) n).filter (· ≠ NodeId.TRASH)

end Rows

namespace Doc

variable {d : Doc} {op : Operation} {a n : NodeId}

/-- The deletes of `a` know every change below it, with the node of the operation in its place and
the operation among the changes. -/
def KnowsBelow (d : Doc) (op : Operation) (a : NodeId) : Prop :=
  (d.rows.row a).deletedAt.isSome ∧ ∀ m, Above (d.rows.hung op.kind) m a →
    d.rows.lastDots m ⊆ d.rows.deletedDots a ∧
      (d.Touches op m → op.merged ⊆ d.rows.deletedDots a)

/-- The operation hides `a`, or brings it back. -/
def Flips (d : Doc) (op : Operation) (a : NodeId) : Prop :=
  ¬ (d.rows.Tombstoned a ↔ d.KnowsBelow op a)

/-- The nodes that an operation reports in any case. -/
def Around (d : Doc) (op : Operation) (n : NodeId) : Prop :=
  n = op.kind.node ∨ (op.kind.parentAfter.isSome ∧
    (d.rows.parent op.kind.node = some n ∨ op.kind.parentAfter = some n)) ∨
  ((∃ m, op.kind.Deletes m) ∧ d.rows.parent op.kind.node = some n)

/-- A delete, or an operation that flips nodes only below `TRASH`, below nodes that flip too, and
below the nodes around it. -/
def ReportsParents (d : Doc) (op : Operation) : Prop :=
  (∃ n, op.kind.Deletes n) ∨ ∀ a p, d.Flips op a → d.rows.parent a = some p →
    p = NodeId.TRASH ∨ d.Flips op p ∨ d.Around op p

theorem listed_apply (d : Doc) (op : Operation) :
    (d.apply Backend.memory op).rows.listed = d.rows.hung op.kind := by
  funext n
  rw [Rows.listed, parent_apply (fun _ => rfl), Rows.hung]

/-- What an operation that is no delete leaves tombstoned. -/
theorem tombstoned_apply_iff (hn : d.rows.Normal)
    (hpar : ∀ n p, d.rows.parent n = some p → (d.rows p).isSome)
    (hdel : ∀ n, ¬ op.kind.Deletes n) :
    (d.apply Backend.memory op).rows.Tombstoned a ↔ d.KnowsBelow op a := by
  obtain ⟨-, hlast, hdeleted⟩ := touched_apply (b := Backend.memory) hpar hdel
  replace hlast := hlast hn
  have hdots : (d.apply Backend.memory op).rows.deletedDots a = d.rows.deletedDots a := by
    rw [Rows.deletedDots, hdeleted, Rows.deletedDots]
  rw [Rows.tombstoned_iff_deletedDots, hdots, hdeleted, KnowsBelow, ← listed_apply]
  refine and_congr_right fun _ => ⟨fun h m hm => ⟨fun x hx => ?_, fun ht x hx => ?_⟩, ?_⟩
  · exact h ⟨m, hm, (hlast m x).mpr (Or.inl hx)⟩
  · exact h ⟨m, hm, (hlast m x).mpr (Or.inr ⟨ht, hx⟩)⟩
  · rintro h x ⟨m, hm, hx⟩
    obtain hx | ⟨ht, hx⟩ := (hlast m x).mp hx
    · exact (h m hm).1 hx
    · exact (h m hm).2 ht hx

theorem lastDots_delete {m : NodeId} (hdel : op.kind.Deletes m) (n : NodeId) :
    (d.apply Backend.memory op).rows.lastDots n = d.rows.lastDots n := by
  by_cases hm : m.special
  · have hrows : (d.apply Backend.memory op).rows = d.rows.ensure m := by
      have hcond : m = NodeId.ROOT ∨ m = NodeId.TRASH := hm.symm
      unfold apply
      obtain hk | hk := hdel <;> rw [hk] <;> simp only [applyKind, Rows.delete, if_pos hcond] <;> rfl
    rw [hrows, Rows.lastDots, Rows.row_ensure, Rows.lastDots]
  · exact (deleted_apply hdel hm).last n

/-- A delete flips no other node. -/
theorem tombstoned_delete_iff (hdel : ∃ m, op.kind.Deletes m)
    (ha : a ≠ op.kind.node) :
    (d.apply Backend.memory op).rows.Tombstoned a ↔ d.rows.Tombstoned a := by
  obtain ⟨m, hm⟩ := hdel
  have ht : d.rows.target op.kind = none := by
    obtain hk | hk := hm <;> rw [hk] <;> rfl
  have hlisted : (d.apply Backend.memory op).rows.listed = d.rows.listed := by
    rw [listed_apply]
    funext n
    rw [Rows.hung, ht]
    rfl
  have hdeleted : ((d.apply Backend.memory op).rows.row a).deletedAt = (d.rows.row a).deletedAt :=
    (frame_apply d op).deleted a fun h => ha h.1.node_eq.symm
  have hdots : (d.apply Backend.memory op).rows.subtreeDots a = d.rows.subtreeDots a := by
    have hlast : (d.apply Backend.memory op).rows.lastDots = d.rows.lastDots :=
      funext (lastDots_delete hm)
    rw [Rows.subtreeDots, hlisted, hlast, Rows.subtreeDots]
  rw [Rows.Tombstoned, Rows.Tombstoned, hdeleted, hdots]

theorem mem_directAffectedNodes :
    n ∈ directAffectedNodes (d.rows.parent op.kind.node) op.kind ↔
      n ≠ NodeId.TRASH ∧ d.Around op n := by
  unfold directAffectedNodes Around
  rw [mem_sortedNodeIds, List.mem_filter, decide_eq_true_eq, and_comm]
  refine and_congr_right fun _ => ?_
  cases op.kind <;>
    simp [OperationKind.parentAfter, OperationKind.Deletes, OperationKind.node, eq_comm]

/-! ## Completeness -/

theorem same_apply (hn : n ≠ op.kind.node) :
    (d.apply Backend.memory op).rows.place n = d.rows.place n ∧
      ((d.apply Backend.memory op).payloads n).payload = (d.payloads n).payload := by
  have h : ¬ Changed d (d.apply Backend.memory op) n := fun h => hn (changed_apply h)
  rwa [Changed, not_or, not_not, not_not] at h

/-- The children of a node that is not around the operation are the same ones, in the same order. -/
theorem isChildren_apply (hn : ¬ d.Around op n) {l : List NodeId} (h : d.rows.IsChildren n l) :
    (d.apply Backend.memory op).rows.IsChildren n l := by
  have hparent := parent_apply (b := Backend.memory) (fun _ => rfl) d op
  -- The operated node is no child before, or stays where it is.
  have hnode : ∀ c, d.rows.parent c = some n → c = op.kind.node → d.rows.target op.kind = none := by
    rintro c hc rfl
    by_contra ht
    obtain ⟨p, hp⟩ := Option.ne_none_iff_exists'.mp ht
    exact hn (Or.inr (Or.inl ⟨by rw [Rows.parentAfter_of_target hp]; rfl, Or.inl hc⟩))
  have hmem : ∀ c, (d.apply Backend.memory op).rows.parent c = some n ↔
      d.rows.parent c = some n := by
    intro c
    cases ht : d.rows.target op.kind with
    | none => rw [hparent, ht, hang]
    | some p =>
      rw [hparent, ht, hang]
      by_cases hc : c = op.kind.node
      · subst hc
        rw [Function.update_self]
        refine iff_of_false (fun hp => ?_) fun hp => ?_
        · refine hn (Or.inr (Or.inl ?_))
          rw [Rows.parentAfter_of_target ht]
          exact ⟨rfl, Or.inr hp⟩
        · have := hnode _ hp rfl
          rw [ht] at this
          cases this
      · rw [Function.update_of_ne hc]
  have hkey : ∀ c, d.rows.parent c = some n →
      ((d.apply Backend.memory op).rows.orderKey c).getD [] = (d.rows.orderKey c).getD [] := by
    intro c hc
    by_cases he : c = op.kind.node
    · exact key_apply (hnode c hc he) c
    · rw [← Rows.key_place, (same_apply he).1, Rows.key_place]
  refine ⟨fun c => (h.mem c).trans (and_congr_right fun _ => (hmem c).symm), ?_⟩
  refine h.sorted.imp_of_mem fun {x y} hx hy hxy => ?_
  rwa [hkey x ((h.mem x).mp hx).2, hkey y ((h.mem y).mp hy).2]

open Classical in
/-- The reads of a node differ, behind the operation, only if it is around the operation, flips, or a
child of it flips. -/
theorem answers_apply (hn : ¬ d.Around op n)
    (hflip : (d.apply Backend.memory op).rows.Tombstoned n ↔ d.rows.Tombstoned n)
    (hchild : ∀ c, d.rows.parent c = some n →
      ((d.apply Backend.memory op).rows.Tombstoned c ↔ d.rows.Tombstoned c))
    {l l' : List NodeId} (hl : d.rows.IsChildren n l)
    (hl' : (d.apply Backend.memory op).rows.IsChildren n l') :
    (d.apply Backend.memory op).answers n l' = d.answers n l := by
  obtain rfl := hl'.unique (isChildren_apply hn hl)
  have hne : n ≠ op.kind.node := fun he => hn (Or.inl he)
  obtain ⟨hplace, hpayload⟩ := same_apply (d := d) hne
  have hlisted : (d.apply Backend.memory op).rows.listed n = d.rows.listed n := by
    rw [Rows.listed, Rows.listed, ← Rows.place_fst, ← Rows.place_fst, hplace]
  have hfilter : l'.filter (fun c => ¬ (d.apply Backend.memory op).rows.Tombstoned c) =
      l'.filter fun c => ¬ d.rows.Tombstoned c := List.filter_congr fun c hc => by
    rw [decide_eq_decide, hchild c ((hl.mem c).mp hc).2]
  have hshown : (d.apply Backend.memory op).rows.shown n = d.rows.shown n := by
    rw [Rows.shown, Rows.shown, hlisted]
    exact if_congr hflip rfl rfl
  rw [answers, answers, hfilter, hshown, hpayload, decide_eq_decide.mpr hflip]

/-- A child that flips and stays changes the children of its parent. -/
theorem answers_apply_ne (ha : d.rows.parent a = some n) (hnT : n ≠ NodeId.TRASH)
    (ha' : (d.apply Backend.memory op).rows.parent a = some n)
    (hflip : ¬ ((d.apply Backend.memory op).rows.Tombstoned a ↔ d.rows.Tombstoned a))
    {l l' : List NodeId} (hl : d.rows.IsChildren n l)
    (hl' : (d.apply Backend.memory op).rows.IsChildren n l') :
    d.answers n l ≠ (d.apply Backend.memory op).answers n l' := by
  intro he
  have hchildren := congrArg Answers.children he
  simp only [answers, Option.some.injEq, Except.ok.injEq] at hchildren
  refine hflip ?_
  have hmem : a ∈ l ∧ ¬ d.rows.Tombstoned a ↔
      a ∈ l' ∧ ¬ (d.apply Backend.memory op).rows.Tombstoned a := by
    have := congrArg (a ∈ ·) hchildren
    simpa [List.mem_filter] using this
  have h : a ∈ l := (hl.mem a).mpr ⟨hnT, ha⟩
  have h' : a ∈ l' := (hl'.mem a).mpr ⟨hnT, ha'⟩
  simp only [h, h', true_and] at hmem
  exact (not_iff_not.mp hmem).symm

/-- The flags behind the operation. -/
theorem flags_ne_iff {f : NodeId → Bool} (h : d.Exact)
    (hf : (d.apply Backend.memory op).rows.Exact f) :
    d.flags n ≠ f n ↔ ¬ ((d.apply Backend.memory op).rows.Tombstoned n ↔ d.rows.Tombstoned n) := by
  rw [← h.flags n, ← hf n, ne_eq, ← Bool.eq_iff_iff, eq_comm]

end Doc

namespace TreeCrdt

variable {S C : Type} {t t' : StoreTree S C} {d : Doc} {op : Operation} {f : NodeId → Bool}

/-- Every read that changes is one of a reported node if and only if the parents of the nodes that
flip are reported. -/
theorem complete_iff (h : d.Exact) (hm : ModelsDoc (t.nodes, t.payloads) d)
    (hf : (d.apply Backend.memory op).rows.Exact f)
    (hm' : ModelsDoc (t'.nodes, t'.payloads) { d.apply Backend.memory op with flags := f }) :
    (∀ n, n ≠ NodeId.TRASH → t.answers n ≠ t'.answers n → d.Around op n ∨ d.flags n ≠ f n) ↔
      d.ReportsParents op := by
  have hpar : ∀ n p, d.rows.parent n = some p → (d.rows p).isSome :=
    LawfulNodeStore.parent_isSome t.nodes _ _ hm.1
  have hparent := Doc.parent_apply (b := Backend.memory) (fun _ => rfl) d op
  have hreads : ∀ n, ∃ l l', d.rows.IsChildren n l ∧
      (d.apply Backend.memory op).rows.IsChildren n l' ∧ t.answers n = d.answers n l ∧
      t'.answers n = (d.apply Backend.memory op).answers n l' := fun n => by
    obtain ⟨l, hl, ha⟩ := answers_eq hm h.listed h.normal n
    obtain ⟨l', hl', ha'⟩ := answers_eq hm' (h.listed_apply op)
      ((Doc.frame_apply d op).normal h.normal) n
    exact ⟨l, l', hl, hl', ha, ha'⟩
  have hflips : (∀ n, ¬ op.kind.Deletes n) → ∀ a, d.Flips op a ↔
      ¬ ((d.apply Backend.memory op).rows.Tombstoned a ↔ d.rows.Tombstoned a) := fun hdel a => by
    rw [Doc.Flips, ← Doc.tombstoned_apply_iff h.normal hpar hdel, @Iff.comm (d.rows.Tombstoned a)]
  simp only [Doc.flags_ne_iff h hf]
  constructor
  · intro hcomplete
    by_cases hdel : ∃ n, op.kind.Deletes n
    · exact Or.inl hdel
    rw [not_exists] at hdel
    refine Or.inr fun a p hflip hap => or_iff_not_imp_left.mpr fun hpT => ?_
    rw [hflips hdel] at hflip ⊢
    by_contra hnot
    rw [not_or, not_not] at hnot
    -- The node stays where it is, or its old parent is around the operation.
    have hap' : (d.apply Backend.memory op).rows.parent a = some p := by
      cases ht : d.rows.target op.kind with
      | none => rw [hparent, ht, Doc.hang, hap]
      | some q =>
        rw [hparent, ht, Doc.hang, Function.update_of_ne, hap]
        rintro rfl
        refine hnot.2 (Or.inr (Or.inl ⟨?_, Or.inl hap⟩))
        rw [Rows.parentAfter_of_target ht]
        rfl
    obtain ⟨l, l', hl, hl', ha, ha'⟩ := hreads p
    have hne := Doc.answers_apply_ne hap hpT hap' hflip hl hl'
    rw [← ha, ← ha'] at hne
    obtain haround | hflag := hcomplete p hpT hne
    · exact hnot.2 haround
    · exact hflag hnot.1
  · intro hreports n hnT hne
    by_contra hnot
    rw [not_or, not_not] at hnot
    obtain ⟨haround, hstays⟩ := hnot
    obtain ⟨l, l', hl, hl', ha, ha'⟩ := hreads n
    rw [ha, ha'] at hne
    refine hne (Doc.answers_apply haround hstays (fun c hc => ?_) hl hl').symm
    by_contra hflip
    by_cases hdel : ∃ n, op.kind.Deletes n
    · -- A delete flips only its node.
      refine hflip (Doc.tombstoned_delete_iff hdel fun he => haround (Or.inr (Or.inr ⟨hdel, ?_⟩)))
      rw [← he, hc]
    have hdel' : ∀ n, ¬ op.kind.Deletes n := not_exists.mp hdel
    obtain hT | hp | hp := hreports.resolve_left hdel c n ((hflips hdel' c).mpr hflip) hc
    · exact hnT hT
    · exact (hflips hdel' n).mp hp hstays
    · exact haround hp

/-! ## Runs -/

section

variable {I : Type} [Storage S] [Clock C] [ParentOpIndex I] {i i' : I} {seq : UInt64}
  {ops : List Operation}

omit [Clock C] [Storage S] in
theorem onDocs_eq (h : OnDocs (· = d) t) : ModelsDoc (t.nodes, t.payloads) d := by
  obtain ⟨_, rfl, hm⟩ := h
  exact hm

/-- An operation that is reported was accepted. -/
theorem accepted_of_some {delta : ApplyDelta}
    (hrun : applyRemoteWithMaterialization op seq (t, i) = some (.ok (some delta), (t', i'))) :
    ∃ st, Storage.apply op t.storage = some (.ok true, st) := by
  unfold applyRemoteWithMaterialization at hrun
  obtain ⟨e, -, he⟩ | ⟨applied, s₁, hdelta, hrun⟩ := bind_some hrun
  · cases he
  cases applied with
  | none => cases hrun
  | some delta₀ =>
    obtain ⟨t₁, hdelta, -⟩ := zoom_some hdelta
    unfold applyRemoteWithDelta at hdelta
    rw [modify_bind_run, modify_bind_run] at hdelta
    obtain ⟨e, -, he⟩ | ⟨accepted, t₂, hstore, hrest⟩ := bind_some hdelta
    · cases he
    obtain ⟨st, hst, -⟩ := zoom_some hstore
    have hstorage : (raised op (observed op t)).storage = t.storage := by
      unfold raised observed
      split <;> rfl
    rw [hstorage] at hst
    cases accepted with
    | false => cases hrest
    | true => exact ⟨st, hst⟩

/-- A remote operation in order, on a document with exact flags: what it reports is complete if and
only if the parents of the nodes that flip are reported. -/
theorem reported_iff {delta : ApplyDelta} (h : d.Exact) (hm : ModelsDoc (t.nodes, t.payloads) d)
    (hord : TakenInOrder op t)
    (hrun : applyRemoteWithMaterialization op seq (t, i) = some (.ok (some delta), (t', i'))) :
    ((∀ n, n ≠ NodeId.TRASH → t.answers n ≠ t'.answers n → n ∈ delta.affectedNodes) ↔
      d.ReportsParents op) ∧
    (¬ (op.kind.node.special ∧ (d.rows.target op.kind).isSome) → Flagged t') := by
  obtain ⟨V, f', hvisits, href, haffected, hdoc⟩ := applyRemoteWithMaterialization_at h.acyclic
    (h.listed_apply op) ((Doc.frame_apply d op).normal h.normal) seq (t, i) ⟨⟨d, rfl, hm⟩, hord⟩ _ _
    hrun
  have hf := h.flags_apply (fun s => mem_refreshStarts) hvisits href
  have hshaped : ¬ (op.kind.node.special ∧ (d.rows.target op.kind).isSome) →
      (d.apply Backend.memory op).Shaped := h.toShaped.apply_of_target
  refine ⟨(forall_congr' fun n => forall_congr' fun hn => ?_).trans
    (complete_iff h hm hf (onDocs_eq hdoc)), fun hs => ⟨_, ?_, onDocs_eq hdoc⟩⟩
  · rw [haffected, Doc.mem_directAffectedNodes]
    simp only [hn, ne_eq, not_false_eq_true, true_and, and_true]
  · exact ⟨⟨(hshaped hs).normal, (hshaped hs).acyclic, (hshaped hs).top, (hshaped hs).undeleted⟩, hf⟩

omit [Storage S] [Clock C] in
/-- Stores stand for one document. -/
theorem modelsDoc_unique {d d' : Doc} (h : ModelsDoc (t.nodes, t.payloads) d)
    (h' : ModelsDoc (t.nodes, t.payloads) d') : d = d' := by
  obtain ⟨⟨hrows, hflags, -⟩, hpayloads⟩ := h
  obtain ⟨⟨hrows', hflags', -⟩, hpayloads'⟩ := h'
  obtain ⟨rows, flags, payloads⟩ := d
  obtain ⟨rows', flags', payloads'⟩ := d'
  obtain rfl : rows = rows' := hrows.symm.trans hrows'
  obtain rfl : flags = flags' := hflags.symm.trans hflags'
  have he : payloads = payloads' := by
    funext n
    obtain ⟨h₁, h₂⟩ := hpayloads n
    obtain ⟨h₁', h₂'⟩ := hpayloads' n
    cases hp : payloads n
    cases hp' : payloads' n
    simp_all
  rw [he]

/-! ## Batches -/

/-- The operation is in order, and one that is accepted reports the parents of the nodes that flip
and hangs neither `ROOT` nor `TRASH`. -/
def ReportsAll (op : Operation) (t : StoreTree S C) : Prop :=
  TakenInOrder op t ∧ ∀ st, Storage.apply op t.storage = some (.ok true, st) →
    ∀ d, ModelsDoc (t.nodes, t.payloads) d →
      d.ReportsParents op ∧ ¬ (op.kind.node.special ∧ (d.rows.target op.kind).isSome)

/-- Every operation of a batch meets `P` where it is applied. -/
def EachMeets (P : Operation → StoreTree S C → Prop) :
    List Operation → UInt64 → StoreTree S C × I → Prop
  | [], _, _ => True
  | op :: ops, seq, s => P op s.1 ∧ ∀ r s',
      applyRemoteWithMaterializationSeq op seq s = some (.ok r, s') → EachMeets P ops r.2 s'

/-- One operation of a batch. -/
theorem reported_step {delta : Option ApplyDelta} (h : Flagged t) (hall : ReportsAll op t)
    (hrun : applyRemoteWithMaterialization op seq (t, i) = some (.ok delta, (t', i'))) :
    Flagged t' ∧ ∀ n, n ≠ NodeId.TRASH → t.answers n ≠ t'.answers n →
      n ∈ (delta.map (·.affectedNodes)).getD [] := by
  obtain ⟨d, hd, hm⟩ := h
  cases delta with
  | none =>
    have hsame := applyRemoteWithMaterialization_at hd.acyclic (hd.listed_apply op)
      ((Doc.frame_apply d op).normal hd.normal) seq (t, i) ⟨⟨d, rfl, hm⟩, hall.1⟩ _ _ hrun
    have hm' := onDocs_eq hsame
    refine ⟨⟨d, hd, hm'⟩, fun n _ hne => absurd ?_ hne⟩
    obtain ⟨l, hl, ha⟩ := answers_eq hm hd.listed hd.normal n
    obtain ⟨l', hl', ha'⟩ := answers_eq hm' hd.listed hd.normal n
    rw [ha, ha', hl.unique hl']
  | some delta =>
    obtain ⟨st, hst⟩ := accepted_of_some hrun
    obtain ⟨hreports, hspecial⟩ := hall.2 st hst d hm
    obtain ⟨hiff, hflagged⟩ := reported_iff hd hm hall.1 hrun
    exact ⟨hflagged hspecial, hiff.mpr hreports⟩

/-- A batch reports what it reported before, and every node whose reads change. -/
theorem applyEach_reports {affected : List NodeId} {r : UInt64 × List NodeId} (h : Flagged t)
    (heach : EachMeets ReportsAll ops seq (t, i))
    (hrun : applyEach ops seq affected (t, i) = some (.ok r, (t', i'))) :
    affected ⊆ r.2 ∧ ∀ n, n ≠ NodeId.TRASH → t.answers n ≠ t'.answers n → n ∈ r.2 := by
  induction ops generalizing seq affected t i with
  | nil =>
    cases hrun
    exact ⟨fun _ h => h, fun n _ hne => absurd rfl hne⟩
  | cons op ops ih =>
    unfold applyEach at hrun
    obtain ⟨e, -, he⟩ | ⟨⟨delta, seq'⟩, ⟨t₁, i₁⟩, hseq, hrest⟩ := bind_some hrun
    · cases he
    obtain ⟨hall, hnext⟩ := heach
    replace hnext := hnext _ _ hseq
    unfold applyRemoteWithMaterializationSeq at hseq
    obtain ⟨e, -, he⟩ | ⟨delta', s₁, hone, hret⟩ := bind_some hseq
    · cases he
    cases hret
    obtain ⟨hflagged, hstep⟩ := reported_step h hall hone
    obtain ⟨hsub, hreads⟩ := ih hflagged hnext hrest
    refine ⟨fun n hn => hsub (List.mem_append_left _ hn), fun n hT hne => ?_⟩
    by_cases hfirst : t.answers n = t₁.answers n
    · exact hreads n hT (hfirst ▸ hne)
    · exact hsub (List.mem_append_right _ (hstep n hT hfirst))

/-- What an operation in order reports is complete if and only if it reports the parents of the
nodes that it hides and brings back; a batch of such operations reports every node whose reads
change. -/
theorem affected_complete_iff (h : Flagged t) :
    (∀ op seq delta, TakenInOrder op t →
      applyRemoteWithMaterialization op seq (t, i) = some (.ok (some delta), (t', i')) →
      ((∀ n, n ≠ NodeId.TRASH → t.answers n ≠ t'.answers n → n ∈ delta.affectedNodes) ↔
        ∀ d, ModelsDoc (t.nodes, t.payloads) d → d.ReportsParents op)) ∧
    ∀ (cursor : TreeMeta) ops head affected,
      EachMeets ReportsAll (sortOps ops) cursor.headSeq (t, i) →
      applyIncrementalOpsWithDelta cursor ops (t, i) = some (.ok (head, affected), (t', i')) →
      ∀ n, n ≠ NodeId.TRASH → t.answers n ≠ t'.answers n → n ∈ affected := by
  refine ⟨fun op seq delta hord hrun => ?_, fun cursor ops head affected heach hrun n hT hne => ?_⟩
  · obtain ⟨d, hd, hm⟩ := h
    rw [(reported_iff hd hm hord hrun).1]
    exact ⟨fun hreports d' hm' => modelsDoc_unique hm hm' ▸ hreports, fun hall => hall d hm⟩
  · unfold applyIncrementalOpsWithDelta at hrun
    split at hrun
    · cases hrun
      exact absurd rfl hne
    split at hrun
    · cases hrun
    split at hrun
    · cases hrun
    obtain ⟨e, -, he⟩ | ⟨⟨seq', reported⟩, ⟨t₁, i₁⟩, heachrun, hrest⟩ := bind_some hrun
    · cases he
    obtain ⟨e, -, he⟩ | ⟨last, s₂, hhead, hret⟩ := bind_some hrest
    · cases he
    obtain ⟨t₂, hget, rfl⟩ := zoom_some hhead
    cases hget
    simp only at hret
    cases hlast : t₁.head with
    | none =>
      rw [hlast] at hret
      cases hret
    | some last =>
      rw [hlast] at hret
      cases hret
      exact mem_sortedNodeIds.mpr ((applyEach_reports h heach heachrun).2 n hT hne)

end

/-! Node `5` is deleted, and an edit that the delete does not know brings it back: the children of
`ROOT` change. -/

def nodeInsert : Operation := .insert ⟨[2]⟩ 1 1 NodeId.ROOT ⟨5⟩ [0, 7]

/-- A delete of `5` that knows its insert. -/
def nodeDelete : Operation := .delete ⟨[3]⟩ 1 2 ⟨5⟩ (some (VersionVector.new.observe ⟨[2]⟩ 1))

def nodeEdit : Operation := .payload ⟨[4]⟩ 1 3 ⟨5⟩ (some [1])

def nodeInserted : SampleState :=
  stateAfter (applyRemoteWithMaterialization nodeInsert 1) sampleNew

/-- The insert and the delete were taken in order. -/
def nodeDeleted : SampleState := stateAfter (applyRemoteWithMaterialization nodeDelete 2) nodeInserted

def nodeEdited : SampleState := stateAfter (applyRemoteWithMaterialization nodeEdit 3) nodeDeleted

/-- What a method of the sample returned. -/
def reportOf (c : Exec Error SampleState (Option ApplyDelta)) (s : SampleState) :
    Option ApplyDelta :=
  match c s with
  | some (.ok delta, _) => delta
  | _ => none

theorem reportOf_run {c : Exec Error SampleState (Option ApplyDelta)} {s : SampleState}
    {delta : ApplyDelta} (h : reportOf c s = some delta) :
    c s = some (.ok (some delta), stateAfter c s) := by
  unfold reportOf at h
  unfold stateAfter
  split at h
  · rename_i delta' s' hrun
    rw [hrun, h]
  · cases h

/-- The insert and the delete leave exact flags. -/
theorem nodeDeleted_flagged : Flagged nodeDeleted.1 := by
  have hstart : StartsFlagged sampleNew :=
    .fresh (t := sampleNew.1) (show TreeCrdt.new ⟨[1]⟩ {} ({} : LamportClock) = _ from rfl)
  have hdelta : ∀ op seq (s : SampleState),
      (reportOf (applyRemoteWithMaterialization op seq) s).isSome →
      ∃ delta, applyRemoteWithMaterialization op seq s =
        some (.ok delta, stateAfter (applyRemoteWithMaterialization op seq) s) := fun op seq s h => by
    obtain ⟨delta, hdelta⟩ := Option.isSome_iff_exists.mp h
    exact ⟨_, reportOf_run hdelta⟩
  obtain ⟨_, hinsert⟩ := hdelta nodeInsert 1 sampleNew (by decide +kernel)
  obtain ⟨_, hdelete⟩ := hdelta nodeDelete 2 nodeInserted (by decide +kernel)
  have hrun : FlagRun sampleNew nodeDeleted :=
    .remote (.remote .start (by decide) (Or.inl rfl) hinsert) (by decide)
      (Or.inl (by decide +kernel)) hdelete
  exact hrun.flagged hstart.flagged

theorem nodeEdit_run : ∃ delta, delta.affectedNodes = [⟨5⟩] ∧
    applyRemoteWithMaterialization nodeEdit 3 nodeDeleted = some (.ok (some delta), nodeEdited) := by
  have hreport : (reportOf (applyRemoteWithMaterialization nodeEdit 3) nodeDeleted).map
      (·.affectedNodes) = some [⟨5⟩] := by decide +kernel
  obtain ⟨delta, hdelta, he⟩ := Option.map_eq_some_iff.mp hreport
  exact ⟨delta, he, reportOf_run hdelta⟩

/-- `ROOT` gets a child back, and is not reported. -/
theorem restored_parent_unreported : Flagged nodeDeleted.1 ∧
    nodeDeleted.1.isInOrder nodeEdit = true ∧
    ∃ delta, applyRemoteWithMaterialization nodeEdit 3 nodeDeleted =
        some (.ok (some delta), nodeEdited) ∧
      nodeDeleted.1.answers NodeId.ROOT ≠ nodeEdited.1.answers NodeId.ROOT ∧
      NodeId.ROOT ∉ delta.affectedNodes := by
  obtain ⟨delta, haffected, hrun⟩ := nodeEdit_run
  refine ⟨nodeDeleted_flagged, by decide +kernel, delta, hrun, fun he => ?_, by
    rw [haffected]; decide⟩
  have hbefore : (children NodeId.ROOT nodeDeleted.1.nodes).map Prod.fst = some (.ok []) := by
    decide +kernel
  have hafter : (children NodeId.ROOT nodeEdited.1.nodes).map Prod.fst = some (.ok [⟨5⟩]) := by
    decide +kernel
  have hchildren := congrArg Answers.children he
  simp only [answers, hbefore, hafter] at hchildren
  cases hchildren

/-- The edit of the deleted node. -/
theorem affected_complete_iff_edit : ∃ delta : ApplyDelta,
    (∀ n, n ≠ NodeId.TRASH → nodeDeleted.1.answers n ≠ nodeEdited.1.answers n →
        n ∈ delta.affectedNodes) ↔
      ∀ d, ModelsDoc (nodeDeleted.1.nodes, nodeDeleted.1.payloads) d →
        d.ReportsParents nodeEdit := by
  obtain ⟨delta, -, hrun⟩ := nodeEdit_run
  exact ⟨delta, (affected_complete_iff nodeDeleted_flagged).1 nodeEdit 3 delta
    (Or.inl (by decide +kernel)) hrun⟩

end TreeCrdt

end Treecrdt
