import TreecrdtLean.Core.Materialize
import TreecrdtLean.Spec.Flags
import TreecrdtLean.Tree.Shape

/-!
# Cached tombstones stay exact

An operation changes the tombstones of nodes above its node, above the parent that the node had and
above the one it gets, and the refresh behind it visits all of these: a document keeps exact flags
(`Doc.Exact.apply`). So does a tree, over local operations and remote ones in order, from a new tree
or from a full replay.
-/

namespace Treecrdt

open Exec Forest

/-! ## Exact flags -/

namespace Doc

/-- A document with `ROOT` and `TRASH` at the top, and not deleted. -/
structure Shaped (d : Doc) : Prop where
  normal : d.rows.Normal
  acyclic : Acyclic d.rows.up
  top : ∀ n, n.special → d.rows.parent n = none
  undeleted : ∀ n, n.special → (d.rows.row n).deletedAt = none

/-- A document whose flags are exact. -/
structure Exact (d : Doc) : Prop extends Shaped d where
  flags : d.rows.Exact d.flags

theorem Shaped.initial : initial.Shaped where
  normal := accounted_initial.normal
  acyclic := acyclic_initial
  top n hn := by rcases hn with rfl | rfl <;> rfl
  undeleted n _ := by rw [row_initial]; rfl

theorem Exact.initial : initial.Exact where
  toShaped := .initial
  flags n := by
    have : ¬ Doc.initial.rows.Tombstoned n := Rows.not_tombstoned (by rw [row_initial]; rfl)
    simpa [Doc.initial] using this

/-- The listed parents are a forest. -/
theorem Shaped.listed {d : Doc} (h : d.Shaped) : Acyclic d.rows.listed := by
  refine h.acyclic.of_imp fun a b hab => ?_
  have hp := (Rows.listed_eq_some.mp hab).2
  rw [Rows.up, if_neg fun hs => by rw [h.top a hs] at hp; cases hp]
  exact hp

/-- Rows with the same tombstones but for what is visited. -/
theorem exact_refreshed {r r' : Rows} {V : NodeId → Prop} {f f' : NodeId → Bool} (h : r.Exact f)
    (href : r'.Refreshed V f f') (hsame : ∀ n, ¬ V n → (r'.Tombstoned n ↔ r.Tombstoned n))
    (hgrows : ∀ n, (r.row n).deletedAt.isSome → (r'.row n).deletedAt.isSome) : r'.Exact f' := by
  intro n
  by_cases hV : V n
  · by_cases hdel : (r'.row n).deletedAt.isSome
    · exact href.visited n hV hdel
    · have hnone := Option.not_isSome_iff_eq_none.mp hdel
      have hnone' := Option.not_isSome_iff_eq_none.mp fun h => hdel (hgrows n h)
      obtain he | ht := href.kept n
      · rw [he, h n]
        exact iff_of_false (Rows.not_tombstoned hnone') (Rows.not_tombstoned hnone)
      · exact ht
  · obtain he | ht := href.kept n
    · rw [he, h n, hsame n hV]
    · exact ht

variable {d : Doc} {op : Operation} {V : NodeId → Prop} {f' : NodeId → Bool}
  {starts : List NodeId}

/-- No operation deletes `ROOT` or `TRASH`. -/
theorem Shaped.undeleted_apply (h : d.Shaped) (op : Operation) {n : NodeId} (hn : n.special) :
    ((d.apply Backend.memory op).rows.row n).deletedAt = none :=
  ((frame_apply d op).deleted n fun hdel => hdel.2 hn).trans (h.undeleted n hn)

/-- An operation that hangs neither `ROOT` nor `TRASH`. -/
theorem Shaped.apply_of_target (h : d.Shaped)
    (hs : ¬ (op.kind.node.special ∧ (d.rows.target op.kind).isSome)) :
    (d.apply Backend.memory op).Shaped where
  normal := (frame_apply d op).normal h.normal
  acyclic := acyclic_apply h.acyclic _ op
  top := (special_parent_apply d op).mpr ⟨h.top, hs⟩
  undeleted _ hn := h.undeleted_apply op hn

/-- An operation on a node other than `ROOT` and `TRASH`. -/
theorem Shaped.apply (h : d.Shaped) (hs : ¬ op.kind.node.special) :
    (d.apply Backend.memory op).Shaped := h.apply_of_target fun hspecial => hs hspecial.1

/-- The refresh behind an operation makes the flags exact. -/
theorem Exact.flags_apply (h : d.Exact) (hstarts : ∀ s, d.Starts op s → s ∈ starts)
    (hvisits : (d.apply Backend.memory op).rows.Visits starts [] V)
    (href : (d.apply Backend.memory op).rows.Refreshed V d.flags f') :
    (d.apply Backend.memory op).rows.Exact f' := by
  refine exact_refreshed h.flags href (fun n hV => ?_) (frame_apply d op).grows
  by_cases hn : n.special
  · exact iff_of_false (Rows.not_tombstoned (h.undeleted_apply op hn))
      (Rows.not_tombstoned (h.undeleted n hn))
  refine tombstoned_apply fun s hstart habove =>
    hV (hvisits.above (fun n p hn hp => hstarts p ?_) (hstarts s hstart) habove hn)
  -- Only the operated node can have come under a parent.
  rw [parent_apply fun _ => rfl] at hp
  cases ht : d.rows.target op.kind with
  | none =>
    rw [ht, hang, h.top n hn] at hp
    cases hp
  | some q =>
    rw [ht, hang] at hp
    by_cases he : n = op.kind.node
    · rw [he, Function.update_self] at hp
      exact Or.inr (Or.inr (Rows.parentAfter_of_target (ht.trans hp)))
    · rw [Function.update_of_ne he, h.top n hn] at hp
      cases hp

/-- An operation on a node other than `ROOT` and `TRASH`, and the refresh behind it. -/
theorem Exact.apply (h : d.Exact) (hs : ¬ op.kind.node.special)
    (hstarts : ∀ s, d.Starts op s → s ∈ starts)
    (hvisits : (d.apply Backend.memory op).rows.Visits starts [] V)
    (href : (d.apply Backend.memory op).rows.Refreshed V d.flags f') :
    Exact { d.apply Backend.memory op with flags := f' } := by
  have hshaped := h.toShaped.apply hs
  exact ⟨⟨hshaped.normal, hshaped.acyclic, hshaped.top, hshaped.undeleted⟩,
    h.flags_apply hstarts hvisits href⟩

/-- A refresh of exact flags. -/
theorem Exact.refresh (h : d.Exact) (href : d.rows.Refreshed V d.flags f') :
    Exact { d with flags := f' } :=
  ⟨⟨h.normal, h.acyclic, h.top, h.undeleted⟩,
    exact_refreshed h.flags href (fun _ _ => Iff.rfl) fun _ hn => hn⟩

/-- A refresh of all flags, where no flag is set of a node that is not deleted. -/
theorem Shaped.refreshAll (h : d.Shaped) (hflags : ∀ n, d.flags n = false) :
    Exact { d with flags := d.rows.refreshedAll d.flags } := by
  refine ⟨⟨h.normal, h.acyclic, h.top, h.undeleted⟩, fun n => ?_⟩
  show d.rows.refreshedAll d.flags n = true ↔ d.rows.Tombstoned n
  rw [Rows.refreshedAll]
  split_ifs with hdel
  · simp
  · rw [hflags]
    refine iff_of_false Bool.false_ne_true (Rows.not_tombstoned ?_)
    by_cases hn : n.special
    · exact h.undeleted n hn
    · exact Option.not_isSome_iff_eq_none.mp fun hsome => hdel ⟨hn, hsome⟩

end Doc

/-! ## Trees -/

namespace TreeCrdt

/-- A tree over the in-memory stores, with any log. -/
abbrev StoreTree (S C : Type) := TreeCrdt S C MemoryNodeStore MemoryPayloadStore

variable {S C I α : Type} {A : Doc → Prop} {E : Error → Prop} {Q : α → Prop}

/-- The stores of the tree stand for a document in `A`. -/
def OnDocs (A : Doc → Prop) (t : StoreTree S C) : Prop :=
  ∃ d, A d ∧ ModelsDoc (t.nodes, t.payloads) d

theorem OnDocs.modify {f : StoreTree S C → StoreTree S C}
    (hf : ∀ t, (f t).nodes = t.nodes ∧ (f t).payloads = t.payloads) :
    Keeps (OnDocs A) E (modify f) fun _ => True :=
  Keeps.modify fun t ⟨d, hd, hm⟩ => ⟨d, hd, by rw [(hf t).1, (hf t).2]; exact hm⟩

theorem OnDocs.onStorage (c : Exec Error S α) :
    Keeps (OnDocs (C := C) A) (fun _ => True) (onStorage c) fun _ => True :=
  (Keeps.any c).zoom (fun _ _ => trivial) fun _ _ h _ => h

theorem OnDocs.onStores {c : Exec Error MemoryStores α}
    (h : ∀ d, A d → ∃ d', A d' ∧ Runs ModelsDoc d c Q d') :
    Keeps (OnDocs (S := S) (C := C) A) E (onStores c) Q :=
  (Runs.keeps h).zoom (fun _ h => h) fun _ _ _ h => h

theorem OnDocs.onPayloads {c : Exec Error MemoryPayloadStore α}
    (h : ∀ d, A d → Runs MemoryPayloadStore.Models d.payloads c Q d.payloads) :
    Keeps (OnDocs (S := S) (C := C) A) E (onPayloads c) Q := by
  intro t ⟨d, hd, hm⟩ r t' hr
  obtain ⟨p, hc, rfl⟩ := zoom_some hr
  obtain ⟨a, p', hrun, ha, hp⟩ := h d hd t.payloads hm.2
  rw [hrun] at hc
  cases hc
  exact ⟨⟨d, hd, hm.1, hp⟩, ha⟩

/-- The index takes no part in the stores. -/
theorem keeps_onIndex (J : StoreTree S C → Prop) (c : Exec Error I α) :
    Keeps (fun s => J s.1) (fun _ => True) (onIndex c) fun _ => True :=
  (Keeps.any c).zoom (fun _ _ => trivial) fun _ _ h _ => h

theorem keeps_onTree {J : StoreTree S C → Prop} {c : Exec Error (StoreTree S C) α}
    (hc : Keeps J E c Q) : Keeps (fun s : StoreTree S C × I => J s.1) E (onTree c) Q :=
  hc.zoom (fun _ h => h) fun _ _ _ h => h

/-- A method of the tree, next to the index. -/
theorem onTree_triple {P : StoreTree S C → Prop} {c : Exec Error (StoreTree S C) α}
    {R : α → StoreTree S C → Prop} {E : Error → StoreTree S C → Prop} (h : Triple P c R E) :
    Triple (fun s : StoreTree S C × I => P s.1) (onTree c) (fun a s => R a s.1) fun _ _ => True :=
  h.zoom (fun _ h => h) (fun _ _ _ _ h => h) fun _ _ _ _ _ => trivial

/-! ## An operation and its refresh -/

/-- The cached flags of the tree are exact. -/
def Flagged (t : StoreTree S C) : Prop := OnDocs Doc.Exact t

/-- The operation was applied to a document with exact flags, and the refresh is due. -/
def Due (op : Operation) (snap : NodeSnapshot) (d' : Doc) : Prop :=
  ∃ d : Doc, d.Exact ∧ ¬ op.kind.node.special ∧ snap.parent = d.rows.parent op.kind.node ∧
    d' = d.apply Backend.memory op

variable {op : Operation}

theorem mem_affectedParents {parent : Option NodeId} {kind : OperationKind} {n : NodeId} :
    n ∈ affectedParents parent kind ↔ parent = some n ∨ kind.parentAfter = some n := by
  unfold affectedParents
  rw [mem_sortedNodeIds, List.mem_append, Option.mem_toList]
  refine or_congr_right ?_
  cases kind <;> simp [OperationKind.parentAfter, eq_comm]

/-- The operation on a document whose parents are a forest. -/
theorem forward_at {d : Doc} (hd : Acyclic d.rows.up) (op : Operation) :
    Triple (OnDocs (S := S) (C := C) (· = d)) (onStores (applyForward op))
      (fun snap t => snap.parent = d.rows.parent op.kind.node ∧
        OnDocs (· = d.apply Backend.memory op) t) fun _ _ => False := by
  rintro t ⟨_, rfl, hm⟩ r t' hrun
  obtain ⟨s, hs', rfl⟩ := zoom_some hrun
  obtain ⟨snap, s₁, hfwd, hsnap, hm₁⟩ := applyForward_runs hd op (t.nodes, t.payloads) hm
  rw [hfwd] at hs'
  cases hs'
  exact ⟨hsnap, _, rfl, hm₁⟩

theorem forward_triple (hs : ¬ op.kind.node.special) :
    Triple (Flagged (S := S) (C := C)) (onStores (applyForward op))
      (fun snap => OnDocs (Due op snap)) fun _ _ => False := by
  rintro t ⟨d, hd, hm⟩ r t' hrun
  have := forward_at hd.acyclic op t ⟨d, rfl, hm⟩ r t' hrun
  cases r with
  | error e => exact this
  | ok snap =>
    obtain ⟨hsnap, _, rfl, hm'⟩ := this
    exact ⟨_, ⟨d, hd, hs, hsnap, rfl⟩, hm'⟩

/-- A refresh, on a document whose listed parents are a forest. -/
theorem refresh_at {d : Doc} (hlisted : Acyclic d.rows.listed) (hnormal : d.rows.Normal)
    (starts : List NodeId) :
    Triple (OnDocs (S := S) (C := C) (· = d)) (onNodes (refreshTombstonesUpwardWithDelta starts))
      (fun changed t => ∃ V f', d.rows.Visits starts [] V ∧ d.rows.Refreshed V d.flags f' ∧
        (∀ n, n ∈ changed ↔ d.flags n ≠ f' n) ∧ OnDocs (· = { d with flags := f' }) t)
      fun _ _ => False := by
  rintro t ⟨_, rfl, hm⟩ r t' hrun
  obtain ⟨V, f', hvisits, href, hruns⟩ :=
    refreshTombstonesUpwardWithDelta_runs hlisted hnormal starts _
  obtain ⟨n, hnodes, rfl⟩ := onNodes_some hrun
  obtain ⟨changed, n', hrun', hchanged, hn⟩ := hruns t.nodes hm.1
  rw [hrun'] at hnodes
  cases hnodes
  exact ⟨V, f', hvisits, href, hchanged, _, rfl, hn, hm.2⟩

/-- Where the refresh behind an operation starts. -/
def refreshStarts (d : Doc) (op : Operation) : List NodeId :=
  affectedParents (d.rows.parent op.kind.node) op.kind ++ [op.kind.node]

theorem mem_refreshStarts {d : Doc} {s : NodeId} (h : d.Starts op s) : s ∈ refreshStarts d op := by
  rw [refreshStarts, List.mem_append, mem_affectedParents, List.mem_singleton]
  obtain h | h | h := h
  · exact Or.inr h
  · exact Or.inl (Or.inl h)
  · exact Or.inl (Or.inr h)

/-- The refresh that is due, from the parents around the operation and its node. -/
theorem refresh_triple (op : Operation) (snap : NodeSnapshot) :
    Triple (OnDocs (S := S) (C := C) (Due op snap))
      (onNodes (refreshTombstonesUpwardWithDelta
        (affectedParents snap.parent op.kind ++ [op.kind.node])))
      (fun _ => Flagged) fun _ _ => False := by
  rintro t ⟨_, ⟨d, hd, hs, hparent, rfl⟩, hm⟩ r t' hrun
  have hshaped := hd.toShaped.apply hs
  rw [hparent] at hrun
  have := refresh_at hshaped.listed hshaped.normal _ t ⟨_, rfl, hm⟩ r t' hrun
  cases r with
  | error e => exact this
  | ok changed =>
    obtain ⟨V, f', hvisits, href, -, _, rfl, hm'⟩ := this
    rw [Doc.flags_apply] at href
    exact ⟨_, hd.apply hs (fun s => mem_refreshStarts) hvisits href, hm'⟩

/-- A refresh from anywhere. -/
theorem refresh_keeps_flagged (starts : List NodeId) :
    Keeps (Flagged (S := S) (C := C)) E (onNodes (refreshTombstonesUpwardWithDelta starts))
      fun _ => True := by
  intro t ⟨d, hd, hm⟩ r t' hrun
  have := refresh_at hd.listed hd.normal starts t ⟨d, rfl, hm⟩ r t' hrun
  cases r with
  | error e => exact this.elim
  | ok changed =>
    obtain ⟨V, f', -, href, -, _, rfl, hm'⟩ := this
    exact ⟨⟨_, hd.refresh href, hm'⟩, trivial⟩

theorem refreshTombstonesUpward_eq {N : Type} [NodeStore N] (starts : List NodeId) :
    (refreshTombstonesUpward starts : Exec Error N Unit) =
      (refreshTombstonesUpwardWithDelta starts : Exec Error N _) >>= fun _ => pure () := rfl

theorem onNodes_bind_pure {N P : Type} (c : Exec Error N α) :
    (onNodes (c >>= fun _ => pure ()) : Exec Error (TreeCrdt S C N P) Unit) =
      onNodes c >>= fun _ => pure () := zoom_bind_pure c ()

/-- A refresh whose changes nobody asks for. -/
theorem onNodes_refreshTombstonesUpward {N P : Type} [NodeStore N] (starts : List NodeId) :
    (onNodes (refreshTombstonesUpward starts) : Exec Error (TreeCrdt S C N P) Unit) =
      onNodes (refreshTombstonesUpwardWithDelta starts) >>= fun _ => pure () := by
  rw [refreshTombstonesUpward_eq]
  exact onNodes_bind_pure _

theorem refreshUpward_keeps_flagged (starts : List NodeId) :
    Keeps (Flagged (S := S) (C := C)) E (onNodes (refreshTombstonesUpward starts))
      fun _ => True := by
  rw [onNodes_refreshTombstonesUpward]
  exact (refresh_keeps_flagged starts).bind fun _ _ => Keeps.pure trivial

/-! ## Remote operations -/

section

variable [Storage S] [Clock C] [ParentOpIndex I] {t : StoreTree S C}

/-- The operation is newer than the head, or in the log. -/
def TakenInOrder (op : Operation) (t : StoreTree S C) : Prop :=
  t.isInOrder op = true ∨ ∃ st, Storage.apply op t.storage = some (.ok false, st)

/-- Such an operation changes nothing, or is applied to the document. -/
theorem applyRemoteWithDelta_at {d : Doc} (hd : Acyclic d.rows.up) (op : Operation) :
    Triple (fun t : StoreTree S C => OnDocs (· = d) t ∧ TakenInOrder op t) (applyRemoteWithDelta op)
      (fun delta t => match delta with
        | none => OnDocs (· = d) t
        | some delta => delta.snapshot.parent = d.rows.parent op.kind.node ∧
            delta.affectedNodes = directAffectedNodes (d.rows.parent op.kind.node) op.kind ∧
            OnDocs (· = d.apply Backend.memory op) t)
      fun _ => OnDocs (· = d) := by
  rintro t ⟨h, hord⟩ r t' hrun
  set t₁ := raised op (observed op t) with ht₁
  have hsame : t₁.nodes = t.nodes ∧ t₁.payloads = t.payloads ∧ t₁.head = t.head ∧
      t₁.storage = t.storage := by
    rw [ht₁]
    unfold raised observed
    split <;> exact ⟨rfl, rfl, rfl, rfl⟩
  obtain ⟨hnodes, hpayloads, hhead, hstorage⟩ := hsame
  have h₁ : OnDocs (· = d) t₁ := by
    rw [OnDocs, hnodes, hpayloads]
    exact h
  unfold applyRemoteWithDelta at hrun
  rw [modify_bind_run, modify_bind_run, ← ht₁] at hrun
  obtain ⟨e, hstore, rfl⟩ | ⟨accepted, t₂, hstore, hrun⟩ := bind_some hrun
  · exact (OnDocs.onStorage _ t₁ h₁ _ _ hstore).1
  have h₂ : OnDocs (· = d) t₂ := (OnDocs.onStorage _ t₁ h₁ _ _ hstore).1
  obtain ⟨st, hst, rfl⟩ := zoom_some hstore
  cases accepted with
  | false =>
    cases hrun
    exact h₂
  | true =>
    have hord₁ : isInOrder { t₁ with storage := st } op = true := by
      unfold isInOrder
      rw [show TreeCrdt.head { t₁ with storage := st } = t.head from hhead]
      refine hord.resolve_right fun ⟨st', hst'⟩ => ?_
      rw [hstorage, hst'] at hst
      cases hst
    simp only [Bool.not_true, Bool.false_eq_true, if_false] at hrun
    rw [gets_bind_run, if_pos hord₁] at hrun
    obtain ⟨e, hfwd, rfl⟩ | ⟨snap, t₃, hfwd, hrun⟩ := bind_some hrun
    · exact (forward_at hd op _ h₂ _ _ hfwd).elim
    · obtain ⟨hsnap, h₃⟩ := forward_at hd op _ h₂ _ _ hfwd
      cases hrun
      exact ⟨hsnap, by rw [hsnap], h₃⟩

/-- Such an operation changes nothing, or its refresh is due. -/
theorem applyRemoteWithDelta_triple (hs : ¬ op.kind.node.special) :
    Triple (fun t : StoreTree S C => Flagged t ∧ TakenInOrder op t) (applyRemoteWithDelta op)
      (fun delta t => match delta with
        | none => Flagged t
        | some delta => OnDocs (Due op delta.snapshot) t)
      fun _ => Flagged := by
  rintro t ⟨⟨d, hd, hm⟩, hord⟩ r t' hrun
  have := applyRemoteWithDelta_at hd.acyclic op t ⟨⟨d, rfl, hm⟩, hord⟩ r t' hrun
  cases r with
  | error e =>
    obtain ⟨_, rfl, hm'⟩ := this
    exact ⟨_, hd, hm'⟩
  | ok delta =>
    cases delta with
    | none =>
      obtain ⟨_, rfl, hm'⟩ := this
      exact ⟨_, hd, hm'⟩
    | some delta =>
      obtain ⟨hsnap, -, _, rfl, hm'⟩ := this
      exact ⟨_, ⟨d, hd, hs, hsnap, rfl⟩, hm'⟩

omit [Storage S] [Clock C] in
theorem recordPayloadWriter_keeps_onDocs (parent node : NodeId) (seq : UInt64) :
    Keeps (fun s : StoreTree S C × I => OnDocs A s.1) (fun _ => True)
      (recordPayloadWriter parent node seq) fun _ => True := by
  unfold recordPayloadWriter
  refine (keeps_onTree (OnDocs.onPayloads (Q := fun _ => True) fun d _ =>
    (LawfulPayloadStore.lastWriter d.payloads node).imp fun _ _ => trivial)).bind fun w _ => ?_
  cases w with
  | none => exact Keeps.pure trivial
  | some w => exact keeps_onIndex _ _

/-- The operation was applied to the document, and the refresh behind it has run: it reports the
nodes around it, and those whose flags the refresh changed. -/
def Refreshed (d : Doc) (op : Operation) (delta : ApplyDelta) (t : StoreTree S C) : Prop :=
  ∃ V f', (d.apply Backend.memory op).rows.Visits (refreshStarts d op) [] V ∧
    (d.apply Backend.memory op).rows.Refreshed V d.flags f' ∧
    (∀ n, n ∈ delta.affectedNodes ↔
      n ∈ directAffectedNodes (d.rows.parent op.kind.node) op.kind ∨
        d.flags n ≠ f' n ∧ n ≠ NodeId.TRASH) ∧
    OnDocs (· = { d.apply Backend.memory op with flags := f' }) t

/-- A remote operation in order, or one that is in the log, with its records and its refresh. An
index that fails hands its error up before the refresh. -/
theorem applyRemoteWithMaterialization_at {d : Doc} (hd : Acyclic d.rows.up)
    (hlisted : Acyclic (d.apply Backend.memory op).rows.listed)
    (hnormal : (d.apply Backend.memory op).rows.Normal) (seq : UInt64) :
    Triple (fun s : StoreTree S C × I => OnDocs (· = d) s.1 ∧ TakenInOrder op s.1)
      (applyRemoteWithMaterialization op seq)
      (fun delta s => match delta with
        | none => OnDocs (· = d) s.1
        | some delta => Refreshed d op delta s.1)
      fun _ _ => True := by
  unfold applyRemoteWithMaterialization
  refine ((onTree_triple (applyRemoteWithDelta_at hd op)).conseq (fun _ h => h) (fun _ _ h => h)
    fun _ _ _ => trivial).bind fun delta => ?_
  cases delta with
  | none => exact Triple.pure fun _ h => h
  | some delta =>
    simp only
    intro s ⟨hsnap, haffected, hs⟩
    refine Triple.bind (P := fun s => OnDocs (· = d.apply Backend.memory op) s.1)
      (Q := fun _ s => OnDocs (· = d.apply Backend.memory op) s.1) ?_ (fun _ => ?_) s hs
    · exact (keeps_onIndex _ _).triple.conseq (fun _ h => h) (fun _ _ h => h.1) fun _ _ _ => trivial
    -- The records leave the stores alone.
    have hrecord : ∀ parent node, Triple
        (fun s : StoreTree S C × I => OnDocs (· = d.apply Backend.memory op) s.1)
        (recordPayloadWriter parent node seq)
        (fun _ s => OnDocs (· = d.apply Backend.memory op) s.1) fun _ _ => True := fun _ _ =>
      (recordPayloadWriter_keeps_onDocs _ _ _).triple.conseq (fun _ h => h) (fun _ _ h => h.1)
        fun _ _ _ => trivial
    have hrefresh : Triple
        (fun s : StoreTree S C × I => OnDocs (· = d.apply Backend.memory op) s.1)
        (do
          let changed ← onTree (onNodes (refreshTombstonesUpwardWithDelta
            (affectedParents delta.snapshot.parent op.kind ++ [op.kind.node])))
          return some { delta with
            affectedNodes :=
              sortedNodeIds (delta.affectedNodes ++ changed.filter (· ≠ NodeId.TRASH)) })
        (fun delta s => match delta with
          | none => OnDocs (· = d) s.1
          | some delta => Refreshed d op delta s.1) fun _ _ => True := by
      have hstarts : affectedParents (d.rows.parent op.kind.node) op.kind ++ [op.kind.node] =
          refreshStarts d op := rfl
      rw [hsnap, hstarts]
      refine (onTree_triple (refresh_at hlisted hnormal (refreshStarts d op))).bind fun changed => ?_
      refine Triple.pure fun s ⟨V, f', hvisits, href, hchanged, hdoc⟩ => ?_
      rw [Doc.flags_apply] at href hchanged
      refine ⟨V, f', hvisits, href, fun n => ?_, hdoc⟩
      simp only [mem_sortedNodeIds, List.mem_append, List.mem_filter, hchanged, haffected,
        decide_eq_true_eq]
    cases op.kind.parentAfter with
    | none => exact hrefresh
    | some parentAfter =>
      simp only
      split
      · exact (hrecord _ _).bind fun _ => hrefresh
      · exact hrefresh

/-- Such an operation keeps the flags exact. -/
theorem applyRemoteWithMaterialization_triple (hs : ¬ op.kind.node.special) (seq : UInt64) :
    Triple (fun s : StoreTree S C × I => Flagged s.1 ∧ TakenInOrder op s.1)
      (applyRemoteWithMaterialization op seq) (fun _ s => Flagged s.1) fun _ _ => True := by
  rintro s ⟨⟨d, hd, hm⟩, hord⟩ r s' hrun
  have hshaped := hd.toShaped.apply hs
  have := applyRemoteWithMaterialization_at hd.acyclic hshaped.listed hshaped.normal seq s
    ⟨⟨d, rfl, hm⟩, hord⟩ r s' hrun
  cases r with
  | error e => trivial
  | ok delta =>
    cases delta with
    | none =>
      obtain ⟨_, rfl, hm'⟩ := this
      exact ⟨_, hd, hm'⟩
    | some delta =>
      obtain ⟨V, f', hvisits, href, -, _, rfl, hm'⟩ := this
      exact ⟨_, hd.apply hs (fun s => mem_refreshStarts) hvisits href, hm'⟩

end

/-! ## Local operations -/

theorem commitLocal_keeps_flagged [Storage S] (hs : ¬ op.kind.node.special) :
    Keeps (Flagged (S := S) (C := C)) (fun _ => True) (commitLocal op) fun _ => True := by
  refine Triple.keeps ?_
  unfold commitLocal
  have hstore : Triple (Flagged (S := S) (C := C)) (onStorage (Storage.apply op))
      (fun _ => Flagged) fun _ => Flagged :=
    (OnDocs.onStorage _).triple.conseq (fun _ h => h) (fun _ _ h => h.1) fun _ _ h => h.1
  refine Triple.bind (Q := fun _ => Flagged) (Triple.modify fun _ h => h) fun _ => ?_
  refine hstore.bind fun accepted => ?_
  cases accepted with
  | false => exact Triple.pure fun _ h => h
  | true =>
    simp only [Bool.not_true, Bool.false_eq_true, if_false]
    refine ((forward_triple hs).conseq (fun _ h => h) (fun _ _ h => h)
      fun _ _ h => h.elim).bind fun snap => ?_
    rw [onNodes_refreshTombstonesUpward]
    refine Triple.bind (Q := fun _ => Flagged) ?_ fun _ => ?_
    · exact ((refresh_triple op snap).conseq (fun _ h => h) (fun _ _ h => h)
        fun _ _ h => h.elim).bind fun _ => Triple.pure fun _ h => h
    · exact Triple.bind (Q := fun _ => Flagged) (Triple.modify fun _ h => h) fun _ =>
        Triple.pure fun _ h => h

/-- A read of the nodes. -/
def Reads (c : Exec Error MemoryNodeStore α) : Prop :=
  ∀ s, Keeps (· = s) (fun _ => True) c fun _ => True

theorem Reads.getState {f : MemoryNodeState → α} (n : NodeId) :
    Reads (do return f (← MemoryNodeStore.getState n)) := by
  refine fun s => Keeps.bind (Q := fun _ => True) (fun s' hs r s'' hrun => ?_) fun _ _ =>
    Keeps.pure trivial
  obtain ⟨-, rfl⟩ := Prod.mk.inj (Option.some.inj hrun)
  exact ⟨hs, by cases r <;> trivial⟩

theorem Reads.map {c : Exec Error MemoryNodeStore α} {β : Type} {f : α → β} (h : Reads c) :
    Reads (do return f (← c)) := fun s => (h s).bind fun _ _ => Keeps.pure trivial

theorem subtreeVersionVector_reads (n : NodeId) : Reads (NodeStore.subtreeVersionVector n) := by
  intro s
  unfold NodeStore.subtreeVersionVector
  generalize walkLimit = depth
  induction depth generalizing n with
  | zero => exact Keeps.diverge
  | succ depth ih =>
    unfold subtreeVersionVectorAt
    refine (Keeps.gets (Q := fun _ => True) fun _ _ => trivial).bind fun b _ => ?_
    cases b with
    | false => exact Keeps.pure trivial
    | true =>
      refine (Reads.getState n s).bind fun vv _ => ?_
      refine (Reads.getState n s).bind fun children _ => ?_
      exact Keeps.foldlM (fun c vv _ => (ih c).bind fun _ _ => Keeps.pure trivial) trivial

theorem isTombstoned_reads (n : NodeId) :
    Reads (isTombstoned n : Exec Error MemoryNodeStore Bool) := by
  intro s
  unfold isTombstoned
  refine (Keeps.gets (Q := fun _ => True) fun _ _ => trivial).bind fun b _ => ?_
  cases b with
  | false => exact Keeps.pure trivial
  | true =>
    refine (Reads.getState n s).bind fun deleted _ => ?_
    cases deleted with
    | none => exact Keeps.pure trivial
    | some vv => exact (subtreeVersionVector_reads n s).bind fun _ _ => Keeps.pure trivial

theorem children_reads (p : NodeId) :
    Reads (children p : Exec Error MemoryNodeStore (List NodeId)) := by
  intro s
  unfold children
  refine (Keeps.gets (Q := fun _ => True) fun _ _ => trivial).bind fun b _ => ?_
  cases b with
  | false => exact Keeps.pure trivial
  | true =>
    refine (Reads.getState p s).bind fun children _ => ?_
    exact Keeps.foldlM (fun c l _ => (isTombstoned_reads c s).bind fun _ _ => Keeps.pure trivial)
      trivial

theorem parent_reads (n : NodeId) :
    Reads (parent n : Exec Error MemoryNodeStore (Option NodeId)) := by
  intro s
  unfold parent
  refine (Keeps.gets (Q := fun _ => True) fun _ _ => trivial).bind fun b _ => ?_
  cases b with
  | false => exact Keeps.pure trivial
  | true =>
    refine (isTombstoned_reads n s).bind fun tombstoned _ => ?_
    cases tombstoned with
    | true => exact Keeps.pure trivial
    | false =>
      exact (Keeps.gets (Q := fun _ => True) fun _ _ => trivial).bind fun _ _ => Keeps.pure trivial

theorem resolveAfterForPlacement_reads (p : NodeId) (placement : LocalPlacement)
    (exclude : Option NodeId) :
    Reads (resolveAfterForPlacement p placement exclude : Exec Error MemoryNodeStore _) := by
  intro s
  unfold resolveAfterForPlacement
  cases placement with
  | first => exact Keeps.pure trivial
  | last => exact (children_reads p s).bind fun _ _ => Keeps.pure trivial
  | after node =>
    simp only
    split
    · exact Keeps.throw trivial
    · exact Keeps.pure trivial

theorem allocateChildKeyAfter_reads (parent node : NodeId) (after : Option NodeId) (seed : Bytes) :
    Reads (allocateChildKeyAfter parent node after seed : Exec Error MemoryNodeStore Bytes) := by
  intro s
  unfold allocateChildKeyAfter
  have hkey : ∀ n, Keeps (· = s) (fun _ => True)
      (NodeStore.orderKey n : Exec Error MemoryNodeStore _) fun _ => True := fun n =>
    Keeps.gets fun _ _ => trivial
  split
  · exact Keeps.pure trivial
  refine (children_reads parent s).bind fun children _ => ?_
  refine Keeps.bind (Q := fun _ => True) ?_ fun keys _ => ?_
  · unfold neighbourKeys
    cases after with
    | none =>
      simp only
      split
      · exact (hkey _).bind fun _ _ => Keeps.pure trivial
      · exact Keeps.pure trivial
    | some after =>
      simp only
      split
      · refine (hkey after).bind fun _ _ => ?_
        split
        · exact (hkey _).bind fun _ _ => Keeps.pure trivial
        · exact Keeps.pure trivial
      · exact Keeps.throw trivial
  · intro s' hs r s'' hrun
    cases hrun
    exact ⟨hs, by split <;> trivial⟩

/-- The frame of a local operation whose operation is on `node`. -/
theorem localOp_keeps_flagged [Storage S] [Clock C] {node : NodeId} (hs : ¬ node.special)
    {build : ReplicaId → UInt64 → Lamport → Exec Error MemoryNodeStore Operation}
    (hread : ∀ r c l, Reads (build r c l))
    (hnode : ∀ r c l s op s', build r c l s = some (.ok op, s') → op.kind.node = node) :
    Keeps (Flagged (S := S) (C := C)) (fun _ => True) (localOp build) fun _ => True := by
  unfold localOp
  refine (Keeps.gets (Q := fun _ => True) fun _ _ => trivial).bind fun replica _ => ?_
  refine Keeps.bind (Q := fun _ => True) ?_ fun counter _ => ?_
  · exact Keeps.bind (Q := fun _ => True) (Keeps.modify fun _ h => h) fun _ _ =>
      Keeps.gets fun _ _ => trivial
  refine Keeps.bind (Q := fun _ => True) ?_ fun lamport _ => ?_
  · refine (Keeps.gets (Q := fun _ => True) fun _ _ => trivial).bind fun _ _ => ?_
    exact Keeps.bind (Q := fun _ => True) (Keeps.modify fun _ h => h) fun _ _ => Keeps.pure trivial
  refine Keeps.bind (Q := fun op => op.kind.node = node) (fun t h r t' hrun => ?_) fun op hop => ?_
  · obtain ⟨n, hbuild, rfl⟩ := onNodes_some hrun
    obtain ⟨rfl, -⟩ := hread _ _ _ t.nodes _ rfl _ _ hbuild
    refine ⟨h, ?_⟩
    cases r with
    | ok op => exact hnode _ _ _ _ _ _ hbuild
    | error e => trivial
  · exact commitLocal_keeps_flagged (hop ▸ hs)

theorem onNodes_keeps_flagged {c : Exec Error MemoryNodeStore α} (h : Reads c) :
    Keeps (Flagged (S := S) (C := C)) (fun _ => True) (onNodes c) fun _ => True := by
  intro t ht r t' hrun
  obtain ⟨n, hn, rfl⟩ := onNodes_some hrun
  obtain ⟨rfl, hr⟩ := h t.nodes _ rfl _ _ hn
  exact ⟨ht, hr⟩

theorem payloadLastWriter_keeps_flagged (node : NodeId) :
    Keeps (Flagged (S := S) (C := C)) (fun _ => True) (payloadLastWriter node) fun _ => True :=
  OnDocs.onPayloads fun d _ => (LawfulPayloadStore.lastWriter d.payloads node).imp fun _ _ => trivial

/-- A local call of the interface. -/
inductive LocalCall where
  | insertAfter (parent node : NodeId) (after : Option NodeId)
  | insertAfterWithPayload (parent node : NodeId) (after : Option NodeId) (payload : Bytes)
  | moveAfter (node newParent : NodeId) (after : Option NodeId)
  | delete (node : NodeId)
  | setPayload (node : NodeId) (payload : Bytes)
  | clearPayload (node : NodeId)
  | insertWithPlan (parent node : NodeId) (placement : LocalPlacement) (payload : Option Bytes)
  | moveWithPlan (node newParent : NodeId) (placement : LocalPlacement)
  | deleteWithPlan (node : NodeId)
  | payloadWithPlan (node : NodeId) (payload : Option Bytes)

namespace LocalCall

/-- The node that the call is about. -/
def node : LocalCall → NodeId
  | .insertAfter _ node _ => node
  | .insertAfterWithPayload _ node _ _ => node
  | .moveAfter node _ _ => node
  | .delete node => node
  | .setPayload node _ => node
  | .clearPayload node => node
  | .insertWithPlan _ node _ _ => node
  | .moveWithPlan node _ _ => node
  | .deleteWithPlan node => node
  | .payloadWithPlan node _ => node

/-- Make the call; it returns its operation, and the plan that an adapter gets with it. -/
def run [Storage S] [Clock C] : LocalCall →
    Exec Error (StoreTree S C) (Operation × Option LocalFinalizePlan)
  | .insertAfter parent node after => do return (← localInsertAfter parent node after, none)
  | .insertAfterWithPayload parent node after payload => do
    return (← localInsertAfterWithPayload parent node after payload, none)
  | .moveAfter node newParent after => do return (← localMoveAfter node newParent after, none)
  | .delete node => do return (← localDelete node, none)
  | .setPayload node payload => do return (← localSetPayload node payload, none)
  | .clearPayload node => do return (← localClearPayload node, none)
  | .insertWithPlan parent node placement payload => do
    let (op, plan) ← localInsertWithPlan parent node placement payload
    return (op, some plan)
  | .moveWithPlan node newParent placement => do
    let (op, plan) ← localMoveWithPlan node newParent placement
    return (op, some plan)
  | .deleteWithPlan node => do
    let (op, plan) ← localDeleteWithPlan node
    return (op, some plan)
  | .payloadWithPlan node payload => do
    let (op, plan) ← localPayloadWithPlan node payload
    return (op, some plan)

variable [Storage S] [Clock C]

/-- The local operations, without a plan. -/
private theorem localOps_keep_flagged {node : NodeId} (hs : ¬ node.special) :
    (∀ parent after, Keeps (Flagged (S := S) (C := C)) (fun _ => True)
      (localInsertAfter parent node after) fun _ => True) ∧
    (∀ parent after payload, Keeps (Flagged (S := S) (C := C)) (fun _ => True)
      (localInsertAfterWithPayload parent node after payload) fun _ => True) ∧
    (∀ newParent after, Keeps (Flagged (S := S) (C := C)) (fun _ => True)
      (localMoveAfter node newParent after) fun _ => True) ∧
    Keeps (Flagged (S := S) (C := C)) (fun _ => True) (localDelete node) (fun _ => True) ∧
    (∀ payload, Keeps (Flagged (S := S) (C := C)) (fun _ => True)
      (localSetPayload node payload) fun _ => True) ∧
    Keeps (Flagged (S := S) (C := C)) (fun _ => True) (localClearPayload node) fun _ => True := by
  refine ⟨fun parent after => ?_, fun parent after payload => ?_, fun newParent after => ?_, ?_,
    fun payload => ?_, ?_⟩
  · refine localOp_keeps_flagged hs (fun _ _ _ => (allocateChildKeyAfter_reads _ _ _ _).map) ?_
    intro r c l s op s' h
    obtain ⟨key, s₁, -, hret⟩ := bind_ok h
    cases hret
    rfl
  · refine localOp_keeps_flagged hs (fun _ _ _ => (allocateChildKeyAfter_reads _ _ _ _).map) ?_
    intro r c l s op s' h
    obtain ⟨key, s₁, -, hret⟩ := bind_ok h
    cases hret
    rfl
  · refine localOp_keeps_flagged hs (fun _ _ _ => (allocateChildKeyAfter_reads _ _ _ _).map) ?_
    intro r c l s op s' h
    obtain ⟨key, s₁, -, hret⟩ := bind_ok h
    cases hret
    rfl
  · refine localOp_keeps_flagged hs (fun _ _ _ => (subtreeVersionVector_reads node).map) ?_
    intro r c l s op s' h
    obtain ⟨knownState, s₁, -, hret⟩ := bind_ok h
    cases hret
    rfl
  · refine localOp_keeps_flagged hs (fun _ _ _ s => Keeps.pure trivial) ?_
    intro r c l s op s' h
    cases h
    rfl
  · refine localOp_keeps_flagged hs (fun _ _ _ s => Keeps.pure trivial) ?_
    intro r c l s op s' h
    cases h
    rfl

/-- A local call on a node other than `ROOT` and `TRASH`, whether it fails or not. -/
theorem run_keeps_flagged {call : LocalCall} (hs : ¬ call.node.special) :
    Keeps (Flagged (S := S) (C := C)) (fun _ => True) call.run fun _ => True := by
  obtain ⟨hinsert, hinsertPayload, hmove, hdelete, hset, hclear⟩ :=
    localOps_keep_flagged (S := S) (C := C) hs
  have hplan : ∀ {c : Exec Error (StoreTree S C) (Operation × LocalFinalizePlan)},
      Keeps Flagged (fun _ => True) c (fun _ => True) →
      Keeps Flagged (fun _ => True) (do
        let (op, plan) ← c
        return (op, some plan)) fun _ => True := fun h => h.bind fun _ _ => Keeps.pure trivial
  cases call with
  | insertAfter parent node after => exact (hinsert _ _).bind fun _ _ => Keeps.pure trivial
  | insertAfterWithPayload parent node after payload =>
    exact (hinsertPayload _ _ _).bind fun _ _ => Keeps.pure trivial
  | moveAfter node newParent after => exact (hmove _ _).bind fun _ _ => Keeps.pure trivial
  | delete node => exact hdelete.bind fun _ _ => Keeps.pure trivial
  | setPayload node payload => exact (hset _).bind fun _ _ => Keeps.pure trivial
  | clearPayload node => exact hclear.bind fun _ _ => Keeps.pure trivial
  | insertWithPlan parent node placement payload =>
    refine hplan ?_
    unfold localInsertWithPlan
    refine (onNodes_keeps_flagged (resolveAfterForPlacement_reads _ _ _)).bind fun after _ => ?_
    cases payload with
    | none => exact (hinsert _ _).bind fun _ _ => Keeps.pure trivial
    | some payload => exact (hinsertPayload _ _ _).bind fun _ _ => Keeps.pure trivial
  | moveWithPlan node newParent placement =>
    refine hplan ?_
    unfold localMoveWithPlan
    refine (onNodes_keeps_flagged (parent_reads _)).bind fun oldParent _ => ?_
    refine (onNodes_keeps_flagged (resolveAfterForPlacement_reads _ _ _)).bind fun after _ => ?_
    refine (hmove _ _).bind fun op _ => ?_
    simp only
    split
    · refine (payloadLastWriter_keeps_flagged _).bind fun w _ => ?_
      cases w <;> exact Keeps.pure trivial
    · exact Keeps.pure trivial
  | deleteWithPlan node =>
    refine hplan ?_
    unfold localDeleteWithPlan
    refine (onNodes_keeps_flagged (parent_reads _)).bind fun oldParent _ => ?_
    exact hdelete.bind fun _ _ => Keeps.pure trivial
  | payloadWithPlan node payload =>
    refine hplan ?_
    unfold localPayloadWithPlan
    refine (onNodes_keeps_flagged (parent_reads _)).bind fun oldParent _ => ?_
    cases payload with
    | none => exact hclear.bind fun _ _ => Keeps.pure trivial
    | some payload => exact (hset _).bind fun _ _ => Keeps.pure trivial

end LocalCall

/-- The records of a local operation, and one more refresh. -/
theorem finalizeLocalWithPlan_keeps_flagged [ParentOpIndex I] (op : Operation) (headSeq : UInt64)
    (plan : LocalFinalizePlan) :
    Keeps (fun s : StoreTree S C × I => Flagged s.1) (fun _ => True)
      (finalizeLocalWithPlan op headSeq plan) fun _ => True := by
  refine Keeps.bind (Q := fun _ => True) ?_ fun _ _ => Keeps.pure trivial
  refine (keeps_onTree (refreshUpward_keeps_flagged _)).bind fun _ _ => ?_
  exact (keeps_onIndex _ _).bind fun _ _ => keeps_onIndex _ _

/-! ## A full replay -/

/-- A shaped document without cached tombstones. -/
def Unflagged (d : Doc) : Prop := d.Shaped ∧ ∀ n, d.flags n = false

/-- No operation of the log is on `ROOT` or `TRASH`. -/
def KeepsTop [Storage S] (t : StoreTree S C) : Prop :=
  ∀ op, .ok op ∈ Storage.scanSince t.storage 0 → ¬ op.kind.node.special

section

variable [Storage S] [Clock C] [ParentOpIndex I]

omit [Storage S] in
theorem indexRows_keeps_unflagged (rows : List (Except Error Operation))
    (hrows : ∀ op, .ok op ∈ rows → ¬ op.kind.node.special) (head : Option Operation)
    (seq : UInt64) :
    Keeps (fun s : StoreTree S C × I => OnDocs Unflagged s.1) (fun _ => True)
      (indexRows rows head seq) fun _ => True := by
  induction rows generalizing head seq with
  | nil => exact Keeps.pure trivial
  | cons row rows ih =>
    cases row with
    | error e => exact Keeps.throw trivial
    | ok op =>
      have hop := hrows op List.mem_cons_self
      unfold indexRows
      refine (keeps_onTree (OnDocs.modify (f := observed op) fun _ => ⟨rfl, rfl⟩)).bind fun _ _ => ?_
      refine Keeps.bind (Q := fun _ => True) (keeps_onTree (OnDocs.onStores ?_)) fun snap _ => ?_
      · rintro d ⟨hd, hflags⟩
        refine ⟨_, ⟨hd.apply hop, fun n => ?_⟩, (applyForward_runs hd.acyclic op).imp fun _ _ => trivial⟩
        exact (congrFun (Doc.flags_apply _ d op) n).trans (hflags n)
      · refine (keeps_onIndex _ _).bind fun _ _ => ?_
        exact ih (fun op hop => hrows op (List.mem_cons_of_mem _ hop)) _ _

omit [Storage S] [Clock C] in
theorem indexPayload_keeps_flagged (seq : UInt64) (node : NodeId) :
    Keeps (fun s : StoreTree S C × I => Flagged s.1) (fun _ => True) (indexPayload seq node)
      fun _ => True := by
  have hparent : Reads (NodeStore.parent node : Exec Error MemoryNodeStore _) := fun _ =>
    Keeps.gets fun _ _ => trivial
  unfold indexPayload
  split
  · exact Keeps.pure trivial
  refine (keeps_onTree (onNodes_keeps_flagged hparent)).bind fun parent _ => ?_
  cases parent with
  | none => exact Keeps.pure trivial
  | some parent =>
    simp only
    split
    · exact Keeps.pure trivial
    · exact recordPayloadWriter_keeps_onDocs _ _ _

omit [Storage S] [Clock C] [ParentOpIndex I] in
theorem refreshAll_triple :
    Triple (fun s : StoreTree S C × I => OnDocs Unflagged s.1)
      (onTree (onNodes refreshAllTombstones)) (fun _ s => Flagged s.1) fun _ _ => True := by
  refine onTree_triple (R := fun _ => Flagged) (E := fun _ _ => True) ?_
  rintro t ⟨d, ⟨hd, hflags⟩, hm⟩ r t' hrun
  obtain ⟨n, hnodes, rfl⟩ := onNodes_some hrun
  obtain ⟨_, n', hrun', -, hn⟩ :=
    refreshAllTombstones_runs hd.listed hd.normal d.flags
      (MemoryNodeStore.allNodes_runs _ _) t.nodes hm.1
  rw [hrun'] at hnodes
  cases hnodes
  exact ⟨_, hd.refreshAll hflags, hn, hm.2⟩

/-- A full replay leaves exact flags, whatever the tree was before. -/
theorem replayFromStorageWithMaterialization_triple :
    Triple (fun s : StoreTree S C × I => KeepsTop s.1) replayFromStorageWithMaterialization
      (fun _ s => Flagged s.1) fun _ _ => True := by
  let Top : StoreTree S C × I → Prop := fun s => KeepsTop s.1
  let Reset : StoreTree S C × I → Prop := fun s => KeepsTop s.1 ∧ OnDocs Unflagged s.1
  have hkeep : ∀ {J : StoreTree S C × I → Prop} {β : Type} {c : Exec Error (StoreTree S C × I) β},
      Keeps J (fun _ => True) c (fun _ => True) →
      Triple J c (fun _ => J) fun _ _ => True := fun h =>
    h.triple.conseq (fun _ h => h) (fun _ _ h => h.1) fun _ _ _ => trivial
  unfold replayFromStorageWithMaterialization
  refine Triple.bind (Q := fun _ => Top) (hkeep (keeps_onIndex KeepsTop _)) fun _ => ?_
  refine Triple.bind (Q := fun _ => Top) (fun s hs r s' hrun => by cases hrun; exact hs) fun _ => ?_
  refine Triple.bind (Q := fun _ s => Top s ∧ s.1.nodes = MemoryNodeStore.default)
    (fun s hs r s' hrun => by cases hrun; exact ⟨hs, rfl⟩) fun _ => ?_
  refine Triple.bind (Q := fun _ => Reset) (fun s hs r s' hrun => ?_) fun _ => ?_
  · cases hrun
    refine ⟨hs.1, Doc.initial, ⟨.initial, fun _ => rfl⟩, ?_, MemoryPayloadStore.default_models⟩
    rw [hs.2]
    exact MemoryNodeStore.default_models
  refine Triple.bind (Q := fun _ => Reset) (fun s hs r s' hrun => by cases hrun; exact hs)
    fun _ => ?_
  refine Triple.bind (Q := fun rows s => (∀ op, .ok op ∈ rows → ¬ op.kind.node.special) ∧
    OnDocs Unflagged s.1) (fun s hs r s' hrun => by cases hrun; exact hs) fun rows => ?_
  refine Triple.bind (Q := fun _ s => OnDocs Unflagged s.1) (fun s hs => ?_) fun _ => ?_
  · exact hkeep (indexRows_keeps_unflagged rows hs.1 none 0) s hs.2
  refine Triple.bind (Q := fun _ s => OnDocs Unflagged s.1)
    (fun s hs r s' hrun => by cases hrun; exact hs) fun _ => ?_
  refine Triple.bind (Q := fun _ s => OnDocs Unflagged s.1)
    (fun s hs r s' hrun => by cases hrun; exact hs) fun _ => ?_
  refine refreshAll_triple.bind fun _ => ?_
  have hall : Reads (NodeStore.allNodes : Exec Error MemoryNodeStore _) := fun _ =>
    Keeps.gets fun _ _ => trivial
  refine (hkeep (keeps_onTree (onNodes_keeps_flagged hall))).bind fun nodes => ?_
  exact hkeep (Keeps.forEach fun node _ => indexPayload_keeps_flagged _ node)

end

/-! ## Runs -/

section

variable [Storage S] [Clock C] [ParentOpIndex I]

/-- A new tree, or one that a full replay made anew from a log that leaves `ROOT` and `TRASH` at the
top. -/
inductive StartsFlagged : StoreTree S C × I → Prop
  | fresh {replica : ReplicaId} {storage : S} {clock : C} {t : StoreTree S C} {i : I}
      (new : TreeCrdt.new replica storage clock = .ok t) : StartsFlagged (t, i)
  | rebuilt {s s' : StoreTree S C × I} (top : KeepsTop s.1)
      (replay : replayFromStorageWithMaterialization s = some (.ok (), s')) : StartsFlagged s'

/-- Local calls, what an adapter does behind them, and remote operations in order; none of them on
`ROOT` or `TRASH`. -/
inductive FlagRun (start : StoreTree S C × I) : StoreTree S C × I → Prop
  | start : FlagRun start start
  | localCall {s s' : StoreTree S C × I} {call : LocalCall}
      {r : Except Error (Operation × Option LocalFinalizePlan)} (before : FlagRun start s)
      (node : ¬ call.node.special) (run : onTree call.run s = some (r, s')) : FlagRun start s'
  | finalize {s s' : StoreTree S C × I} {op : Operation} {headSeq : UInt64}
      {plan : LocalFinalizePlan} {r : Except Error UInt64} (before : FlagRun start s)
      (run : finalizeLocalWithPlan op headSeq plan s = some (r, s')) : FlagRun start s'
  | remote {s s' : StoreTree S C × I} {op : Operation} {seq : UInt64} {delta : Option ApplyDelta}
      (before : FlagRun start s) (node : ¬ op.kind.node.special) (inOrder : TakenInOrder op s.1)
      (run : applyRemoteWithMaterialization op seq s = some (.ok delta, s')) : FlagRun start s'

theorem StartsFlagged.flagged {s : StoreTree S C × I} (h : StartsFlagged s) : Flagged s.1 := by
  cases h with
  | @fresh replica storage clock t i new =>
    obtain ⟨counter, -, hret⟩ := except_bind_ok new
    cases hret
    exact ⟨Doc.initial, .initial, initial_models⟩
  | rebuilt top replay => exact replayFromStorageWithMaterialization_triple _ top _ _ replay

theorem FlagRun.flagged {start s : StoreTree S C × I} (h : FlagRun start s)
    (hstart : Flagged start.1) : Flagged s.1 := by
  induction h with
  | start => exact hstart
  | localCall _ node run ih =>
    exact (keeps_onTree (LocalCall.run_keeps_flagged node) _ ih _ _ run).1
  | finalize _ run ih => exact (finalizeLocalWithPlan_keeps_flagged _ _ _ _ ih _ _ run).1
  | remote _ node inOrder run ih =>
    exact applyRemoteWithMaterialization_triple node _ _ ⟨ih, inOrder⟩ _ _ run

/-- **Cached tombstones.** After every call of a run the cached tombstone of every node is what
`is_tombstoned` computes. -/
theorem cachedTombstones_exact {start s : StoreTree S C × I} (hstart : StartsFlagged start)
    (hrun : FlagRun start s) {n : NodeId} (hn : (s.1.nodes.nodes.lookup n).isSome) :
    ∃ tombstoned, NodeStore.tombstone n s.1.nodes = some (.ok tombstoned, s.1.nodes) ∧
      isTombstoned n s.1.nodes = some (.ok tombstoned, s.1.nodes) := by
  obtain ⟨d, hd, hm⟩ := hrun.flagged hstart.flagged
  have hview : s.1.nodes.view = d.rows := hm.1.1
  have hsome : (d.rows n).isSome := by
    rw [← hview, MemoryNodeStore.view, Option.isSome_map]
    exact hn
  obtain ⟨cached, s₁, hcached, rfl, -⟩ := LawfulNodeStore.tombstone d.rows d.flags n hsome _ hm.1
  obtain ⟨b, s₂, hb, hiff, -⟩ := isTombstoned_runs hd.listed hd.normal d.flags n _ hm.1
  obtain ⟨rfl, -⟩ := Reads.getState (f := (·.tombstone)) n _ _ rfl _ _ hcached
  obtain ⟨rfl, -⟩ := isTombstoned_reads n _ _ rfl _ _ hb
  refine ⟨_, hcached, ?_⟩
  rw [hb, Bool.eq_iff_iff.mpr (hiff.trans (hd.flags n).symm)]

end

abbrev SampleState := StoreTree MemoryStorage LamportClock × RecordingIndex

/-- The state after a method that returns. -/
def stateAfter (c : Exec Error SampleState α) (s : SampleState) : SampleState :=
  match c s with
  | some (_, s') => s'
  | none => s

theorem stateAfter_run {c : Exec Error SampleState α} {s : SampleState} (h : (c s).isSome) :
    ∃ r, c s = some (r, stateAfter c s) := by
  obtain ⟨⟨r, s'⟩, hrun⟩ := Option.isSome_iff_exists.mp h
  exact ⟨r, by rw [stateAfter, hrun]⟩

def sampleNew : SampleState := (⟨⟨[1]⟩, {}, {}, 0, MemoryNodeStore.default, .new, {}, none, 0⟩, {})

def sampleInserted : SampleState :=
  stateAfter (applyRemoteWithMaterialization (.insert ⟨[2]⟩ 1 1 NodeId.ROOT ⟨5⟩ [0, 7]) 1) sampleNew

/-- A new tree takes an insert, and a local call deletes the node. -/
theorem cachedTombstones_exact_delete :
    let s := stateAfter (onTree (LocalCall.delete ⟨5⟩).run) sampleInserted
    ∃ tombstoned, NodeStore.tombstone ⟨5⟩ s.1.nodes = some (.ok tombstoned, s.1.nodes) ∧
      isTombstoned ⟨5⟩ s.1.nodes = some (.ok tombstoned, s.1.nodes) := by
  have hstart : StartsFlagged sampleNew :=
    .fresh (t := sampleNew.1) (show TreeCrdt.new ⟨[1]⟩ {} ({} : LamportClock) = _ from rfl)
  have hinsert : FlagRun sampleNew sampleInserted :=
    .remote .start (by decide) (Or.inl rfl)
      (show applyRemoteWithMaterialization (.insert ⟨[2]⟩ 1 1 NodeId.ROOT ⟨5⟩ [0, 7]) 1 sampleNew =
        some (.ok (some ⟨⟨none, none⟩, _⟩), _) from rfl)
  have hnode : ¬ (LocalCall.delete ⟨5⟩).node.special := by decide
  obtain ⟨r, hrun⟩ := stateAfter_run (c := onTree (LocalCall.delete ⟨5⟩).run)
    (s := sampleInserted) (by decide +kernel)
  exact cachedTombstones_exact hstart (.localCall hinsert hnode hrun) (by decide +kernel)

end TreeCrdt

end Treecrdt
