import TreecrdtLean.Spec.Alike
import TreecrdtLean.Tree.Hide
import TreecrdtLean.Tree.Lawful

/-!
# The derived state of a log

A document is derived from a log (`Doc.Derived`) if its rows and payloads are those of the log's
operations, one after the other, and its cached tombstones are exact as long as none of them is on
`ROOT` or `TRASH`. One more operation with the refresh behind it, a refresh from anywhere, and a full
replay make derived documents. This holds over every backend that leaves `ROOT` alone
(`Backend.Rooted`).
-/

namespace Treecrdt

open Forest

/-! ## Rows with the same tombstones -/

namespace Rows

/-- Rows that a refresh does not tell apart. -/
structure SameTombstones (r r' : Rows) : Prop where
  parent : r.parent = r'.parent
  deleted : ∀ n, (r.row n).deletedAt.isSome = (r'.row n).deletedAt.isSome
  tombstoned : ∀ n, r.Tombstoned n ↔ r'.Tombstoned n

variable {r r' : Rows} {V : NodeId → Prop} {f f' : NodeId → Bool} {stack visited : List NodeId}

theorem SameTombstones.symm (h : r.SameTombstones r') : r'.SameTombstones r :=
  ⟨h.parent.symm, fun n => (h.deleted n).symm, fun n => (h.tombstoned n).symm⟩

theorem SameTombstones.trans {r'' : Rows} (h : r.SameTombstones r') (h' : r'.SameTombstones r'') :
    r.SameTombstones r'' :=
  ⟨h.parent.trans h'.parent, fun n => (h.deleted n).trans (h'.deleted n),
    fun n => (h.tombstoned n).trans (h'.tombstoned n)⟩

theorem SameTombstones.visits (h : r.SameTombstones r') (hv : r.Visits stack visited V) :
    r'.Visits stack visited V where
  stack := hv.stack
  parent n p := h.parent ▸ hv.parent n p

theorem SameTombstones.refreshed (h : r.SameTombstones r') (href : r.Refreshed V f f') :
    r'.Refreshed V f f' where
  kept n := (href.kept n).imp_right fun hexact => hexact.trans (h.tombstoned n)
  visited n hV hdel := (href.visited n hV ((h.deleted n).trans hdel)).trans (h.tombstoned n)

theorem SameTombstones.exact (h : r.SameTombstones r') (hf : r.Exact f) : r'.Exact f := fun n =>
  (hf n).trans (h.tombstoned n)

/-- Two vectors that differ in how they list what they know make the same tombstones. -/
theorem Alike.sameTombstones (h : r.Alike r') : r.SameTombstones r' where
  parent := h.parent
  deleted n := by
    have hdeleted := (h.row (n := n)).deleted
    revert hdeleted
    generalize (r.row n).deletedAt = x
    generalize (r'.row n).deletedAt = y
    rintro (_ | _) <;> rfl
  tombstoned _ := h.tombstoned

theorem parent_reparent_of_pinned {b : Backend} {m n p : NodeId} {key : Bytes}
    (hm : b.pinned m = true) : (r.reparent b n p key).parent m = r.parent m := by
  unfold reparent
  split
  · rfl
  · rename_i hn
    have hne : m ≠ n := fun he => hn (he ▸ hm)
    simp [parent, modify, Function.update_of_ne hne]

/-- Where `ROOT` is at the top, the listed parents are a forest: nothing is listed under `TRASH`. -/
theorem acyclic_listed (hup : Acyclic r.up) (hroot : r.parent NodeId.ROOT = none) :
    Acyclic r.listed := by
  have hbelow : Acyclic (Function.update r.listed NodeId.TRASH none) := by
    refine hup.of_imp fun a c hac => ?_
    have hne : a ≠ NodeId.TRASH := fun he => by simp [he] at hac
    rw [Function.update_of_ne hne] at hac
    have hp := (listed_eq_some.mp hac).2
    have hspecial : ¬ a.special := by
      rintro (rfl | rfl)
      · exact hne rfl
      · rw [hroot] at hp
        cases hp
    rwa [up, if_neg hspecial]
  have hlast := hbelow.update (n := NodeId.TRASH) (p := r.listed NodeId.TRASH) fun q hq habove => ?_
  · rwa [Function.update_idem, Function.update_eq_self] at hlast
  rcases Relation.ReflTransGen.cases_tail habove with rfl | ⟨c, -, hc⟩
  · exact (listed_eq_some.mp hq).1 rfl
  · have hne : c ≠ NodeId.TRASH := fun he => by simp [he] at hc
    rw [Function.update_of_ne hne] at hc
    exact (listed_eq_some.mp hc).1 rfl

end Rows

/-! ## Backends that leave `ROOT` alone -/

/-- A backend that leaves `ROOT` alone, and has the tombstones that the in-memory one has. -/
structure Backend.Rooted (b : Backend) : Prop where
  root : b.pinned NodeId.ROOT = true
  firstDelete : ∀ {vv : VersionVector}, vv.Normal → (b.firstDelete vv).Normal
  tombstones : ∀ ops : List Operation, (∀ op ∈ ops, ¬ op.kind.node.special) →
    (Doc.initial.applyAll b ops).rows.SameTombstones
      (Doc.initial.applyAll Backend.memory ops).rows

namespace Doc

variable {b : Backend} {d : Doc} {op : Operation} {ops : List Operation}

/-- No operation hangs a pinned node. -/
theorem parent_apply_of_pinned {m : NodeId} (hm : b.pinned m = true) :
    (d.apply b op).rows.parent m = d.rows.parent m := by
  have he : (d.ensure op.kind.node).rows.parent = d.rows.parent := Rows.parent_ensure
  unfold apply
  rw [← he]
  generalize d.ensure op.kind.node = e
  have hdelete : ∀ n, (e.rows.delete b op n).parent = e.rows.parent := fun n => by
    unfold Rows.delete
    split
    · rfl
    · rw [Rows.parent_mergeDeletedAt, Rows.parent_ensure]
  cases op.kind with
  | insert p n key payload =>
    have hinsert : (e.rows.insert b op p n key).parent m = e.rows.parent m := by
      unfold Rows.insert
      split
      · rfl
      · rw [Rows.parent_touch, Rows.parent_touch, Rows.parent_reparent_of_pinned hm,
          Rows.parent_ensure, Rows.parent_ensure]
    simp only [applyKind]
    split
    · rw [parent_writePayload]
      exact hinsert
    · exact hinsert
  | move n p key =>
    show (e.rows.move b op n p key).parent m = e.rows.parent m
    unfold Rows.move
    split
    · rfl
    simp only
    split
    · rw [Rows.parent_ensure, Rows.parent_ensure]
    · rw [Rows.parent_touchMoved, Rows.parent_reparent_of_pinned hm, Rows.parent_ensure,
        Rows.parent_ensure]
  | delete n => exact congrFun (hdelete n) m
  | tombstone n => exact congrFun (hdelete n) m
  | payload n payload => exact congrFun parent_writePayload m

theorem applyAll_append (d : Doc) (ops ops' : List Operation) :
    d.applyAll b (ops ++ ops') = (d.applyAll b ops).applyAll b ops' := List.foldl_append

theorem root_applyAll (hb : b.Rooted) (ops : List Operation) :
    (initial.applyAll b ops).rows.parent NodeId.ROOT = none := by
  induction ops using List.reverseRecOn with
  | nil => rfl
  | append_singleton ops op ih =>
    rw [applyAll_append]
    exact (parent_apply_of_pinned hb.root).trans ih

theorem normal_applyAll (hb : b.Rooted) (ops : List Operation) :
    (initial.applyAll b ops).rows.Normal := by
  induction ops using List.reverseRecOn with
  | nil => exact Shaped.initial.normal
  | append_singleton ops op ih =>
    rw [applyAll_append]
    exact (frame_apply_of hb.firstDelete _ op).normal ih

/-! ## Derived documents -/

/-- The document is that of the log. -/
structure Derived (b : Backend) (ops : List Operation) (d : Doc) : Prop where
  rows : d.rows = (initial.applyAll b ops).rows
  payloads : d.payloads = (initial.applyAll b ops).payloads
  flags : (∀ op ∈ ops, ¬ op.kind.node.special) → d.rows.Exact d.flags

namespace Derived

variable {V : NodeId → Prop} {f' : NodeId → Bool} {starts : List NodeId}

theorem eq (h : d.Derived b ops) : d = { initial.applyAll b ops with flags := d.flags } := by
  obtain ⟨rows, flags, payloads⟩ := d
  obtain ⟨rfl, rfl, -⟩ := h
  rfl

theorem initial : Doc.initial.Derived b [] := ⟨rfl, rfl, fun _ => Exact.initial.flags⟩

theorem acyclic (h : d.Derived b ops) : Acyclic d.rows.up := by
  rw [h.rows]
  exact acyclic_applyAll acyclic_initial b ops

theorem listed (hb : b.Rooted) (h : d.Derived b ops) : Acyclic d.rows.listed :=
  Rows.acyclic_listed h.acyclic (by rw [h.rows]; exact root_applyAll hb ops)

theorem normal (hb : b.Rooted) (h : d.Derived b ops) : d.rows.Normal := by
  rw [h.rows]
  exact normal_applyAll hb ops

/-- Behind an operation the rows and payloads are those of the longer log. -/
theorem apply_eq (h : d.Derived b ops) (op : Operation) :
    d.apply b op = { Doc.initial.applyAll b (ops ++ [op]) with flags := d.flags } := by
  conv_lhs => rw [h.eq]
  rw [apply_flags, applyAll_append]
  rfl

/-- One more operation, with the refresh behind it. -/
theorem apply (hb : b.Rooted) (h : d.Derived b ops) (hstarts : ∀ s, d.Starts op s → s ∈ starts)
    (hvisits : (d.apply b op).rows.Visits starts [] V)
    (href : (d.apply b op).rows.Refreshed V d.flags f') :
    Derived b (ops ++ [op]) { d.apply b op with flags := f' } := by
  have hrows : (d.apply b op).rows = (Doc.initial.applyAll b (ops ++ [op])).rows := by
    rw [h.apply_eq op]
  refine ⟨hrows, by rw [h.apply_eq op], fun hplain => ?_⟩
  have hplain' : ∀ op' ∈ ops, ¬ op'.kind.node.special := fun op' hop' =>
    hplain op' (List.mem_append_left _ hop')
  have hsame := hb.tombstones ops hplain'
  have hsame' := hb.tombstones (ops ++ [op]) hplain
  -- The document in memory has the same flags, and they are exact.
  let m : Doc := { Doc.initial.applyAll Backend.memory ops with flags := d.flags }
  have hm : m.Exact := by
    have hshaped := Shaped.applyAll hplain'
    refine ⟨⟨hshaped.normal, hshaped.acyclic, hshaped.top, hshaped.undeleted⟩, ?_⟩
    exact hsame.exact (h.rows ▸ h.flags hplain')
  have happly : (m.apply Backend.memory op).rows =
      (Doc.initial.applyAll Backend.memory (ops ++ [op])).rows := by
    rw [apply_flags, applyAll_append]
    rfl
  rw [hrows] at hvisits href ⊢
  refine hsame'.symm.exact ?_
  rw [← happly] at hsame' ⊢
  refine hm.flags_apply (fun s hs => hstarts s ?_) (hsame'.visits hvisits) (hsame'.refreshed href)
  have hparent : m.rows.parent = d.rows.parent := hsame.parent.symm.trans (by rw [h.rows])
  unfold Starts at hs ⊢
  rwa [hparent] at hs

/-- A refresh from anywhere. -/
theorem refresh (h : d.Derived b ops) (href : d.rows.Refreshed V d.flags f') :
    Derived b ops { d with flags := f' } :=
  ⟨h.rows, h.payloads, fun hplain =>
    exact_refreshed (h.flags hplain) href (fun _ _ => Iff.rfl) fun _ hn => hn⟩

/-- A full replay. -/
theorem replayed (hb : b.Rooted) : Derived b ops (TreeCrdt.replayedDoc b ops) := by
  refine ⟨rfl, rfl, fun hplain => ?_⟩
  have hsame := hb.tombstones ops hplain
  have hshaped := Shaped.applyAll hplain
  intro n
  show (Doc.initial.applyAll b ops).rows.refreshedAll _ n = true ↔ _
  rw [flags_applyAll, Rows.refreshedAll]
  split_ifs with hdel
  · simp [TreeCrdt.replayedDoc]
  · refine iff_of_false Bool.false_ne_true fun htomb => ?_
    -- A tombstone needs a delete, and `ROOT` and `TRASH` have none.
    by_cases hn : n.special
    · exact Rows.not_tombstoned (hshaped.undeleted n hn) ((hsame.tombstoned n).mp htomb)
    · obtain ⟨vv, hvv, -⟩ := htomb
      exact hdel ⟨hn, Option.isSome_iff_exists.mpr ⟨vv, hvv⟩⟩

/-- Two documents of one log: the cached tombstones are the same where they are exact. -/
theorem unique {d' : Doc} (h : d.Derived b ops) (h' : d'.Derived b ops) :
    d.rows = d'.rows ∧ d.payloads = d'.payloads ∧
      ((∀ op ∈ ops, ¬ op.kind.node.special) → d.flags = d'.flags) := by
  have hrows := h.rows.trans h'.rows.symm
  refine ⟨hrows, h.payloads.trans h'.payloads.symm, fun hplain => funext fun n => ?_⟩
  rw [Bool.eq_iff_iff, h.flags hplain n, h'.flags hplain n, hrows]

end Derived

end Doc

end Treecrdt
