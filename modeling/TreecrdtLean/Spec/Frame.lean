import TreecrdtLean.Core.Materialize
import TreecrdtLean.Spec.Changes

/-!
# What an operation leaves alone

An operation writes to the changes of its node, of the parent that the node had and of the parent it
is to get (`Doc.Starts`), and to the deletes of a node that it deletes. Everything else stays
(`Doc.frame_apply`), so a node that is above none of these keeps its subtree and its tombstone
(`Doc.tombstoned_apply`).
-/

namespace Treecrdt

open Forest

theorem deleteVersionVector_normal (op : Operation) : (deleteVersionVector op).Normal := by
  unfold deleteVersionVector
  split
  · exact (operationVersionVector_normal op).merge _
  · exact operationVersionVector_normal op

theorem touchVersion_normal (op : Operation) {vv : VersionVector} (h : vv.Normal) :
    (touchVersion op vv).Normal := by
  unfold touchVersion
  split
  · exact (h.merge _).merge _
  · exact h.merge _

theorem OperationKind.Deletes.node_eq {kind : OperationKind} {n : NodeId} (h : kind.Deletes n) :
    kind.node = n := by
  obtain rfl | rfl := h <;> rfl

namespace Rows

variable {r r' r'' : Rows} {T T' D D' : NodeId → Prop} {op : Operation} {n p : NodeId}

/-- `r'` is `r` but for the changes of the nodes in `T`, the deletes of those in `D`, and parents and
keys. -/
structure Frame (T D : NodeId → Prop) (r r' : Rows) : Prop where
  normal : r.Normal → r'.Normal
  last : ∀ m, ¬ T m → (r'.row m).lastChange = (r.row m).lastChange
  deleted : ∀ m, ¬ D m → (r'.row m).deletedAt = (r.row m).deletedAt
  grows : ∀ m, (r.row m).deletedAt.isSome → (r'.row m).deletedAt.isSome

theorem Frame.trans (h : Frame T D r r') (h' : Frame T D r' r'') : Frame T D r r'' where
  normal hn := h'.normal (h.normal hn)
  last m hm := (h'.last m hm).trans (h.last m hm)
  deleted m hm := (h'.deleted m hm).trans (h.deleted m hm)
  grows m hm := h'.grows m (h.grows m hm)

/-- Rows with the same changes and deletes. -/
theorem Frame.of_row (hl : ∀ m, (r'.row m).lastChange = (r.row m).lastChange)
    (hd : ∀ m, (r'.row m).deletedAt = (r.row m).deletedAt) : Frame T D r r' where
  normal hn := ⟨fun m => hl m ▸ hn.last m, fun m vv h => hn.deleted m vv (hd m ▸ h)⟩
  last m _ := hl m
  deleted m _ := hd m
  grows m hm := (hd m).symm ▸ hm

theorem Frame.refl : Frame T D r r := .of_row (fun _ => rfl) fun _ => rfl

theorem Frame.ensure : Frame T D r (r.ensure n) :=
  .of_row (fun m => by rw [row_ensure]) fun m => by rw [row_ensure]

/-- A write to one row. -/
theorem Frame.modify {f : Row → Row} (hl : ∀ row, T n ∨ (f row).lastChange = row.lastChange)
    (hd : ∀ row, D n ∨ (f row).deletedAt = row.deletedAt)
    (hln : ∀ row, row.lastChange.Normal → (f row).lastChange.Normal)
    (hdn : ∀ row, (∀ vv, row.deletedAt = some vv → vv.Normal) →
      ∀ vv, (f row).deletedAt = some vv → vv.Normal)
    (hdg : ∀ row, row.deletedAt.isSome → (f row).deletedAt.isSome) :
    Frame T D r (r.modify n f) := by
  have hrow : ∀ m, (r.modify n f).row m = r.row m ∨
      m = n ∧ (r.modify n f).row m = f (r.row m) := by
    intro m
    by_cases h : m = n
    · subst h
      rcases hm : r m with _ | x
      · exact Or.inl (by simp [row, Rows.modify, hm])
      · exact Or.inr (by simp [row, Rows.modify, hm])
    · exact Or.inl (by simp [row, Rows.modify, h])
  constructor
  · intro hn
    refine ⟨fun m => ?_, fun m vv hvv => ?_⟩
    · obtain he | ⟨-, he⟩ := hrow m <;> rw [he]
      · exact hn.last m
      · exact hln _ (hn.last m)
    · obtain he | ⟨-, he⟩ := hrow m <;> rw [he] at hvv
      · exact hn.deleted m vv hvv
      · exact hdn _ (hn.deleted m) vv hvv
  · intro m hm
    obtain he | ⟨rfl, he⟩ := hrow m <;> rw [he]
    exact (hl _).resolve_left hm
  · intro m hm
    obtain he | ⟨rfl, he⟩ := hrow m <;> rw [he]
    exact (hd _).resolve_left hm
  · intro m hm
    obtain he | ⟨-, he⟩ := hrow m <;> rw [he]
    · exact hm
    · exact hdg _ hm

theorem Frame.reparent {b : Backend} {key : Bytes} : Frame T D r (r.reparent b n p key) := by
  unfold Rows.reparent
  split
  · exact .refl
  · exact .modify (fun _ => Or.inr rfl) (fun _ => Or.inr rfl) (fun _ h => h) (fun _ h => h)
      fun _ h => h

theorem Frame.touch (hn : T n) : Frame T D r (r.touch op n) :=
  .modify (fun _ => Or.inl hn) (fun _ => Or.inr rfl) (fun _ h => touchVersion_normal op h)
    (fun _ h => h) fun _ h => h

theorem Frame.insert {b : Backend} {key : Bytes} (hn : T n) (hp : T p) :
    Frame T D r (r.insert b op p n key) := by
  unfold Rows.insert
  split
  · exact .refl
  · exact (((Frame.ensure.trans .ensure).trans .reparent).trans (.touch hn)).trans (.touch hp)

theorem Frame.touchMoved {o : Option NodeId} (hn : T n) (hp : T p) (ho : ∀ q, o = some q → T q) :
    Frame T D r (r.touchMoved op n p o) := by
  have hlast : ∀ r' : Rows, Frame T D r' (if p ≠ NodeId.TRASH then r'.touch op p else r') := by
    intro r'
    split
    · exact .touch hp
    · exact .refl
  have hnode : Frame T D r (r.touch op n) := .touch hn
  unfold Rows.touchMoved
  cases o with
  | none => exact hnode.trans (hlast _)
  | some q =>
    simp only
    by_cases hq : q ≠ NodeId.TRASH
    · rw [if_pos hq]
      exact (hnode.trans (.touch (ho q rfl))).trans (hlast _)
    · rw [if_neg hq]
      exact hnode.trans (hlast _)

theorem Frame.move {b : Backend} {key : Bytes} (hn : T n) (hp : T p)
    (ho : ∀ q, r.parent n = some q → T q) : Frame T D r (r.move b op n p key) := by
  have hens : Frame T D r ((r.ensure n).ensure p) := Frame.ensure.trans .ensure
  unfold Rows.move
  split
  · exact .refl
  simp only
  split
  · exact hens
  · refine (hens.trans .reparent).trans (.touchMoved hn hp fun q hq => ho q ?_)
    rwa [parent_ensure, parent_ensure] at hq

theorem Frame.delete {b : Backend} (hb : ∀ {vv : VersionVector}, vv.Normal → (b.firstDelete vv).Normal)
    (hn : ¬ n.special → D n) : Frame T D r (r.delete b op n) := by
  unfold Rows.delete
  split
  · exact .refl
  · rename_i hs
    refine Frame.ensure.trans (.modify (fun _ => Or.inr rfl)
      (fun _ => Or.inl (hn fun h => hs h.symm)) (fun _ h => h) (fun row h vv hvv => ?_)
      fun row _ => by cases row.deletedAt <;> rfl)
    rcases hdel : row.deletedAt with _ | existing
    · rw [hdel] at hvv
      cases hvv
      exact hb (deleteVersionVector_normal op)
    · rw [hdel] at hvv
      cases hvv
      exact (h existing hdel).merge _

end Rows

/-- An accepted operation gives its node the parent that it names. -/
theorem Rows.parentAfter_of_target {r : Rows} {kind : OperationKind} {p : NodeId}
    (h : r.target kind = some p) : kind.parentAfter = some p := by
  unfold target at h
  cases kind with
  | insert parent node key payload =>
    simp only [Option.ite_none_left_eq_some] at h
    exact h.2
  | move node newParent key =>
    simp only [Option.ite_none_left_eq_some] at h
    exact h.2
  | delete node => cases h
  | tombstone node => cases h
  | payload node payload => cases h

namespace Doc

variable {d : Doc} {op : Operation} {m : NodeId}

/-- Where a refresh behind the operation starts. -/
def Starts (d : Doc) (op : Operation) (m : NodeId) : Prop :=
  m = op.kind.node ∨ d.rows.parent op.kind.node = some m ∨ op.kind.parentAfter = some m

theorem frame_writePayload {T D : NodeId → Prop} {n : NodeId} {payload : Option Bytes} (hn : T n) :
    Rows.Frame T D d.rows (d.writePayload op n payload).rows := by
  unfold writePayload
  split
  · exact Rows.Frame.ensure.trans (.touch hn)
  · exact .ensure

/-- What an operation does to the version vectors. -/
theorem frame_apply_of {b : Backend}
    (hb : ∀ {vv : VersionVector}, vv.Normal → (b.firstDelete vv).Normal) (d : Doc) (op : Operation) :
    Rows.Frame (d.Starts op) (fun m => op.kind.Deletes m ∧ ¬ m.special) d.rows
      (d.apply b op).rows := by
  have hens : ∀ T D, Rows.Frame T D d.rows (d.ensure op.kind.node).rows := fun _ _ => .ensure
  refine (hens _ _).trans ?_
  have hparent : (d.ensure op.kind.node).rows.parent = d.rows.parent := Rows.parent_ensure
  have hnode : d.Starts op op.kind.node := Or.inl rfl
  have hold : ∀ q, d.rows.parent op.kind.node = some q → d.Starts op q := fun q hq =>
    Or.inr (Or.inl hq)
  have hnew : ∀ q, op.kind.parentAfter = some q → d.Starts op q := fun q hq => Or.inr (Or.inr hq)
  unfold apply
  generalize d.ensure op.kind.node = d' at hparent
  generalize d.Starts op = T at hnode hold hnew
  cases hk : op.kind <;> rw [hk] at hnode hold hnew
  case insert p n key payload =>
    have hins : Rows.Frame T (fun m => op.kind.Deletes m ∧ ¬ m.special) d'.rows
        (d'.rows.insert b op p n key) := .insert hnode (hnew p rfl)
    simp only [applyKind]
    rw [hk] at hins
    split
    · exact hins.trans
        (frame_writePayload (d := { d' with rows := d'.rows.insert b op p n key }) hnode)
    · exact hins
  case move n p key =>
    exact .move hnode (hnew p rfl) fun q hq => hold q (hparent ▸ hq)
  case delete n => exact .delete hb fun hs => ⟨Or.inl rfl, hs⟩
  case tombstone n => exact .delete hb fun hs => ⟨Or.inr rfl, hs⟩
  case payload n payload => exact frame_writePayload hnode

theorem frame_apply (d : Doc) (op : Operation) :
    Rows.Frame (d.Starts op) (fun m => op.kind.Deletes m ∧ ¬ m.special) d.rows
      (d.apply Backend.memory op).rows := frame_apply_of (fun h => h) d op

/-! ## Subtrees -/

theorem listed_hang {r r' : Rows} {n p : NodeId}
    (h : r'.parent = Function.update r.parent n (some p)) :
    r'.listed = Function.update r.listed n ((some p).filter (· ≠ NodeId.TRASH)) := by
  funext m
  by_cases hm : m = n
  · subst hm
    simp [Rows.listed, h]
  · simp [Rows.listed, h, hm]

/-- A node with nothing below it that the operation starts from keeps what is below it. -/
theorem above_listed_apply {n : NodeId}
    (h : ∀ s, d.Starts op s → ¬ Above (d.apply Backend.memory op).rows.listed s n) {m : NodeId} :
    Above (d.apply Backend.memory op).rows.listed m n ↔ Above d.rows.listed m n := by
  have hparent := parent_apply (b := Backend.memory) (fun _ => rfl) d op
  cases ht : d.rows.target op.kind with
  | none =>
    rw [ht] at hparent
    have hlisted : (d.apply Backend.memory op).rows.listed = d.rows.listed := by
      funext m
      simp only [Rows.listed, hparent, hang]
    rw [hlisted]
  | some p =>
    rw [ht] at hparent
    rw [listed_hang hparent] at h ⊢
    refine above_update_iff (h _ (Or.inl rfl)) fun q hq => h q (Or.inr (Or.inl ?_))
    exact (Rows.listed_eq_some.mp hq).2

theorem subtreeDots_apply {n : NodeId}
    (h : ∀ s, d.Starts op s → ¬ Above (d.apply Backend.memory op).rows.listed s n) :
    (d.apply Backend.memory op).rows.subtreeDots n = d.rows.subtreeDots n := by
  have hrow : ∀ m, Above (d.apply Backend.memory op).rows.listed m n →
      (d.apply Backend.memory op).rows.lastDots m = d.rows.lastDots m := by
    intro m hm
    rw [Rows.lastDots, (frame_apply d op).last m fun hs => h m hs hm, Rows.lastDots]
  ext x
  constructor
  · rintro ⟨m, hm, hx⟩
    exact ⟨m, (above_listed_apply h).mp hm, hrow m hm ▸ hx⟩
  · rintro ⟨m, hm, hx⟩
    have hm' := (above_listed_apply h).mpr hm
    exact ⟨m, hm', (hrow m hm').symm ▸ hx⟩

/-- Such a node keeps its tombstone. -/
theorem tombstoned_apply {n : NodeId}
    (h : ∀ s, d.Starts op s → ¬ Above (d.apply Backend.memory op).rows.listed s n) :
    (d.apply Backend.memory op).rows.Tombstoned n ↔ d.rows.Tombstoned n := by
  have hdeleted : ((d.apply Backend.memory op).rows.row n).deletedAt = (d.rows.row n).deletedAt :=
    (frame_apply d op).deleted n fun hdel =>
      h n (Or.inl hdel.1.node_eq.symm) Relation.ReflTransGen.refl
  rw [Rows.Tombstoned, Rows.Tombstoned, hdeleted, subtreeDots_apply h]

end Doc

end Treecrdt
