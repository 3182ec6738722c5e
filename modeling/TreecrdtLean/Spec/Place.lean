import TreecrdtLean.Spec.Doc

/-!
# Places

Where a node hangs and what deleted it is its place. An operation writes to the place and the payload
of its own node only (`Doc.changed_apply`), and leaves parents and keys alone where it is refused
(`Doc.key_apply`).
-/

namespace Treecrdt

/-- Where a row hangs, and its deletes. -/
def Row.place (row : Row) : Option NodeId × Option Bytes × Option VersionVector :=
  (row.parent, row.orderKey, row.deletedAt)

namespace Rows

variable {r : Rows} {n m : NodeId} {op : Operation}

/-- The place of a node. -/
def place (r : Rows) (n : NodeId) : Option NodeId × Option Bytes × Option VersionVector :=
  (r.row n).place

theorem place_fst (r : Rows) (n : NodeId) : (r.place n).1 = r.parent n := by
  cases h : r n <;> simp [place, row, parent, h, Row.place, Row.blank]

theorem key_place (r : Rows) (n : NodeId) :
    (r.place n).2.1.getD [] = (r.orderKey n).getD [] := by
  cases h : r n
  · simp only [place, row, orderKey, h, Row.place, Row.blank, Option.getD_none, Option.bind_none]
    split <;> rfl
  · simp [place, row, orderKey, h, Row.place]

theorem row_modify_ne {f : Row → Row} (h : m ≠ n) : (r.modify n f).row m = r.row m := by
  simp [row, modify, h]

theorem row_modify_self {f : Row → Row} (hn : (r n).isSome) :
    (r.modify n f).row n = f (r.row n) := by
  obtain ⟨x, hx⟩ := Option.isSome_iff_exists.mp hn
  simp [row, modify, hx]

@[simp] theorem place_ensure : (r.ensure n).place = r.place := by
  funext m
  by_cases h : m = n
  · subst h
    simp [place, row, ensure]
  · simp [place, row, ensure, h]

@[simp] theorem place_touch : (r.touch op n).place = r.place := by
  funext m
  by_cases h : m = n
  · subst h
    cases hm : r m <;> simp [place, row, touch, modify, hm, Row.place]
  · rw [place, touch, row_modify_ne h, place]

@[simp] theorem place_touchMoved {p : NodeId} {o : Option NodeId} :
    (r.touchMoved op n p o).place = r.place := by
  unfold touchMoved
  cases o with
  | none => by_cases hp : p = NodeId.TRASH <;> simp [hp]
  | some q => by_cases hq : q = NodeId.TRASH <;> by_cases hp : p = NodeId.TRASH <;> simp [hq, hp]

theorem place_reparent_ne {b : Backend} {p : NodeId} {key : Bytes} (h : m ≠ n) :
    (r.reparent b n p key).place m = r.place m := by
  unfold reparent
  split
  · rfl
  · rw [place, row_modify_ne h, place]

theorem place_reparent_self {b : Backend} {p : NodeId} {key : Bytes} (hn : (r n).isSome)
    (hb : b.pinned n = false) :
    (r.reparent b n p key).place n = (some p, b.keyUnder p key, (r.place n).2.2) := by
  unfold reparent
  rw [hb, if_neg Bool.false_ne_true, place, row_modify_self hn]
  rfl

theorem place_insert_ne {b : Backend} {p : NodeId} {key : Bytes} (h : m ≠ n) :
    (r.insert b op p n key).place m = r.place m := by
  unfold insert
  split
  · rfl
  · rw [place_touch, place_touch, place_reparent_ne h, place_ensure, place_ensure]

theorem place_move_ne {b : Backend} {p : NodeId} {key : Bytes} (h : m ≠ n) :
    (r.move b op n p key).place m = r.place m := by
  unfold move
  split
  · rfl
  · simp only
    split
    · rw [place_ensure, place_ensure]
    · rw [place_touchMoved, place_reparent_ne h, place_ensure, place_ensure]

theorem place_delete_ne {b : Backend} (h : m ≠ n) : (r.delete b op n).place m = r.place m := by
  unfold delete
  split
  · rfl
  · rw [place, mergeDeletedAt, row_modify_ne h, ← place, place_ensure]

theorem key_delete {b : Backend} (m : NodeId) :
    ((r.delete b op n).place m).2.1 = (r.place m).2.1 := by
  by_cases h : m = n
  · subst h
    unfold delete
    split
    · rfl
    · rw [mergeDeletedAt, place, row_modify_self (isSome_ensure.mpr (Or.inl rfl)), Row.place]
      exact congrArg (·.2.1) (congrFun (place_ensure (r := r) (n := m)) m)
  · rw [place_delete_ne h]

end Rows

namespace Doc

/-- Parent, order key, deletes or payload of a node differ. -/
def Changed (d d' : Doc) (n : NodeId) : Prop :=
  d'.rows.place n ≠ d.rows.place n ∨ (d'.payloads n).payload ≠ (d.payloads n).payload

@[simp] theorem place_writePayload {d : Doc} {op : Operation} {n : NodeId}
    {payload : Option Bytes} : (d.writePayload op n payload).rows.place = d.rows.place := by
  unfold writePayload
  split <;> simp

theorem payload_writePayload_ne {d : Doc} {op : Operation} {n m : NodeId}
    {payload : Option Bytes} (h : m ≠ n) :
    (d.writePayload op n payload).payloads m = d.payloads m := by
  unfold writePayload
  split
  · simp [h]
  · rfl

/-- An operation changes no node but its own. -/
theorem changed_apply {b : Backend} {d : Doc} {op : Operation} {m : NodeId}
    (h : Changed d (d.apply b op) m) : m = op.kind.node := by
  by_contra hne
  have hplace : (d.ensure op.kind.node).rows.place m = d.rows.place m := by
    rw [ensure, Rows.place_ensure]
  have hpayload : (d.ensure op.kind.node).payloads m = d.payloads m := rfl
  unfold apply at h
  generalize d.ensure op.kind.node = d' at h hplace hpayload
  rw [Changed, ← hplace, ← hpayload] at h
  cases hk : op.kind <;> rw [hk] at h hne <;> simp only [OperationKind.node] at hne
  case insert parent node key payload =>
    simp only [applyKind] at h
    split at h
    · rw [place_writePayload, payload_writePayload_ne hne] at h
      simp [Rows.place_insert_ne hne] at h
    · simp [Rows.place_insert_ne hne] at h
  case move node newParent key => simp [applyKind, Rows.place_move_ne hne] at h
  case delete node => simp [applyKind, Rows.place_delete_ne hne] at h
  case tombstone node => simp [applyKind, Rows.place_delete_ne hne] at h
  case payload node payload =>
    simp [applyKind, payload_writePayload_ne hne] at h

/-- An operation that hangs no node leaves the keys. -/
theorem key_apply {d : Doc} {op : Operation} (ht : d.rows.target op.kind = none) (n : NodeId) :
    ((d.apply Backend.memory op).rows.orderKey n).getD [] = (d.rows.orderKey n).getD [] := by
  have hens : (d.ensure op.kind.node).rows.place = d.rows.place := Rows.place_ensure
  have htarget : (d.ensure op.kind.node).rows.target = d.rows.target :=
    Rows.target_congr Rows.parent_ensure
  rw [← Rows.key_place, ← Rows.key_place, ← hens]
  unfold apply
  generalize d.ensure op.kind.node = d' at htarget
  rw [← htarget] at ht
  cases hk : op.kind <;> rw [hk] at ht <;> unfold Rows.target at ht
  case insert parent node key payload =>
    have hins : d'.rows.insert Backend.memory op parent node key = d'.rows := by
      unfold Rows.insert
      simp only [ite_eq_left_iff, reduceCtorEq, imp_false, not_not] at ht
      rw [if_pos ht]
    simp only [applyKind, hins]
    split
    · rw [place_writePayload]
    · rfl
  case move node newParent key =>
    simp only [ite_eq_left_iff, reduceCtorEq, imp_false, not_not] at ht
    simp only [applyKind]
    unfold Rows.move
    split
    · rfl
    · rename_i hroot
      have hcyc := ht.resolve_left hroot
      have hsame : ((d'.rows.ensure node).ensure newParent).parent = d'.rows.parent :=
        Rows.parent_ensure.trans Rows.parent_ensure
      rw [← Rows.cyclic_congr hsame] at hcyc
      simp only
      rw [if_pos hcyc, Rows.place_ensure, Rows.place_ensure]
  case delete node => simp only [applyKind, Rows.key_delete]
  case tombstone node => simp only [applyKind, Rows.key_delete]
  case payload node payload => rw [applyKind, place_writePayload]

end Doc

end Treecrdt
