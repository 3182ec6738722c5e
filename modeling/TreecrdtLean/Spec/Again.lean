import TreecrdtLean.Spec.Frame
import TreecrdtLean.Spec.Memory
import TreecrdtLean.Spec.Place

/-!
# An operation that is applied again

Right after an operation the same operation changes nothing that can be read (`Doc.alike_again`): it
is accepted only where its node hangs as it says, the dots that it merges are there, and it is not
newer than itself.
-/

namespace Treecrdt

open Forest

/-- The order key that an operation gives its node. -/
def OperationKind.orderKeyAfter : OperationKind → Option Bytes
  | .insert _ _ orderKey _ => some orderKey
  | .move _ _ orderKey => some orderKey
  | _ => none

/-- The payload that an operation writes to its node, if it is newer than the last writer. -/
def OperationKind.payloadAfter : OperationKind → Option (Option Bytes)
  | .insert _ _ _ content => content.map some
  | .payload _ content => some content
  | _ => none

theorem newerThan_self (op : Operation) :
    newerThan op (some (op.metadata.lamport, op.metadata.id)) = false := by
  rw [newerThan, cmpOpKey, cmp_self_eq_eq]
  rfl

namespace Doc

variable {d : Doc} {op : Operation}

/-- The documents answer alike: parents, keys, the dots of `last_change` and `deleted_at`, and the
payloads with their writers. -/
structure Alike (d d' : Doc) : Prop where
  parent : d.rows.parent = d'.rows.parent
  key : ∀ n, (d.rows.orderKey n).getD [] = (d'.rows.orderKey n).getD []
  last : ∀ n, d.rows.lastDots n = d'.rows.lastDots n
  deleted : ∀ n, d.rows.deletedDots n = d'.rows.deletedDots n
  isDeleted : ∀ n, (d.rows.row n).deletedAt.isSome = (d'.rows.row n).deletedAt.isSome
  payloads : d.payloads = d'.payloads

/-! ## The parent and the key -/

theorem target_of_again {p : NodeId}
    (h : (d.apply Backend.memory op).rows.target op.kind = some p) :
    d.rows.target op.kind = some p := by
  cases ht : d.rows.target op.kind with
  | none =>
    have hsame : (d.apply Backend.memory op).rows.parent = d.rows.parent := by
      rw [parent_apply (fun _ => rfl), ht]
      rfl
    rw [Rows.target_congr hsame, ht] at h
    cases h
  | some q =>
    have hp := Rows.parentAfter_of_target h
    rw [Rows.parentAfter_of_target ht] at hp
    exact hp

/-- An accepted operation hangs its node as it says. -/
theorem parent_of_again {p : NodeId}
    (h : (d.apply Backend.memory op).rows.target op.kind = some p) :
    (d.apply Backend.memory op).rows.parent op.kind.node = some p := by
  rw [parent_apply (fun _ => rfl), target_of_again h, hang, Function.update_self]

theorem parent_again :
    ((d.apply Backend.memory op).apply Backend.memory op).rows.parent =
      (d.apply Backend.memory op).rows.parent := by
  rw [parent_apply (fun _ => rfl) (d.apply Backend.memory op)]
  cases h : (d.apply Backend.memory op).rows.target op.kind with
  | none => rfl
  | some p => rw [hang, ← parent_of_again h, Function.update_eq_self]

/-- Where an accepted operation leaves its node. -/
theorem place_apply_of_target {p : NodeId} (h : d.rows.target op.kind = some p) :
    (d.apply Backend.memory op).rows.place op.kind.node =
      (some p, op.kind.orderKeyAfter, (d.rows.place op.kind.node).2.2) := by
  have hens : (d.ensure op.kind.node).rows.place = d.rows.place := Rows.place_ensure
  have htarget : (d.ensure op.kind.node).rows.target = d.rows.target :=
    Rows.target_congr Rows.parent_ensure
  rw [← hens]
  unfold apply
  generalize d.ensure op.kind.node = d' at htarget
  rw [← htarget] at h
  cases hk : op.kind <;> rw [hk] at h <;> unfold Rows.target at h
  case insert parent node key payload =>
    rw [Option.ite_none_left_eq_some] at h
    obtain ⟨hok, hp⟩ := h
    cases hp
    have hins : (d'.rows.insert Backend.memory op p node key).place node =
        (some p, some key, (d'.rows.place node).2.2) := by
      unfold Rows.insert
      rw [if_neg hok, Rows.place_touch, Rows.place_touch,
        Rows.place_reparent_self (Rows.isSome_ensure.mpr (Or.inl rfl)) rfl, Rows.place_ensure,
        Rows.place_ensure]
      rfl
    simp only [applyKind, OperationKind.node]
    split
    · rw [place_writePayload, hins]
      rfl
    · rw [hins]
      rfl
  case move node newParent key =>
    rw [Option.ite_none_left_eq_some] at h
    obtain ⟨hok, hp⟩ := h
    cases hp
    rw [not_or] at hok
    have hsame : ((d'.rows.ensure node).ensure p).parent = d'.rows.parent :=
      Rows.parent_ensure.trans Rows.parent_ensure
    have hcyc := hok.2
    rw [← Rows.cyclic_congr hsame] at hcyc
    simp only [applyKind, OperationKind.node]
    unfold Rows.move
    rw [if_neg hok.1]
    simp only
    rw [if_neg hcyc, Rows.place_touchMoved,
      Rows.place_reparent_self (Rows.isSome_ensure.mpr (Or.inr (Rows.isSome_ensure.mpr
        (Or.inl rfl)))) rfl, Rows.place_ensure, Rows.place_ensure]
    rfl
  case delete node => cases h
  case tombstone node => cases h
  case payload node payload => cases h

theorem key_again (n : NodeId) :
    (((d.apply Backend.memory op).apply Backend.memory op).rows.orderKey n).getD [] =
      ((d.apply Backend.memory op).rows.orderKey n).getD [] := by
  cases h : (d.apply Backend.memory op).rows.target op.kind with
  | none => exact key_apply h n
  | some p =>
    rw [← Rows.key_place, ← Rows.key_place]
    by_cases hn : n = op.kind.node
    · rw [hn, place_apply_of_target h, place_apply_of_target (target_of_again h)]
    · have hplace : ((d.apply Backend.memory op).apply Backend.memory op).rows.place n =
          (d.apply Backend.memory op).rows.place n := by
        by_contra hne
        exact hn (changed_apply (Or.inl hne))
      rw [hplace]

/-! ## The payload -/

theorem payloads_writePayload (d : Doc) (op : Operation) (n : NodeId) (payload : Option Bytes) :
    (d.writePayload op n payload).payloads =
      if newerThan op (d.payloads n).lastWriter then
        Function.update d.payloads n
          { payload, lastWriter := some (op.metadata.lamport, op.metadata.id) }
      else d.payloads := by
  unfold writePayload
  split <;> rfl

theorem payloads_apply (d : Doc) (op : Operation) :
    (d.apply Backend.memory op).payloads =
      match op.kind.payloadAfter with
      | none => d.payloads
      | some payload =>
        if newerThan op (d.payloads op.kind.node).lastWriter then
          Function.update d.payloads op.kind.node
            { payload, lastWriter := some (op.metadata.lamport, op.metadata.id) }
        else d.payloads := by
  have hens : (d.ensure op.kind.node).payloads = d.payloads := rfl
  unfold apply
  generalize d.ensure op.kind.node = d' at hens
  rw [← hens]
  cases op.kind with
  | insert parent node key payload =>
    cases payload with
    | none => rfl
    | some payload => exact payloads_writePayload _ op node (some payload)
  | payload node payload => exact payloads_writePayload d' op node payload
  | move | delete | tombstone => rfl

/-- An operation that has written, or was too old to, is not newer than the last writer. -/
theorem not_newer_again (h : op.kind.payloadAfter.isSome) :
    newerThan op ((d.apply Backend.memory op).payloads op.kind.node).lastWriter = false := by
  obtain ⟨payload, hp⟩ := Option.isSome_iff_exists.mp h
  rw [payloads_apply, hp]
  simp only
  split
  · rw [Function.update_self]
    exact newerThan_self op
  · rename_i hold
    simpa using hold

theorem payloads_again :
    ((d.apply Backend.memory op).apply Backend.memory op).payloads =
      (d.apply Backend.memory op).payloads := by
  rw [payloads_apply (d.apply Backend.memory op)]
  cases hp : op.kind.payloadAfter with
  | none => rfl
  | some payload =>
    simp only
    rw [not_newer_again (by rw [hp]; rfl), if_neg Bool.false_ne_true]

/-! ## The version vectors -/

/-- Where the operation would touch again, it has touched. -/
theorem touches_of_again {m : NodeId} (h : (d.apply Backend.memory op).Touches op m) :
    d.Touches op m := by
  have htarget : ((d.apply Backend.memory op).rows.target op.kind).isSome →
      (d.rows.target op.kind).isSome := fun hsome => by
    obtain ⟨p, hp⟩ := Option.isSome_iff_exists.mp hsome
    rw [target_of_again hp]
    rfl
  have hold : op.kind.payloadAfter.isSome →
      newerThan op ((d.apply Backend.memory op).payloads op.kind.node).lastWriter = false :=
    not_newer_again
  have hparent : ∀ p, (d.apply Backend.memory op).rows.target op.kind = some p →
      (d.apply Backend.memory op).rows.parent op.kind.node = some p := fun p => parent_of_again
  unfold Touches at h ⊢
  cases hk : op.kind with
  | insert p n key payload =>
    rw [hk] at h htarget hold
    obtain ⟨hsome, hm⟩ | ⟨hsome, hnewer, -⟩ := h
    · exact Or.inl ⟨htarget hsome, hm⟩
    · have hwrites : (OperationKind.insert p n key payload).payloadAfter.isSome := by
        simpa [OperationKind.payloadAfter] using hsome
      have := hold hwrites
      rw [OperationKind.node] at this
      rw [this] at hnewer
      cases hnewer
  | move n p key =>
    rw [hk] at h htarget hparent
    obtain ⟨hsome, hm⟩ := h
    refine ⟨htarget hsome, ?_⟩
    obtain hm | hm | ⟨hm, hne⟩ := hm
    · exact Or.inl hm
    · exact Or.inr (Or.inl hm)
    · obtain ⟨q, hq⟩ := Option.isSome_iff_exists.mp hsome
      have hqp := Rows.parentAfter_of_target hq
      have hhangs := hparent q hq
      cases hqp
      rw [OperationKind.node, hm] at hhangs
      cases hhangs
      exact Or.inr (Or.inl ⟨rfl, hne⟩)
  | payload n payload =>
    rw [hk] at h hold
    obtain ⟨hnewer, -⟩ := h
    have := hold rfl
    rw [OperationKind.node] at this
    rw [this] at hnewer
    cases hnewer
  | delete n => rw [hk] at h; exact h
  | tombstone n => rw [hk] at h; exact h

/-- A delete of `ROOT` or `TRASH` writes nothing. -/
theorem row_apply_special {n : NodeId} (hdel : op.kind.Deletes n) (hn : n.special) :
    (d.apply Backend.memory op).rows.row = d.rows.row := by
  have hspecial : n = NodeId.ROOT ∨ n = NodeId.TRASH := hn.symm
  have hrows : (d.apply Backend.memory op).rows = d.rows.ensure n := by
    unfold apply
    rcases hdel with hk | hk <;> rw [hk] <;> exact if_pos hspecial
  rw [hrows, Rows.row_ensure]

/-- Right after an operation the same operation changes nothing that can be read. -/
theorem alike_again {s : MemoryStores} (hm : ModelsDoc s d) (hr : Acyclic d.rows.up)
    (hn : d.rows.Normal) :
    Alike ((d.apply Backend.memory op).apply Backend.memory op) (d.apply Backend.memory op) := by
  obtain ⟨-, s', -, -, hm'⟩ := applyForward_runs hr op s hm
  have hpar : ∀ n p, d.rows.parent n = some p → (d.rows p).isSome :=
    LawfulNodeStore.parent_isSome _ _ _ hm.1
  have hpar' : ∀ n p, (d.apply Backend.memory op).rows.parent n = some p →
      ((d.apply Backend.memory op).rows p).isSome := LawfulNodeStore.parent_isSome _ _ _ hm'.1
  by_cases hdel : ∃ n, op.kind.Deletes n
  · obtain ⟨n, hdel⟩ := hdel
    by_cases hspecial : n.special
    · have hrow := row_apply_special (d := d.apply Backend.memory op) hdel hspecial
      refine ⟨parent_again, key_again, fun m => ?_, fun m => ?_, fun m => ?_, payloads_again⟩
      · rw [Rows.lastDots, hrow, Rows.lastDots]
      · rw [Rows.deletedDots, hrow, Rows.deletedDots]
      · rw [hrow]
    · obtain ⟨hnormal, -, hdots, hsome⟩ := deleted_apply (d := d) hdel hspecial
      obtain ⟨-, hlast', hdots', hsome'⟩ :=
        deleted_apply (d := d.apply Backend.memory op) hdel hspecial
      refine ⟨parent_again, key_again, hlast', fun m => ?_, fun m => ?_, payloads_again⟩
      · ext x
        rw [hdots' (hnormal hn), or_iff_left_iff_imp]
        exact fun hx => (hdots hn m x).mpr (Or.inr hx)
      · rw [Bool.eq_iff_iff, hsome', or_iff_left_iff_imp]
        exact fun hx => (hsome m).mpr (Or.inr hx)
  · have hno : ∀ m, ¬ op.kind.Deletes m := fun m hm => hdel ⟨m, hm⟩
    obtain ⟨hnormal, hlast, -⟩ := touched_apply (b := Backend.memory) hpar hno
    obtain ⟨-, hlast', hdeleted'⟩ := touched_apply (b := Backend.memory) hpar' hno
    refine ⟨parent_again, key_again, fun m => ?_, fun m => ?_, fun m => ?_, payloads_again⟩
    · ext x
      rw [hlast' (hnormal hn), or_iff_left_iff_imp]
      exact fun hx => (hlast hn m x).mpr (Or.inr ⟨touches_of_again hx.1, hx.2⟩)
    · rw [Rows.deletedDots, Rows.deletedDots, hdeleted']
    · rw [hdeleted']

end Doc

end Treecrdt
