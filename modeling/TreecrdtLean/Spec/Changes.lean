import TreecrdtLean.Spec.Tombstone

/-!
# What an operation adds to the version vectors

An operation adds its own dot and its `known_state` (`Operation.merged`): a delete to the
`deleted_at` of its node, any other operation to the `last_change` of the nodes it touches. Over a
fold the `last_change` of a node is the union of the dots that touched it (`Doc.Touches`).
-/

namespace Treecrdt

open Forest

/-- The dot of an operation and its known state. -/
def Operation.dots (op : Operation) : Set (ReplicaId × ℕ) :=
  {(op.metadata.id.replica, op.metadata.id.counter.toNat)} ∪
    {d | ∃ knownState, op.metadata.knownState = some knownState ∧ d ∈ knownState.dots}

/-- A delete or tombstone of a node. -/
def OperationKind.Deletes (kind : OperationKind) (n : NodeId) : Prop :=
  kind = .delete n ∨ kind = .tombstone n

instance (kind : OperationKind) (n : NodeId) : Decidable (kind.Deletes n) :=
  inferInstanceAs (Decidable (_ ∨ _))

/-- The dots that an operation merges: a counter of 0 is none. -/
def Operation.merged (op : Operation) : Set (ReplicaId × ℕ) :=
  (operationVersionVector op).dots ∪
    {d | ∃ knownState, op.metadata.knownState = some knownState ∧ d ∈ knownState.dots}

theorem operationVersionVector_normal (op : Operation) : (operationVersionVector op).Normal :=
  (VersionVector.observe_new op.metadata.id.replica op.metadata.id.counter).1

theorem mem_operationVersionVector_dots {op : Operation} {d : ReplicaId × ℕ} :
    d ∈ (operationVersionVector op).dots ↔
      d = (op.metadata.id.replica, op.metadata.id.counter.toNat) ∧ 1 ≤ d.2 :=
  Set.ext_iff.mp (VersionVector.observe_new op.metadata.id.replica op.metadata.id.counter).2 d

theorem Operation.merged_subset (op : Operation) : op.merged ⊆ op.dots := by
  rintro d (hd | hd)
  · exact Or.inl (mem_operationVersionVector_dots.mp hd).1
  · exact Or.inr hd

theorem Operation.merged_eq {op : Operation} (hc : 0 < op.metadata.id.counter) :
    op.merged = op.dots := by
  rw [UInt64.lt_iff_toNat_lt, UInt64.toNat_zero] at hc
  refine Set.Subset.antisymm op.merged_subset ?_
  rintro d (rfl | hd)
  · exact Or.inl (mem_operationVersionVector_dots.mpr ⟨rfl, hc⟩)
  · exact Or.inr hd

theorem touchVersion_spec (op : Operation) {vv : VersionVector} (hv : vv.Normal) :
    (touchVersion op vv).Normal ∧ (touchVersion op vv).dots = vv.dots ∪ op.merged := by
  unfold touchVersion Operation.merged
  rcases op.metadata.knownState with _ | knownState
  · refine ⟨hv.merge _, ?_⟩
    simp only [VersionVector.dots_merge hv]
    simp
  · refine ⟨(hv.merge _).merge _, ?_⟩
    simp only [VersionVector.dots_merge (hv.merge _), VersionVector.dots_merge hv]
    ext d
    simp only [Set.mem_union, Set.mem_ofPred_eq, Option.some.injEq, exists_eq_left', or_assoc]

theorem deleteVersionVector_spec (op : Operation) :
    (deleteVersionVector op).Normal ∧ (deleteVersionVector op).dots = op.merged := by
  have hn := operationVersionVector_normal op
  unfold deleteVersionVector Operation.merged
  rcases op.metadata.knownState with _ | knownState
  · simp [hn]
  · refine ⟨hn.merge _, ?_⟩
    simp only [VersionVector.dots_merge hn]
    simp

namespace Rows

variable {r r' r'' : Rows} {n m : NodeId} {op : Operation}

@[simp] theorem row_ensure : (r.ensure n).row = r.row := by
  funext m
  by_cases h : m = n
  · subst h
    simp [row, ensure]
  · simp [row, ensure, h]

theorem row_modify {f : Row → Row} (hn : (r n).isSome) :
    (r.modify n f).row m = if m = n then f (r.row n) else r.row m := by
  obtain ⟨x, hx⟩ := Option.isSome_iff_exists.mp hn
  by_cases h : m = n
  · subst h
    simp [row, modify, hx]
  · simp [row, modify, h]

/-- The deletes of a node. -/
def deletedDots (r : Rows) (n : NodeId) : Set (ReplicaId × ℕ) :=
  {d | ∃ vv, (r.row n).deletedAt = some vv ∧ d ∈ vv.dots}

/-- `r'` is `r` where `op` touched the nodes in `T`. -/
structure Touched (op : Operation) (T : NodeId → Prop) (r r' : Rows) : Prop where
  normal : r.Normal → r'.Normal
  last : r.Normal → ∀ m d, d ∈ r'.lastDots m ↔ d ∈ r.lastDots m ∨ T m ∧ d ∈ op.merged
  deleted : ∀ m, (r'.row m).deletedAt = (r.row m).deletedAt

theorem Touched.refl : Touched op (fun _ => False) r r :=
  ⟨id, fun _ m d => by simp, fun _ => rfl⟩

theorem Touched.trans {T T' : NodeId → Prop} (h : Touched op T r r') (h' : Touched op T' r' r'') :
    Touched op (fun m => T m ∨ T' m) r r'' where
  normal hn := h'.normal (h.normal hn)
  last hn m d := by
    rw [h'.last (h.normal hn), h.last hn]
    tauto
  deleted m := (h'.deleted m).trans (h.deleted m)

theorem Touched.congr {T T' : NodeId → Prop} (h : Touched op T r r') (hT : ∀ m, T m ↔ T' m) :
    Touched op T' r r' := by
  have : T = T' := funext fun m => propext (hT m)
  exact this ▸ h

/-- A change of rows that leaves both version vectors alone. -/
theorem Touched.of_row (hl : ∀ m, (r'.row m).lastChange = (r.row m).lastChange)
    (hd : ∀ m, (r'.row m).deletedAt = (r.row m).deletedAt) :
    Touched op (fun _ => False) r r' where
  normal hn := ⟨fun m => by rw [hl]; exact hn.last m,
    fun m vv h => hn.deleted m vv (by rw [← hd]; exact h)⟩
  last _ m d := by simp [lastDots, hl]
  deleted := hd

theorem Touched.ensure : Touched op (fun _ => False) r (r.ensure n) :=
  .of_row (fun m => by rw [row_ensure]) fun m => by rw [row_ensure]

theorem Touched.reparent {b : Backend} {p : NodeId} {key : Bytes} (hn : (r n).isSome) :
    Touched op (fun _ => False) r (r.reparent b n p key) := by
  unfold Rows.reparent
  split
  · exact .refl
  · exact .of_row (fun m => by rw [row_modify hn]; split <;> simp_all)
      fun m => by rw [row_modify hn]; split <;> simp_all

theorem Touched.touch (hn : (r n).isSome) :
    Touched op (fun m => m = n) r (r.touch op n) := by
  have hrow : ∀ m, (r.touch op n).row m =
      if m = n then { r.row n with lastChange := touchVersion op (r.row n).lastChange }
      else r.row m := fun m => row_modify hn
  refine ⟨fun h => ⟨fun m => ?_, fun m vv hvv => ?_⟩, fun h m d => ?_, fun m => ?_⟩
  · rw [hrow]
    split
    · exact (touchVersion_spec op (h.last n)).1
    · exact h.last m
  · rw [hrow] at hvv
    split at hvv
    · exact h.deleted n vv hvv
    · exact h.deleted m vv hvv
  · rw [lastDots, hrow]
    by_cases hm : m = n
    · subst hm
      rw [if_pos rfl, (touchVersion_spec op (h.last m)).2]
      simp [lastDots]
    · simp [hm, lastDots]
  · rw [hrow]
    split
    · rename_i he
      rw [he]
    · rfl

theorem Touched.insert {b : Backend} {p : NodeId} {key : Bytes} (payload : Option Bytes) :
    Touched op (fun m => (r.target (.insert p n key payload)).isSome ∧ (m = n ∨ m = p)) r
      (r.insert b op p n key) := by
  simp only [target_insert_isSome]
  unfold Rows.insert
  split
  · rename_i h
    exact Touched.refl.congr fun m => by tauto
  · rename_i h
    have hn : (((r.ensure p).ensure n) n).isSome := isSome_ensure.mpr (Or.inl rfl)
    have hp : (((r.ensure p).ensure n) p).isSome :=
      isSome_ensure.mpr (Or.inr (isSome_ensure.mpr (Or.inl rfl)))
    have hreparent : Touched op (fun _ => False) r (((r.ensure p).ensure n).reparent b n p key) :=
      ((Touched.ensure.trans .ensure).trans (.reparent hn)).congr fun m => by simp
    refine ((hreparent.trans (.touch (isSome_reparent.mpr hn))).trans
      (.touch (isSome_modify.mpr (isSome_reparent.mpr hp)))).congr fun m => ?_
    obtain ⟨hpn, hcyc⟩ := not_or.mp h
    simp [hpn, hcyc]

theorem Touched.touchMoved {p : NodeId} {o : Option NodeId} (hn : (r n).isSome)
    (hp : (r p).isSome) (ho : ∀ q, o = some q → (r q).isSome) :
    Touched op (fun m => m = n ∨ (m = p ∧ p ≠ NodeId.TRASH) ∨ (o = some m ∧ m ≠ NodeId.TRASH)) r
      (r.touchMoved op n p o) := by
  have hkeep : ∀ {r' : Rows} {m k}, (r' m).isSome → ((r'.touch op k) m).isSome :=
    fun h => isSome_modify.mpr h
  have hlast : ∀ {r' : Rows}, (r' p).isSome →
      Touched op (fun m => m = p ∧ p ≠ NodeId.TRASH) r'
        (if p ≠ NodeId.TRASH then r'.touch op p else r') := by
    intro r' h
    split
    · rename_i hT
      exact (Touched.touch h).congr fun m => by simp [hT]
    · rename_i hT
      exact Touched.refl.congr fun m => by simp [not_not.mp hT]
  unfold Rows.touchMoved
  rcases o with _ | q
  · exact ((Touched.touch hn).trans (hlast (hkeep hp))).congr fun m => by simp
  · simp only
    by_cases hq : q ≠ NodeId.TRASH
    · rw [if_pos hq]
      refine (((Touched.touch hn).trans (.touch (hkeep (ho q rfl)))).trans
        (hlast (hkeep (hkeep hp)))).congr fun m => ?_
      simp only [Option.some.injEq]
      constructor
      · rintro ((h | rfl) | h)
        · exact Or.inl h
        · exact Or.inr (Or.inr ⟨rfl, hq⟩)
        · exact Or.inr (Or.inl h)
      · rintro (h | h | ⟨rfl, -⟩)
        · exact Or.inl (Or.inl h)
        · exact Or.inr h
        · exact Or.inl (Or.inr rfl)
    · rw [if_neg hq]
      refine ((Touched.touch hn).trans (hlast (hkeep hp))).congr fun m => ?_
      have : ¬ (some q = some m ∧ m ≠ NodeId.TRASH) := by
        rintro ⟨h, hm⟩
        cases h
        exact hq hm
      tauto

theorem Touched.move {b : Backend} {p : NodeId} {key : Bytes}
    (hpar : ∀ q, r.parent n = some q → (r q).isSome) :
    Touched op
      (fun m => (r.target (.move n p key)).isSome ∧
        (m = n ∨ (m = p ∧ p ≠ NodeId.TRASH) ∨ (r.parent n = some m ∧ m ≠ NodeId.TRASH))) r
      (r.move b op n p key) := by
  simp only [target_move_isSome]
  have hpar' : ((r.ensure n).ensure p).parent = r.parent := parent_ensure.trans parent_ensure
  have hens : Touched op (fun _ => False) r ((r.ensure n).ensure p) :=
    (Touched.ensure.trans .ensure).congr fun m => by simp
  unfold Rows.move
  split
  · rename_i h
    exact Touched.refl.congr fun m => by simp [h]
  simp only [hpar']
  rename_i hroot
  split
  · rename_i h
    rw [cyclic_congr hpar'] at h
    exact hens.congr fun m => by tauto
  · rename_i h
    have hn : (((r.ensure n).ensure p) n).isSome :=
      isSome_ensure.mpr (Or.inr (isSome_ensure.mpr (Or.inl rfl)))
    have hp : (((r.ensure n).ensure p) p).isSome := isSome_ensure.mpr (Or.inl rfl)
    refine ((hens.trans (.reparent hn)).trans (.touchMoved (isSome_reparent.mpr hn)
      (isSome_reparent.mpr hp) fun q hq => isSome_reparent.mpr ?_)).congr fun m => ?_
    · exact isSome_ensure.mpr (Or.inr (isSome_ensure.mpr (Or.inr (hpar q hq))))
    · have hacc : n ≠ NodeId.ROOT ∧ (p = NodeId.TRASH ∨ ¬ r.Cyclic n p ∧ n ≠ p) := by
        rw [cyclic_congr hpar'] at h
        refine ⟨hroot, ?_⟩
        tauto
      simp only [false_or, and_iff_right hacc]

end Rows

/-! ## Documents -/

namespace Doc

/-- The nodes whose `last_change` an operation adds to: for an accepted insert or move the node and
its new parent, for a move the old parent too, and the node of an accepted payload. -/
def Touches (d : Doc) (op : Operation) (m : NodeId) : Prop :=
  match op.kind with
  | .insert p n _ payload =>
    ((d.rows.target op.kind).isSome ∧ (m = n ∨ m = p)) ∨
      (payload.isSome ∧ newerThan op (d.payloads n).lastWriter = true ∧ m = n)
  | .move n p _ =>
    (d.rows.target op.kind).isSome ∧
      (m = n ∨ (m = p ∧ p ≠ NodeId.TRASH) ∨ (d.rows.parent n = some m ∧ m ≠ NodeId.TRASH))
  | .payload n _ => newerThan op (d.payloads n).lastWriter = true ∧ m = n
  | _ => False

theorem touched_writePayload {d : Doc} {op : Operation} {n : NodeId} {payload : Option Bytes} :
    Rows.Touched op (fun m => newerThan op (d.payloads n).lastWriter = true ∧ m = n) d.rows
      (d.writePayload op n payload).rows := by
  unfold writePayload
  split
  · rename_i h
    exact (Rows.Touched.ensure.trans
      (.touch (Rows.isSome_ensure.mpr (Or.inl rfl)))).congr fun m => by simp [h]
  · rename_i h
    exact Rows.Touched.ensure.congr fun m => by simp [h]

/-- What an operation that is no delete does to the version vectors. -/
theorem touched_apply {b : Backend} {d : Doc} {op : Operation}
    (hpar : ∀ n p, d.rows.parent n = some p → (d.rows p).isSome)
    (hdel : ∀ n, ¬ op.kind.Deletes n) :
    Rows.Touched op (d.Touches op) d.rows (d.apply b op).rows := by
  have he : (d.ensure op.kind.node).rows.parent = d.rows.parent := Rows.parent_ensure
  have hpay : (d.ensure op.kind.node).payloads = d.payloads := rfl
  have hens : Rows.Touched op (fun _ => False) d.rows (d.ensure op.kind.node).rows := .ensure
  have hsome : ∀ n, (d.rows n).isSome → ((d.ensure op.kind.node).rows n).isSome := fun n h =>
    Rows.isSome_ensure.mpr (Or.inr h)
  have htarget : (d.ensure op.kind.node).rows.target = d.rows.target := Rows.target_congr he
  unfold apply
  generalize d.ensure op.kind.node = d' at he hpay hens hsome htarget
  unfold Touches
  cases hk : op.kind with
  | insert p n key payload =>
    have hins : Rows.Touched op
        (fun m => (d.rows.target (.insert p n key payload)).isSome ∧ (m = n ∨ m = p)) d.rows
        (d'.rows.insert b op p n key) := by
      refine (hens.trans (Rows.Touched.insert payload)).congr fun m => ?_
      rw [htarget, false_or]
    simp only [applyKind]
    split
    · rename_i hp
      refine (hins.trans (touched_writePayload
        (d := { d' with rows := d'.rows.insert b op p n key }))).congr fun m => ?_
      simp only [hpay, hp, true_and]
    · rename_i hp
      exact hins.congr fun m => by simp [hp]
  | move n p key =>
    refine (hens.trans (Rows.Touched.move fun q hq => ?_)).congr fun m => ?_
    · exact hsome q (hpar n q (by rw [← he]; exact hq))
    · rw [htarget, he, false_or]
  | delete n => exact absurd (Or.inl hk) (hdel n)
  | tombstone n => exact absurd (Or.inr hk) (hdel n)
  | payload n payload =>
    refine (hens.trans touched_writePayload).congr fun m => ?_
    rw [hpay, false_or]

/-- What a delete does to the version vectors. -/
structure Deleted (op : Operation) (n : NodeId) (r r' : Rows) : Prop where
  normal : r.Normal → r'.Normal
  last : ∀ m, r'.lastDots m = r.lastDots m
  deleted : r.Normal → ∀ m d, d ∈ r'.deletedDots m ↔ d ∈ r.deletedDots m ∨ m = n ∧ d ∈ op.merged
  isSome : ∀ m, (r'.row m).deletedAt.isSome ↔ (r.row m).deletedAt.isSome ∨ m = n

theorem deleted_delete {r : Rows} {op : Operation} {n : NodeId} (hn : ¬ n.special) :
    Deleted op n r (r.delete Backend.memory op n) := by
  have hspecial : ¬ (n = NodeId.ROOT ∨ n = NodeId.TRASH) := fun h => hn h.symm
  obtain ⟨hv, hd⟩ := deleteVersionVector_spec op
  have hrow : ∀ m, (r.delete Backend.memory op n).row m =
      if m = n then { r.row n with
        deletedAt := some (((r.row n).deletedAt.map (·.merge (deleteVersionVector op))).getD
          (deleteVersionVector op)) }
      else r.row m := by
    intro m
    rw [Rows.delete, if_neg hspecial, Rows.mergeDeletedAt,
      Rows.row_modify (Rows.isSome_ensure.mpr (Or.inl rfl)), Rows.row_ensure]
    cases (r.row n).deletedAt <;> rfl
  constructor
  · intro h
    refine ⟨fun m => ?_, fun m vv hvv => ?_⟩
    · rw [hrow]
      split
      · exact h.last n
      · exact h.last m
    · rw [hrow] at hvv
      split at hvv
      · rcases hdel : (r.row n).deletedAt with _ | existing
        · rw [hdel] at hvv
          cases hvv
          exact hv
        · rw [hdel] at hvv
          cases hvv
          exact (h.deleted n existing hdel).merge _
      · exact h.deleted m vv hvv
  · intro m
    rw [Rows.lastDots, hrow]
    by_cases hm : m = n
    · subst hm
      simp [Rows.lastDots]
    · simp [hm, Rows.lastDots]
  · intro h m d
    rw [Rows.deletedDots, Rows.deletedDots]
    simp only [hrow, Set.mem_ofPred_eq]
    by_cases hm : m = n
    · subst hm
      rcases hdel : (r.row m).deletedAt with _ | existing
      · simp [hd]
      · simp [VersionVector.dots_merge (h.deleted m existing hdel), hd]
    · simp [hm]
  · intro m
    rw [hrow]
    by_cases hm : m = n
    · subst hm
      rcases (r.row m).deletedAt with _ | existing <;> simp
    · simp [hm]

theorem deleted_apply {d : Doc} {op : Operation} {n : NodeId} (hdel : op.kind.Deletes n)
    (hn : ¬ n.special) :
    Deleted op n d.rows (d.apply Backend.memory op).rows := by
  have hens : (d.ensure n).rows.row = d.rows.row := Rows.row_ensure
  have h : Deleted op n (d.ensure n).rows ((d.ensure n).rows.delete Backend.memory op n) :=
    deleted_delete hn
  have hrows : (d.apply Backend.memory op).rows = (d.ensure n).rows.delete Backend.memory op n := by
    unfold apply
    rcases hdel with hk | hk <;> rw [hk] <;> rfl
  rw [hrows]
  obtain ⟨h1, h2, h3, h4⟩ := h
  have hnorm : d.rows.Normal → (d.ensure n).rows.Normal := fun hd =>
    ⟨fun m => by rw [hens]; exact hd.last m,
      fun m vv hvv => hd.deleted m vv (by rw [← hens]; exact hvv)⟩
  refine ⟨fun hd => h1 (hnorm hd), fun m => ?_, fun hd m x => ?_, fun m => ?_⟩
  · rw [h2, Rows.lastDots, hens, Rows.lastDots]
  · rw [h3 (hnorm hd), Rows.deletedDots, hens, Rows.deletedDots]
  · rw [h4, hens]

/-! ## Folds -/

/-- `op` touched `m` when it was applied, as one of the operations of a fold. -/
def TouchedBy (ops : List Operation) (m : NodeId) (op : Operation) : Prop :=
  ∃ pre post, ops = pre ++ op :: post ∧ (initial.applyAll Backend.memory pre).Touches op m

theorem touchedBy_concat {ops : List Operation} {last op : Operation} {m : NodeId} :
    TouchedBy (ops ++ [last]) m op ↔
      TouchedBy ops m op ∨ op = last ∧ (initial.applyAll Backend.memory ops).Touches last m := by
  constructor
  · rintro ⟨pre, post, he, ht⟩
    rcases List.eq_nil_or_concat post with rfl | ⟨post, x, rfl⟩
    · obtain ⟨rfl, hop⟩ := List.append_inj' he rfl
      cases hop
      exact Or.inr ⟨rfl, ht⟩
    · rw [List.concat_eq_append, ← List.cons_append, ← List.append_assoc] at he
      obtain ⟨rfl, -⟩ := List.append_inj' he rfl
      exact Or.inl ⟨pre, post, rfl, ht⟩
  · rintro (⟨pre, post, rfl, ht⟩ | ⟨rfl, ht⟩)
    · exact ⟨pre, post ++ [last], by simp, ht⟩
    · exact ⟨ops, [], rfl, ht⟩

/-- The version vectors of a document after `ops`. -/
structure Accounted (ops : List Operation) (r : Rows) : Prop where
  normal : r.Normal
  last : ∀ m d, d ∈ r.lastDots m ↔ ∃ op, TouchedBy ops m op ∧ d ∈ op.merged
  deleted : ∀ m d, d ∈ r.deletedDots m ↔ ∃ op ∈ ops, op.kind.Deletes m ∧ d ∈ op.merged
  isSome : ∀ m, (r.row m).deletedAt.isSome ↔ ∃ op ∈ ops, op.kind.Deletes m

theorem row_initial (n : NodeId) : initial.rows.row n = .blank n := by
  by_cases h : n = NodeId.ROOT
  · subst h
    rfl
  · simp [initial, Rows.initial, Rows.row, h]

theorem accounted_initial : Accounted [] initial.rows where
  normal := ⟨fun n => by rw [row_initial]; exact VersionVector.Normal.new,
    fun n vv h => by rw [row_initial] at h; cases h⟩
  last m d := by
    rw [Rows.lastDots_blank (row_initial m)]
    simp [TouchedBy]
  deleted m d := by
    rw [Rows.deletedDots, row_initial]
    simp [Row.blank]
  isSome m := by
    rw [row_initial]
    simp [Row.blank]

/-- A document accounts for every operation that was applied to it. -/
theorem accounted_applyAll {ops : List Operation} (hs : ∀ op ∈ ops, ¬ op.kind.node.special)
    (hpar : ∀ ops n p, (initial.applyAll Backend.memory ops).rows.parent n = some p →
      ((initial.applyAll Backend.memory ops).rows p).isSome) :
    Accounted ops (initial.applyAll Backend.memory ops).rows := by
  induction ops using List.reverseRecOn with
  | nil => exact accounted_initial
  | append_singleton ops op ih =>
    replace ih := ih fun x hx => hs x (List.mem_append_left _ hx)
    have hsop := hs op (by simp)
    have happly : initial.applyAll Backend.memory (ops ++ [op]) =
        (initial.applyAll Backend.memory ops).apply Backend.memory op := by
      rw [applyAll, List.foldl_append]
      rfl
    rw [happly]
    by_cases hdel : ∃ n, op.kind.Deletes n
    · obtain ⟨n, hdel⟩ := hdel
      have hnode : op.kind.node = n := by rcases hdel with hk | hk <;> rw [hk] <;> rfl
      have hno : ∀ d : Doc, ∀ m, ¬ d.Touches op m := fun d m => by
        unfold Touches
        rcases hdel with hk | hk <;> rw [hk] <;> exact id
      have huniq : ∀ m, op.kind.Deletes m ↔ m = n := fun m => by
        constructor
        · intro hm
          rw [← hnode]
          rcases hm with hk | hk <;> rw [hk] <;> rfl
        · rintro rfl
          exact hdel
      obtain ⟨h1, h2, h3, h4⟩ := deleted_apply (d := initial.applyAll Backend.memory ops) hdel
        (hnode ▸ hsop)
      refine ⟨h1 ih.normal, fun m d => ?_, fun m d => ?_, fun m => ?_⟩
      · rw [h2, ih.last]
        simp only [touchedBy_concat, hno, and_false, or_false]
      · rw [h3 ih.normal, ih.deleted]
        simp [or_and_right, exists_or, huniq]
      · rw [h4, ih.isSome]
        simp [or_and_right, exists_or, huniq]
    · have hno : ∀ m, ¬ op.kind.Deletes m := fun n hn => hdel ⟨n, hn⟩
      obtain ⟨h1, h2, h3⟩ := touched_apply (b := Backend.memory) (hpar ops) hno
      refine ⟨h1 ih.normal, fun m d => ?_, fun m d => ?_, fun m => ?_⟩
      · rw [h2 ih.normal, ih.last]
        simp [touchedBy_concat, or_and_right, exists_or, and_assoc]
      · rw [Rows.deletedDots, h3]
        refine (ih.deleted m d).trans ?_
        simp [or_and_right, exists_or, hno]
      · rw [h3, ih.isSome]
        simp [or_and_right, exists_or, hno]

end Doc

end Treecrdt
