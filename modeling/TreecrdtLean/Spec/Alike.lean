import TreecrdtLean.Core.Serialize
import TreecrdtLean.Spec.Frame

/-!
# Documents of two backends

Two backends that leave `ROOT` alone or are never asked to hang it, and keep the order keys outside
of `TRASH`, make documents that differ only where no read looks (`Doc.Alike`): in the keys under
`TRASH`, and in how the version vectors list what they know. So do operations whose known states
were written down and read back (`Operation.Same`).

* `Doc.Alike.applyAll`: the documents of a log stay alike.
* `Rows.Alike.tombstoned`, `Rows.Alike.isChildren`: the reads of alike rows.
-/

namespace Treecrdt

open Forest

/-! ## Version vectors -/

namespace VersionVector

variable {vv vv' : VersionVector}

theorem Same.dots_eq (h : vv.Same vv') : vv.dots = vv'.dots := by
  ext ⟨r, c⟩
  rw [mem_dots, mem_dots, version, version, h r]

/-- Two vectors of the same dots. -/
structure Alike (vv vv' : VersionVector) : Prop where
  left : vv.Normal
  right : vv'.Normal
  dots : vv.dots = vv'.dots

theorem Alike.refl (h : vv.Normal) : vv.Alike vv := ⟨h, h, rfl⟩

theorem Alike.merge {delta delta' : VersionVector} (h : vv.Alike vv')
    (hdots : delta.dots = delta'.dots) : (vv.merge delta).Alike (vv'.merge delta') where
  left := h.left.merge _
  right := h.right.merge _
  dots := by rw [dots_merge h.left, dots_merge h.right, h.dots, hdots]

end VersionVector

section

variable {op op' : Operation}

/-- The known states list the same dots, where there are any. -/
theorem Operation.Same.known_cases (h : op.Same op') :
    (op.metadata.knownState = none ∧ op'.metadata.knownState = none) ∨
      ∃ known known', op.metadata.knownState = some known ∧
        op'.metadata.knownState = some known' ∧ known.dots = known'.dots := by
  have hknown := h.knownState
  revert hknown
  generalize op.metadata.knownState = x
  generalize op'.metadata.knownState = y
  rintro (hsame | _)
  · exact .inr ⟨_, _, rfl, rfl, hsame.dots_eq⟩
  · exact .inl ⟨rfl, rfl⟩

theorem Operation.Same.operationVersionVector_eq (h : op.Same op') :
    operationVersionVector op = operationVersionVector op' := by
  rw [operationVersionVector, operationVersionVector, h.id]

theorem touchVersion_alike {vv vv' : VersionVector} (hop : op.Same op') (h : vv.Alike vv') :
    (touchVersion op vv).Alike (touchVersion op' vv') := by
  have hown : (vv.merge (operationVersionVector op)).Alike
      (vv'.merge (operationVersionVector op')) :=
    h.merge (by rw [hop.operationVersionVector_eq])
  unfold touchVersion
  obtain ⟨hk, hk'⟩ | ⟨known, known', hk, hk', hdots⟩ := hop.known_cases
  · rw [hk, hk']
    exact hown
  · rw [hk, hk']
    exact hown.merge hdots

theorem deleteVersionVector_alike (hop : op.Same op') :
    (deleteVersionVector op).Alike (deleteVersionVector op') := by
  have hown := hop.operationVersionVector_eq
  unfold deleteVersionVector
  obtain ⟨hk, hk'⟩ | ⟨known, known', hk, hk', hdots⟩ := hop.known_cases
  · rw [hk, hk', hown]
    exact .refl (operationVersionVector_normal op')
  · rw [hk, hk', hown]
    exact (VersionVector.Alike.refl (operationVersionVector_normal op')).merge hdots

end

/-! ## Rows -/

/-- Two rows that differ in the key at most under `TRASH`, and in how their vectors are listed. -/
structure Row.Alike (row row' : Row) : Prop where
  parent : row.parent = row'.parent
  orderKey : row.parent ≠ some NodeId.TRASH → row.orderKey = row'.orderKey
  last : row.lastChange.Alike row'.lastChange
  deleted : Option.Rel VersionVector.Alike row.deletedAt row'.deletedAt

/-- A backend that leaves at most `ROOT` alone, and keeps keys and vectors. -/
structure Backend.Faithful (b : Backend) : Prop where
  pinned : ∀ n, b.pinned n = true → n = NodeId.ROOT
  keyUnder : ∀ p key, p ≠ NodeId.TRASH → b.keyUnder p key = some key
  firstDelete : ∀ {vv}, vv.Normal → (b.firstDelete vv).Alike vv

theorem Backend.memory_faithful : Backend.memory.Faithful where
  pinned n h := by cases h
  keyUnder _ _ _ := rfl
  firstDelete h := .refl h

namespace Rows

def Alike (r r' : Rows) : Prop := ∀ n, Option.Rel Row.Alike (r n) (r' n)

variable {r r' : Rows} {b b' : Backend} {op op' : Operation} {n p : NodeId} {key : Bytes}

theorem blank_alike (n : NodeId) : (Row.blank n).Alike (Row.blank n) where
  parent := rfl
  orderKey _ := rfl
  last := .refl .new
  deleted := .none

theorem initial_alike : Rows.initial.Alike Rows.initial := by
  intro n
  unfold Rows.initial
  rcases eq_or_ne n NodeId.ROOT with rfl | hne
  · rw [Function.update_self]
    exact .some (blank_alike _)
  · rw [Function.update_of_ne hne]
    exact .none

theorem Alike.isSome (h : r.Alike r') : (r n).isSome = (r' n).isSome := by
  have hn := h n
  revert hn
  generalize r n = x
  generalize r' n = y
  rintro (_ | _) <;> rfl

theorem Alike.row (h : r.Alike r') : (r.row n).Alike (r'.row n) := by
  have hn := h n
  unfold Rows.row
  revert hn
  generalize r n = x
  generalize r' n = y
  rintro (hrow | _)
  · exact hrow
  · exact blank_alike n

theorem Alike.parent (h : r.Alike r') : r.parent = r'.parent := by
  funext n
  have hn := h n
  unfold Rows.parent
  revert hn
  generalize r n = x
  generalize r' n = y
  rintro (hrow | _)
  · exact hrow.parent
  · rfl

theorem Alike.orderKey (h : r.Alike r') (hp : r.parent n ≠ some NodeId.TRASH) :
    r.orderKey n = r'.orderKey n := by
  have hn := h n
  unfold Rows.orderKey
  unfold Rows.parent at hp
  revert hn hp
  generalize r n = x
  generalize r' n = y
  rintro hp (hrow | _)
  · exact hrow.orderKey hp
  · rfl

theorem Alike.ensure (h : r.Alike r') : (r.ensure n).Alike (r'.ensure n) := by
  intro m
  unfold Rows.ensure
  rcases eq_or_ne m n with rfl | hne
  · rw [Function.update_self, Function.update_self]
    exact .some h.row
  · rw [Function.update_of_ne hne, Function.update_of_ne hne]
    exact h m

theorem Alike.modify (h : r.Alike r') {f f' : Row → Row}
    (hf : ∀ row row', row.Alike row' → (f row).Alike (f' row')) :
    (r.modify n f).Alike (r'.modify n f') := by
  intro m
  unfold Rows.modify
  rcases eq_or_ne m n with rfl | hne
  · rw [Function.update_self, Function.update_self]
    have hm := h m
    revert hm
    generalize r m = x
    generalize r' m = y
    rintro (hrow | _)
    · exact .some (hf _ _ hrow)
    · exact .none
  · rw [Function.update_of_ne hne, Function.update_of_ne hne]
    exact h m

theorem Alike.touch (h : r.Alike r') (hop : op.Same op') :
    (r.touch op n).Alike (r'.touch op' n) :=
  h.modify fun _ _ hrow => ⟨hrow.parent, hrow.orderKey, touchVersion_alike hop hrow.last,
    hrow.deleted⟩

theorem Alike.reparent (h : r.Alike r') (hb : b.Faithful) (hb' : b'.Faithful)
    (hn : n ≠ NodeId.ROOT) : (r.reparent b n p key).Alike (r'.reparent b' n p key) := by
  unfold Rows.reparent
  rw [if_neg fun hpin => hn (hb.pinned n hpin), if_neg fun hpin => hn (hb'.pinned n hpin)]
  refine h.modify fun row row' hrow => ⟨rfl, fun hp => ?_, hrow.last, hrow.deleted⟩
  have hp : p ≠ NodeId.TRASH := fun he => hp (by rw [he])
  rw [hb.keyUnder p key hp, hb'.keyUnder p key hp]

theorem Alike.mergeDeletedAt (h : r.Alike r') (hb : b.Faithful) (hb' : b'.Faithful)
    {delta delta' : VersionVector} (hdelta : delta.Alike delta') :
    (r.mergeDeletedAt b n delta).Alike (r'.mergeDeletedAt b' n delta') := by
  refine h.modify fun row row' hrow => ⟨hrow.parent, hrow.orderKey, hrow.last, ?_⟩
  have hdeleted := hrow.deleted
  revert hdeleted
  generalize row.deletedAt = x
  generalize row'.deletedAt = y
  rintro (hvv | _)
  · exact .some (hvv.merge hdelta.dots)
  · have hleft := hb.firstDelete hdelta.left
    have hright := hb'.firstDelete hdelta.right
    exact .some ⟨hleft.left, hright.left, by rw [hleft.dots, hdelta.dots, ← hright.dots]⟩

theorem Alike.cyclic (h : r.Alike r') : r.Cyclic n p ↔ r'.Cyclic n p := by
  rw [cyclic_congr h.parent]

theorem Alike.insert (h : r.Alike r') (hb : b.Faithful) (hb' : b'.Faithful) (hop : op.Same op')
    (hn : n ≠ NodeId.ROOT) : (r.insert b op p n key).Alike (r'.insert b' op' p n key) := by
  unfold Rows.insert
  by_cases hc : p = n ∨ r.Cyclic n p
  · rw [if_pos hc, if_pos (hc.imp_right h.cyclic.mp)]
    exact h
  · rw [if_neg hc, if_neg fun hc' => hc (hc'.imp_right h.cyclic.mpr)]
    exact ((h.ensure.ensure.reparent hb hb' hn).touch hop).touch hop

theorem Alike.touchMoved (h : r.Alike r') (hop : op.Same op') {o : Option NodeId} :
    (r.touchMoved op n p o).Alike (r'.touchMoved op' n p o) := by
  have hlast : ∀ {r r' : Rows}, r.Alike r' →
      Alike (if p ≠ NodeId.TRASH then r.touch op p else r)
        (if p ≠ NodeId.TRASH then r'.touch op' p else r') := by
    intro r r' h
    split
    · exact h.touch hop
    · exact h
  unfold Rows.touchMoved
  cases o with
  | none => exact hlast (h.touch hop)
  | some o =>
    by_cases ho : o ≠ NodeId.TRASH
    · simp only [if_pos ho]
      exact hlast ((h.touch hop).touch hop)
    · simp only [if_neg ho]
      exact hlast (h.touch hop)

theorem Alike.move (h : r.Alike r') (hb : b.Faithful) (hb' : b'.Faithful) (hop : op.Same op') :
    (r.move b op n p key).Alike (r'.move b' op' n p key) := by
  unfold Rows.move
  split
  · exact h
  rename_i hn
  have he := h.ensure (n := n) |>.ensure (n := p)
  simp only
  rw [he.parent]
  by_cases hc : p ≠ NodeId.TRASH ∧ (((r.ensure n).ensure p).Cyclic n p ∨ n = p)
  · rw [if_pos hc, if_pos ⟨hc.1, hc.2.imp_left he.cyclic.mp⟩]
    exact he
  · rw [if_neg hc, if_neg fun hc' => hc ⟨hc'.1, hc'.2.imp_left he.cyclic.mpr⟩]
    exact (he.reparent hb hb' hn).touchMoved hop

theorem Alike.delete (h : r.Alike r') (hb : b.Faithful) (hb' : b'.Faithful)
    (hop : op.Same op') : (r.delete b op n).Alike (r'.delete b' op' n) := by
  unfold Rows.delete
  split
  · exact h
  · exact h.ensure.mergeDeletedAt hb hb' (deleteVersionVector_alike hop)

end Rows

/-! ## Documents -/

namespace Doc

/-- Two documents with rows that are alike and the same payloads. -/
structure Matches (d d' : Doc) : Prop where
  rows : d.rows.Alike d'.rows
  payloads : d.payloads = d'.payloads

variable {d d' : Doc} {b b' : Backend} {op op' : Operation}

theorem initial_matches : initial.Matches initial := ⟨Rows.initial_alike, rfl⟩

theorem Matches.writePayload (h : d.Matches d') (hop : op.Same op') {n : NodeId}
    {payload : Option Bytes} :
    (d.writePayload op n payload).Matches (d'.writePayload op' n payload) := by
  have hnewer : newerThan op = newerThan op' := by
    funext writer
    unfold newerThan
    rw [hop.id, hop.lamport]
  unfold Doc.writePayload
  rw [h.payloads, hnewer, hop.id, hop.lamport]
  simp only
  split
  · exact ⟨h.rows.ensure.touch hop, rfl⟩
  · exact ⟨h.rows.ensure, rfl⟩

/-- An operation on a node other than `ROOT`. -/
theorem Matches.apply (h : d.Matches d') (hb : b.Faithful) (hb' : b'.Faithful) (hop : op.Same op')
    (hn : op.kind.node ≠ NodeId.ROOT) : (d.apply b op).Matches (d'.apply b' op') := by
  have he : (d.ensure op.kind.node).Matches (d'.ensure op.kind.node) := ⟨h.rows.ensure, h.payloads⟩
  unfold Doc.apply
  rw [← hop.kind]
  generalize d.ensure op.kind.node = e at he
  generalize d'.ensure op.kind.node = e' at he
  cases hk : op.kind with
  | insert p n key payload =>
    rw [hk] at hn
    have hi : Matches { e with rows := e.rows.insert b op p n key }
        { e' with rows := e'.rows.insert b' op' p n key } :=
      ⟨he.rows.insert hb hb' hop hn, he.payloads⟩
    simp only [applyKind]
    split
    · exact hi.writePayload hop
    · exact hi
  | move n p key => exact ⟨he.rows.move hb hb' hop, he.payloads⟩
  | delete n => exact ⟨he.rows.delete hb hb' hop, he.payloads⟩
  | tombstone n => exact ⟨he.rows.delete hb hb' hop, he.payloads⟩
  | payload n payload => exact he.writePayload hop

/-- Logs on nodes other than `ROOT`. -/
theorem Matches.applyAll {ops ops' : List Operation} (h : d.Matches d') (hb : b.Faithful)
    (hb' : b'.Faithful) (hops : List.Forall₂ Operation.Same ops ops')
    (hn : ∀ op ∈ ops, op.kind.node ≠ NodeId.ROOT) :
    (d.applyAll b ops).Matches (d'.applyAll b' ops') := by
  induction hops generalizing d d' with
  | nil => exact h
  | cons hop _ ih =>
    rw [List.forall_mem_cons] at hn
    exact ih (h.apply hb hb' hop hn.1) hn.2

end Doc

/-! ## What is read -/

namespace Rows

variable {r r' : Rows} {n : NodeId}

theorem Alike.normal (h : r.Alike r') : r.Normal where
  last n := (h.row (n := n)).last.left
  deleted n vv hvv := by
    have hdeleted := (h.row (n := n)).deleted
    rw [hvv] at hdeleted
    generalize (r'.row n).deletedAt = y at hdeleted
    cases hdeleted with
    | some hvv => exact hvv.left

theorem Alike.listed (h : r.Alike r') : r.listed = r'.listed := by
  funext n
  rw [Rows.listed, Rows.listed, h.parent]

theorem Alike.subtreeDots (h : r.Alike r') : r.subtreeDots n = r'.subtreeDots n := by
  unfold Rows.subtreeDots Rows.lastDots
  rw [h.listed]
  simp only [h.row.last.dots]

theorem Alike.tombstoned (h : r.Alike r') : r.Tombstoned n ↔ r'.Tombstoned n := by
  unfold Rows.Tombstoned
  rw [h.subtreeDots]
  have hdeleted := (h.row (n := n)).deleted
  revert hdeleted
  generalize (r.row n).deletedAt = x
  generalize (r'.row n).deletedAt = y
  rintro (hvv | _)
  · simp [hvv.dots]
  · simp

theorem Alike.isChildren (h : r.Alike r') {l : List NodeId} (hl : r.IsChildren n l) :
    r'.IsChildren n l where
  mem c := by rw [← h.parent]; exact hl.mem c
  sorted := by
    have hkey : ∀ c ∈ l, r.orderKey c = r'.orderKey c := fun c hc => by
      obtain ⟨hn, hp⟩ := (hl.mem c).mp hc
      exact h.orderKey fun he => hn (Option.some.inj (hp.symm.trans he))
    exact hl.sorted.imp_of_mem fun hc hd hlt => by rwa [← hkey _ hc, ← hkey _ hd]

end Rows

end Treecrdt
