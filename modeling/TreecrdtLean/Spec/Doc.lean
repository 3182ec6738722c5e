import TreecrdtLean.Lib.Forest
import TreecrdtLean.Core.Apply

/-!
# What the stores are for

A document is a row and a payload for every node, and an operation is a function on documents.
Nothing here walks or fails: the cycle check is the relation `Rows.Cyclic`. The stores of every
backend refine this model; they differ in the points that a `Backend` names.

* `Doc.apply`: one operation.
* `Rows.up`: parents as the cycle check sees them, `ROOT` and `TRASH` without one.
* `Doc.acyclic_apply`: the parents stay a forest, whatever the operations.
-/

namespace Treecrdt

open Forest

/-- Where the node stores differ. -/
structure Backend where
  /-- Attaching or detaching the node does nothing. -/
  pinned : NodeId → Bool
  /-- The order key kept for a child of a node. -/
  keyUnder : NodeId → Bytes → Option Bytes
  /-- The first vector merged into `deleted_at`. -/
  firstDelete : VersionVector → VersionVector

/-- The in-memory node store. -/
def Backend.memory : Backend :=
  { pinned := fun _ => false, keyUnder := fun _ key => some key, firstDelete := id }

/-- What a node store knows of a node. -/
structure Row where
  parent : Option NodeId
  orderKey : Option Bytes
  lastChange : VersionVector
  deletedAt : Option VersionVector
  deriving DecidableEq

/-- The row of a node that nothing has happened to. -/
def Row.blank (n : NodeId) : Row :=
  { parent := none, orderKey := if n = NodeId.ROOT then some [] else none
    lastChange := .new, deletedAt := none }

/-- The rows of a node store. -/
abbrev Rows := NodeId → Option Row

/-- What an operation merges into the `last_change` of a node it touches. -/
def touchVersion (op : Operation) (vv : VersionVector) : VersionVector :=
  match op.metadata.knownState with
  | some knownState => (vv.merge (operationVersionVector op)).merge knownState
  | none => vv.merge (operationVersionVector op)

namespace Rows

def initial : Rows := Function.update (fun _ => none) NodeId.ROOT (some (.blank NodeId.ROOT))

/-- The row of a node, blank when there is none. -/
def row (r : Rows) (n : NodeId) : Row := (r n).getD (.blank n)

def parent (r : Rows) (n : NodeId) : Option NodeId := (r n).bind (·.parent)

def orderKey (r : Rows) (n : NodeId) : Option Bytes := (r n).bind (·.orderKey)

def ensure (r : Rows) (n : NodeId) : Rows := Function.update r n (some (r.row n))

def modify (r : Rows) (n : NodeId) (f : Row → Row) : Rows := Function.update r n ((r n).map f)

def reparent (b : Backend) (r : Rows) (n p : NodeId) (key : Bytes) : Rows :=
  if b.pinned n then r
  else r.modify n fun row => { row with parent := some p, orderKey := b.keyUnder p key }

def touch (r : Rows) (op : Operation) (n : NodeId) : Rows :=
  r.modify n fun row => { row with lastChange := touchVersion op row.lastChange }

def mergeDeletedAt (b : Backend) (r : Rows) (n : NodeId) (delta : VersionVector) : Rows :=
  r.modify n fun row => { row with
    deletedAt := match row.deletedAt with
      | some existing => some (existing.merge delta)
      | none => some (b.firstDelete delta) }

/-- Parents as the cycle check sees them. -/
def up (r : Rows) (n : NodeId) : Option NodeId := if n.special then none else r.parent n

/-- Hanging `node` under `parent` would close a cycle. -/
def Cyclic (r : Rows) (node parent : NodeId) : Prop := ¬ parent.special ∧ Above r.up parent node

open Classical in
noncomputable def insert (b : Backend) (r : Rows) (op : Operation) (parent node : NodeId)
    (key : Bytes) : Rows :=
  if parent = node ∨ r.Cyclic node parent then r
  else ((((r.ensure parent).ensure node).reparent b node parent key).touch op node).touch op parent

/-- The touches of a move. -/
def touchMoved (r : Rows) (op : Operation) (node newParent : NodeId)
    (oldParent : Option NodeId) : Rows :=
  let r := r.touch op node
  let r := match oldParent with
    | some oldP => if oldP ≠ NodeId.TRASH then r.touch op oldP else r
    | none => r
  if newParent ≠ NodeId.TRASH then r.touch op newParent else r

open Classical in
noncomputable def move (b : Backend) (r : Rows) (op : Operation) (node newParent : NodeId)
    (key : Bytes) : Rows :=
  if node = NodeId.ROOT then r
  else
    let r' := (r.ensure node).ensure newParent
    if newParent ≠ NodeId.TRASH ∧ (r'.Cyclic node newParent ∨ node = newParent) then r'
    else (r'.reparent b node newParent key).touchMoved op node newParent (r'.parent node)

def delete (b : Backend) (r : Rows) (op : Operation) (node : NodeId) : Rows :=
  if node = NodeId.ROOT ∨ node = NodeId.TRASH then r
  else (r.ensure node).mergeDeletedAt b node (deleteVersionVector op)

end Rows

/-- What a payload store knows of a node. -/
structure PayloadRow where
  payload : Option Bytes := none
  lastWriter : Option (Lamport × OperationId) := none
  deriving DecidableEq

/-- The materialized state; `flags` are the cached tombstones, which no operation touches. -/
structure Doc where
  rows : Rows
  flags : NodeId → Bool
  payloads : NodeId → PayloadRow

namespace Doc

def initial : Doc := { rows := .initial, flags := fun _ => false, payloads := fun _ => {} }

def writePayload (d : Doc) (op : Operation) (node : NodeId) (payload : Option Bytes) : Doc :=
  let rows := d.rows.ensure node
  if newerThan op (d.payloads node).lastWriter then
    { d with
      rows := rows.touch op node
      payloads := Function.update d.payloads node
        { payload, lastWriter := some (op.metadata.lamport, op.metadata.id) } }
  else { d with rows }

/-- The effect of an operation on a document that has a row for its node. -/
noncomputable def applyKind (b : Backend) (d : Doc) (op : Operation) : OperationKind → Doc
  | .insert parent node key payload =>
    let d := { d with rows := d.rows.insert b op parent node key }
    if payload.isSome then d.writePayload op node payload else d
  | .move node newParent key => { d with rows := d.rows.move b op node newParent key }
  | .delete node => { d with rows := d.rows.delete b op node }
  | .tombstone node => { d with rows := d.rows.delete b op node }
  | .payload node payload => d.writePayload op node payload

def ensure (d : Doc) (n : NodeId) : Doc := { d with rows := d.rows.ensure n }

/-- The effect of one operation. -/
noncomputable def apply (b : Backend) (d : Doc) (op : Operation) : Doc :=
  (d.ensure op.kind.node).applyKind b op op.kind

theorem writePayload_flags (d : Doc) (f : NodeId → Bool) (op : Operation) (n : NodeId)
    (payload : Option Bytes) : writePayload { d with flags := f } op n payload =
      { writePayload d op n payload with flags := f } := by
  simp only [writePayload]
  split <;> rfl

/-- The cached tombstones take no part in an operation. -/
theorem apply_flags (b : Backend) (d : Doc) (f : NodeId → Bool) (op : Operation) :
    apply b { d with flags := f } op = { apply b d op with flags := f } := by
  obtain ⟨metadata, kind⟩ := op
  cases kind with
  | insert p n key payload =>
    cases payload with
    | none => rfl
    | some payload =>
      let op : Operation := ⟨metadata, .insert p n key (some payload)⟩
      exact writePayload_flags { d.ensure n with rows := (d.ensure n).rows.insert b op p n key } f op
        n (some payload)
  | move n p key => rfl
  | delete n => rfl
  | tombstone n => rfl
  | payload n payload =>
    exact writePayload_flags (d.ensure n) f ⟨metadata, .payload n payload⟩ n payload

theorem flags_apply (b : Backend) (d : Doc) (op : Operation) : (d.apply b op).flags = d.flags := by
  have h := congrArg Doc.flags (apply_flags b d d.flags op)
  exact h

/-- The effect of a list of operations. -/
noncomputable def applyAll (b : Backend) (d : Doc) (ops : List Operation) : Doc :=
  ops.foldl (apply b) d

theorem flags_applyAll (b : Backend) (d : Doc) (ops : List Operation) :
    (d.applyAll b ops).flags = d.flags := by
  induction ops generalizing d with
  | nil => rfl
  | cons op ops ih => exact (ih _).trans (flags_apply b d op)

end Doc

/-! ## Fields after an update -/

namespace Rows

variable {r : Rows} {n m : NodeId}

@[simp] theorem parent_ensure : (r.ensure n).parent = r.parent := by
  funext m
  by_cases h : m = n
  · subst h
    unfold parent ensure
    rw [Function.update_self, row]
    cases r m <;> rfl
  · simp [parent, ensure, Function.update_of_ne h]

theorem parent_modify {f : Row → Row} (hf : ∀ row, (f row).parent = row.parent) :
    (r.modify n f).parent = r.parent := by
  funext m
  by_cases h : m = n
  · subst h
    unfold parent modify
    rw [Function.update_self]
    cases r m <;> simp [hf]
  · simp [parent, modify, Function.update_of_ne h]

@[simp] theorem parent_touch {op : Operation} : (r.touch op n).parent = r.parent :=
  parent_modify fun _ => rfl

@[simp] theorem parent_mergeDeletedAt {b : Backend} {delta : VersionVector} :
    (r.mergeDeletedAt b n delta).parent = r.parent :=
  parent_modify fun _ => rfl

@[simp] theorem parent_touchMoved {op : Operation} {p : NodeId} {o : Option NodeId} :
    (r.touchMoved op n p o).parent = r.parent := by
  unfold touchMoved
  by_cases hp : p = NodeId.TRASH
  · rcases o with _ | o
    · simp [hp]
    · by_cases ho : o = NodeId.TRASH <;> simp [hp, ho]
  · rcases o with _ | o
    · simp [hp]
    · by_cases ho : o = NodeId.TRASH <;> simp [hp, ho]

theorem isSome_ensure : ((r.ensure n) m).isSome ↔ m = n ∨ (r m).isSome := by
  by_cases h : m = n
  · subst h
    simp [ensure]
  · simp [ensure, h]

theorem isSome_modify {f : Row → Row} : ((r.modify n f) m).isSome ↔ (r m).isSome := by
  by_cases h : m = n
  · subst h
    simp [modify]
  · simp [modify, Function.update_of_ne h]

theorem parent_reparent (b : Backend) (p : NodeId) (key : Bytes) (hn : (r n).isSome) :
    (r.reparent b n p key).parent =
      if b.pinned n then r.parent else Function.update r.parent n (some p) := by
  unfold reparent
  split
  · rfl
  · funext m
    obtain ⟨row, hrow⟩ := Option.isSome_iff_exists.mp hn
    by_cases h : m = n
    · subst h
      simp [parent, modify, hrow]
    · simp [parent, modify, Function.update_of_ne h]

/-! ## The parents stay a forest -/

theorem up_congr {r' : Rows} (h : r'.parent = r.parent) : r'.up = r.up := by
  funext m; simp [up, h]

theorem cyclic_congr {r' : Rows} (h : r'.parent = r.parent) {p : NodeId} :
    r'.Cyclic n p ↔ r.Cyclic n p := by
  unfold Cyclic
  rw [up_congr h]

theorem up_special (h : n.special) : r.up n = none := if_pos h

theorem up_update {p : Option NodeId} {r' : Rows}
    (h : r'.parent = Function.update r.parent n p) :
    r'.up = if n.special then r.up else Function.update r.up n p := by
  funext m
  by_cases hm : m = n
  · subst hm
    by_cases hs : m.special
    · simp [up, hs]
    · simp [up, hs, h]
  · by_cases hs : n.special <;> simp [up, hs, h, Function.update_of_ne hm]

/-- Hanging a node under one that its walk does not meet. -/
theorem acyclic_reparent (hr : Acyclic r.up) {b : Backend} {p : NodeId} {key : Bytes}
    (hn : (r n).isSome) (hp : p ≠ n ∨ n.special) (hc : ¬ r.Cyclic n p) :
    Acyclic (r.reparent b n p key).up := by
  have hpar := parent_reparent b p key hn
  by_cases hpin : b.pinned n
  · rw [if_pos hpin] at hpar
    rwa [up_congr hpar]
  rw [if_neg hpin] at hpar
  rw [up_update hpar]
  split
  · exact hr
  · rename_i hns
    refine hr.update fun q hq hqn => ?_
    cases hq
    by_cases hps : p.special
    · -- A walk from `ROOT` or `TRASH` ends at once.
      rcases above_iff.mp hqn with rfl | ⟨c, hc', -⟩
      · exact hns hps
      · rw [up_special hps] at hc'
        cases hc'
    · exact hc ⟨hps, hqn⟩

theorem acyclic_insert (hr : Acyclic r.up) (b : Backend) (op : Operation) (p : NodeId)
    (key : Bytes) : Acyclic (r.insert b op p n key).up := by
  unfold insert
  split
  · exact hr
  · rename_i h
    obtain ⟨hpn, hc⟩ := not_or.mp h
    rw [up_congr (parent_touch.trans parent_touch)]
    refine acyclic_reparent ?_ ?_ (Or.inl hpn) ?_
    · rwa [up_congr (parent_ensure.trans parent_ensure)]
    · exact isSome_ensure.mpr (Or.inl rfl)
    · rwa [cyclic_congr (parent_ensure.trans parent_ensure)]

theorem acyclic_move (hr : Acyclic r.up) (b : Backend) (op : Operation) (p : NodeId)
    (key : Bytes) : Acyclic (r.move b op n p key).up := by
  unfold move
  have hpar : ((r.ensure n).ensure p).parent = r.parent := parent_ensure.trans parent_ensure
  have hr' : Acyclic ((r.ensure n).ensure p).up := by rwa [up_congr hpar]
  split
  · exact hr
  simp only
  split
  · exact hr'
  · rename_i hroot h
    rw [up_congr parent_touchMoved]
    refine acyclic_reparent hr' (isSome_ensure.mpr (Or.inr (isSome_ensure.mpr (Or.inl rfl)))) ?_ ?_
    · by_cases hp : p = NodeId.TRASH
      · by_cases hn : n = NodeId.TRASH
        · exact Or.inr (Or.inl hn)
        · exact Or.inl (by rw [hp]; exact Ne.symm hn)
      · exact Or.inl fun he => h ⟨hp, Or.inr he.symm⟩
    · intro hc
      refine h ⟨fun hp => hc.1 (Or.inl hp), Or.inl hc⟩

end Rows

namespace Doc

theorem acyclic_initial : Acyclic initial.rows.up := by
  have : initial.rows.up = fun _ => none := by
    funext n
    by_cases h : n = NodeId.ROOT
    · rw [Rows.up_special (Or.inr h)]
    · simp [Rows.up, Rows.parent, initial, Rows.initial, Function.update_of_ne h]
  rw [this]
  exact acyclic_none

@[simp] theorem parent_writePayload {d : Doc} {op : Operation} {n : NodeId}
    {payload : Option Bytes} : (d.writePayload op n payload).rows.parent = d.rows.parent := by
  unfold writePayload
  split <;> simp

/-- An operation on any nodes keeps the parents a forest. -/
theorem acyclic_apply {d : Doc} (hd : Acyclic d.rows.up) (b : Backend) (op : Operation) :
    Acyclic (d.apply b op).rows.up := by
  have he : Acyclic (d.ensure op.kind.node).rows.up := by
    rwa [ensure, Rows.up_congr Rows.parent_ensure]
  unfold apply
  generalize d.ensure op.kind.node = d' at he
  have hdel : ∀ n, Acyclic (d'.rows.delete b op n).up := by
    intro n
    unfold Rows.delete
    split
    · exact he
    · rwa [Rows.up_congr (Rows.parent_mergeDeletedAt.trans Rows.parent_ensure)]
  cases op.kind with
  | insert p n key payload =>
    have hi := Rows.acyclic_insert (n := n) he b op p key
    simp only [applyKind]
    split
    · rwa [Rows.up_congr parent_writePayload]
    · exact hi
  | move n p key => exact Rows.acyclic_move he b op p key
  | delete n => exact hdel n
  | tombstone n => exact hdel n
  | payload n payload => rwa [applyKind, Rows.up_congr parent_writePayload]

theorem acyclic_applyAll {d : Doc} (hd : Acyclic d.rows.up) (b : Backend)
    (ops : List Operation) : Acyclic (d.applyAll b ops).rows.up := by
  induction ops generalizing d with
  | nil => exact hd
  | cons op ops ih => exact ih (acyclic_apply hd b op)

end Doc

/-! ## What an operation does to the parents -/

open Classical in
/-- The node that an operation hangs its node under, if it is accepted. -/
noncomputable def Rows.target (r : Rows) : OperationKind → Option NodeId
  | .insert parent node _ _ =>
    if parent = node ∨ r.Cyclic node parent then none else some parent
  | .move node newParent _ =>
    if node = NodeId.ROOT ∨ newParent ≠ NodeId.TRASH ∧ (r.Cyclic node newParent ∨ node = newParent)
    then none else some newParent
  | .delete _ => none
  | .tombstone _ => none
  | .payload _ _ => none

open Classical in
theorem Rows.target_congr {r r' : Rows} (h : r'.parent = r.parent) : r'.target = r.target := by
  funext kind
  cases kind <;> simp only [target, cyclic_congr h]

theorem Rows.target_insert_isSome {r : Rows} {n p : NodeId} {key : Bytes}
    {payload : Option Bytes} :
    (r.target (.insert p n key payload)).isSome ↔ p ≠ n ∧ ¬ r.Cyclic n p := by
  unfold target
  simp only
  split_ifs with h
  · simpa using fun hp => h.resolve_left hp
  · simpa [not_or] using h

theorem Rows.target_move_isSome {r : Rows} {n p : NodeId} {key : Bytes} :
    (r.target (.move n p key)).isSome ↔
      n ≠ NodeId.ROOT ∧ (p = NodeId.TRASH ∨ ¬ r.Cyclic n p ∧ n ≠ p) := by
  unfold target
  simp only
  split_ifs with h
  · simp only [Option.isSome_none, Bool.false_eq_true, false_iff]
    tauto
  · simp only [Option.isSome_some, true_iff]
    tauto

namespace Doc

/-- The parents after `n` was hung under `p`. -/
def hang (f : NodeId → Option NodeId) (n : NodeId) : Option NodeId → NodeId → Option NodeId
  | some p => Function.update f n (some p)
  | none => f

open Classical in
/-- Only the operated node changes its parent, and only if the operation is accepted. -/
theorem parent_apply {b : Backend} (hb : ∀ n, b.pinned n = false) (d : Doc) (op : Operation) :
    (d.apply b op).rows.parent =
      hang d.rows.parent op.kind.node (d.rows.target op.kind) := by
  have hpin : ∀ (r : Rows) n p key, (r n).isSome →
      (r.reparent b n p key).parent = Function.update r.parent n (some p) := by
    intro r n p key hn
    rw [Rows.parent_reparent b _ _ hn, hb, if_neg Bool.false_ne_true]
  unfold apply
  have he : (d.ensure op.kind.node).rows.parent = d.rows.parent := Rows.parent_ensure
  have hc : ∀ n p, (d.ensure op.kind.node).rows.Cyclic n p ↔ d.rows.Cyclic n p :=
    fun n p => Rows.cyclic_congr he
  generalize d.ensure op.kind.node = d' at he hc
  cases op.kind with
  | insert p n key payload =>
    have hi : (d'.rows.insert b op p n key).parent =
        hang d.rows.parent n (d.rows.target (.insert p n key payload)) := by
      unfold Rows.insert Rows.target
      simp only [hc]
      split
      · exact he
      · rw [Rows.parent_touch, Rows.parent_touch, hpin _ _ _ _ (Rows.isSome_ensure.mpr (Or.inl rfl)),
          Rows.parent_ensure, Rows.parent_ensure, he]
        rfl
    simp only [applyKind]
    split
    · rw [parent_writePayload]
      exact hi
    · exact hi
  | move n p key =>
    simp only [applyKind, Rows.move, Rows.target, OperationKind.node]
    have hcyc : ((d'.rows.ensure n).ensure p).Cyclic n p ↔ d.rows.Cyclic n p :=
      (Rows.cyclic_congr (Rows.parent_ensure.trans Rows.parent_ensure)).trans (hc n p)
    by_cases hroot : n = NodeId.ROOT
    · rw [if_pos hroot, if_pos (Or.inl hroot)]
      exact he
    rw [if_neg hroot]
    simp only [hcyc, hroot, false_or]
    split
    · rw [Rows.parent_ensure, Rows.parent_ensure]
      exact he
    · have hn : (((d'.rows.ensure n).ensure p) n).isSome :=
        Rows.isSome_ensure.mpr (Or.inr (Rows.isSome_ensure.mpr (Or.inl rfl)))
      rw [Rows.parent_touchMoved, hpin _ _ _ _ hn, Rows.parent_ensure, Rows.parent_ensure, he]
      rfl
  | delete n =>
    simp only [applyKind, Rows.delete, Rows.target, hang]
    split
    · exact he
    · rw [Rows.parent_mergeDeletedAt, Rows.parent_ensure, he]
  | tombstone n =>
    simp only [applyKind, Rows.delete, Rows.target, hang]
    split
    · exact he
    · rw [Rows.parent_mergeDeletedAt, Rows.parent_ensure, he]
  | payload n payload =>
    rw [applyKind, parent_writePayload, he]
    rfl

end Doc

end Treecrdt
