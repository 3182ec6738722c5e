import TreecrdtLean.Store.PgReads
import TreecrdtLean.Store.SqliteNodes
import TreecrdtLean.Tree.Derived
import TreecrdtLean.Tree.Relevant

/-!
# The node stores side by side

The same operations, folded from a reset store, leave the in-memory store and the two SQL stores
with the same tree, as far as reads can tell, as long as no step hangs `ROOT` below another node
(`KeepsRoot`): the in-memory store follows such an insert, the SQL stores leave `ROOT` alone. The
SQL stores never part from each other (`nodeStores_agree_iff`).

What reads cannot tell: how a version vector lists what it knows, and what key a node has in the
trash. An empty order key is read from SQLite as none.
-/

namespace Treecrdt

open Exec Forest

/-! ## Keys that are read in another way -/

/-- A row whose key is read through `read`, but for `ROOT`. -/
def Row.mapKey (read : Option Bytes → Option Bytes) (n : NodeId) (row : Row) : Row :=
  if n = NodeId.ROOT then row else { row with orderKey := read row.orderKey }

def Rows.mapKeys (read : Option Bytes → Option Bytes) (r : Rows) : Rows :=
  fun n => (r n).map (Row.mapKey read n)

/-- Two backends that leave `ROOT` alone and differ in how keys are read. -/
structure Backend.ReadsKeys (read : Option Bytes → Option Bytes) (b b' : Backend) : Prop where
  none : read none = none
  root : b.pinned NodeId.ROOT = true
  pinned : b'.pinned = b.pinned
  keyUnder : ∀ p key, b'.keyUnder p key = read (b.keyUnder p key)
  firstDelete : b'.firstDelete = b.firstDelete

section

variable {read : Option Bytes → Option Bytes} {b b' : Backend} {r : Rows} {op : Operation}
  {n p : NodeId} {key : Bytes} {row : Row}

theorem Row.mapKey_root : Row.mapKey read NodeId.ROOT row = row := if_pos rfl

theorem Row.mapKey_of_ne (hn : n ≠ NodeId.ROOT) :
    Row.mapKey read n row = { row with orderKey := read row.orderKey } := if_neg hn

theorem Row.parent_mapKey : (Row.mapKey read n row).parent = row.parent := by
  unfold Row.mapKey
  split <;> rfl

namespace Rows

theorem parent_mapKeys : (r.mapKeys read).parent = r.parent := by
  funext m
  unfold Rows.parent mapKeys
  cases r m with
  | none => rfl
  | some row => exact Row.parent_mapKey

theorem cyclic_mapKeys : (r.mapKeys read).Cyclic n p ↔ r.Cyclic n p :=
  cyclic_congr parent_mapKeys

theorem mapKeys_update {f : NodeId → Option Row} {value : Option Row} :
    mapKeys read (Function.update f n value) =
      Function.update (mapKeys read f) n (value.map (Row.mapKey read n)) := by
  funext m
  unfold mapKeys
  rcases eq_or_ne m n with rfl | hne
  · rw [Function.update_self, Function.update_self]
  · rw [Function.update_of_ne hne, Function.update_of_ne hne]

theorem row_mapKeys (hnone : read none = none) :
    (r.mapKeys read).row n = Row.mapKey read n (r.row n) := by
  unfold Rows.row mapKeys
  cases r n with
  | some row => rfl
  | none =>
    rcases eq_or_ne n NodeId.ROOT with rfl | hne
    · exact Row.mapKey_root.symm
    · simp [Row.mapKey_of_ne hne, Row.blank, hne, hnone]

theorem mapKeys_ensure (hnone : read none = none) :
    (r.ensure n).mapKeys read = (r.mapKeys read).ensure n := by
  rw [Rows.ensure, Rows.ensure, mapKeys_update, row_mapKeys hnone]
  rfl

theorem mapKeys_modify {g g' : Row → Row}
    (hg : ∀ row, Row.mapKey read n (g row) = g' (Row.mapKey read n row)) :
    (r.modify n g).mapKeys read = (r.mapKeys read).modify n g' := by
  rw [Rows.modify, Rows.modify, mapKeys_update, mapKeys]
  cases r n with
  | none => rfl
  | some row => rw [Option.map_some, Option.map_some, Option.map_some, Option.map_some, hg]

theorem mapKeys_touch : (r.touch op n).mapKeys read = (r.mapKeys read).touch op n :=
  mapKeys_modify fun _ => by
    unfold Row.mapKey
    split <;> rfl

theorem mapKeys_mergeDeletedAt (hb : Backend.ReadsKeys read b b') {delta : VersionVector} :
    (r.mergeDeletedAt b n delta).mapKeys read = (r.mapKeys read).mergeDeletedAt b' n delta := by
  unfold Rows.mergeDeletedAt
  rw [hb.firstDelete]
  refine mapKeys_modify fun row => ?_
  unfold Row.mapKey
  split <;> rfl

theorem mapKeys_reparent (hb : Backend.ReadsKeys read b b') :
    (r.reparent b n p key).mapKeys read = (r.mapKeys read).reparent b' n p key := by
  unfold Rows.reparent
  rw [hb.pinned]
  split
  · rfl
  · rename_i hpin
    have hn : n ≠ NodeId.ROOT := by
      rintro rfl
      exact hpin hb.root
    refine mapKeys_modify fun row => ?_
    rw [Row.mapKey_of_ne hn, Row.mapKey_of_ne hn, hb.keyUnder]

theorem mapKeys_insert (hb : Backend.ReadsKeys read b b') :
    (r.insert b op p n key).mapKeys read = (r.mapKeys read).insert b' op p n key := by
  unfold Rows.insert
  by_cases hc : p = n ∨ r.Cyclic n p
  · rw [if_pos hc, if_pos (hc.imp_right cyclic_mapKeys.mpr)]
  · rw [if_neg hc, if_neg fun hc' => hc (hc'.imp_right cyclic_mapKeys.mp), mapKeys_touch,
      mapKeys_touch, mapKeys_reparent hb, mapKeys_ensure hb.none, mapKeys_ensure hb.none]

theorem mapKeys_touchMoved {o : Option NodeId} :
    (r.touchMoved op n p o).mapKeys read = (r.mapKeys read).touchMoved op n p o := by
  have hlast : ∀ {r : Rows}, mapKeys read (if p ≠ NodeId.TRASH then r.touch op p else r) =
      if p ≠ NodeId.TRASH then (r.mapKeys read).touch op p else r.mapKeys read := by
    intro r
    split
    · exact mapKeys_touch
    · rfl
  unfold Rows.touchMoved
  cases o with
  | none => exact hlast.trans (by rw [mapKeys_touch])
  | some o =>
    by_cases ho : o ≠ NodeId.TRASH
    · simp only [if_pos ho]
      exact hlast.trans (by rw [mapKeys_touch, mapKeys_touch])
    · simp only [if_neg ho]
      exact hlast.trans (by rw [mapKeys_touch])

theorem mapKeys_move (hb : Backend.ReadsKeys read b b') :
    (r.move b op n p key).mapKeys read = (r.mapKeys read).move b' op n p key := by
  unfold Rows.move
  split
  · rfl
  dsimp only
  rw [← mapKeys_ensure hb.none, ← mapKeys_ensure hb.none, parent_mapKeys]
  by_cases hc : p ≠ NodeId.TRASH ∧ (((r.ensure n).ensure p).Cyclic n p ∨ n = p)
  · rw [if_pos hc, if_pos ⟨hc.1, hc.2.imp_left cyclic_mapKeys.mpr⟩]
  · rw [if_neg hc, if_neg fun hc' => hc ⟨hc'.1, hc'.2.imp_left cyclic_mapKeys.mp⟩,
      mapKeys_touchMoved, mapKeys_reparent hb]

theorem mapKeys_delete (hb : Backend.ReadsKeys read b b') :
    (r.delete b op n).mapKeys read = (r.mapKeys read).delete b' op n := by
  unfold Rows.delete
  split
  · rfl
  · rw [mapKeys_mergeDeletedAt hb, mapKeys_ensure hb.none]

theorem mapKeys_initial : Rows.initial.mapKeys read = Rows.initial := by
  rw [Rows.initial, mapKeys_update, Option.map_some, Row.mapKey_root]
  rfl

end Rows

namespace Doc

/-- A document whose keys are read through `read`. -/
def mapKeys (read : Option Bytes → Option Bytes) (d : Doc) : Doc :=
  { d with rows := d.rows.mapKeys read }

variable {d : Doc}

theorem mapKeys_initial : Doc.initial.mapKeys read = Doc.initial :=
  congrArg (fun rows => ({ Doc.initial with rows } : Doc)) Rows.mapKeys_initial

theorem mapKeys_writePayload (hnone : read none = none) {payload : Option Bytes} :
    (d.writePayload op n payload).mapKeys read =
      (d.mapKeys read).writePayload op n payload := by
  unfold writePayload mapKeys
  simp only [← Rows.mapKeys_ensure hnone]
  split
  · rw [← Rows.mapKeys_touch]
  · rfl

theorem mapKeys_apply (hb : Backend.ReadsKeys read b b') :
    (d.apply b op).mapKeys read = (d.mapKeys read).apply b' op := by
  have he : (d.mapKeys read).ensure op.kind.node = (d.ensure op.kind.node).mapKeys read := by
    simp only [ensure, mapKeys, Rows.mapKeys_ensure hb.none]
  rw [apply, apply, he]
  generalize d.ensure op.kind.node = e
  have hrows : ∀ rows : Rows, ({ e with rows } : Doc).mapKeys read =
      { e.mapKeys read with rows := rows.mapKeys read } := fun _ => rfl
  cases op.kind with
  | insert p n key payload =>
    simp only [applyKind]
    split
    · rw [mapKeys_writePayload hb.none, hrows, Rows.mapKeys_insert hb]
      rfl
    · rw [hrows, Rows.mapKeys_insert hb]
      rfl
  | move n p key =>
    rw [applyKind, applyKind, hrows, Rows.mapKeys_move hb]
    rfl
  | delete n =>
    rw [applyKind, applyKind, hrows, Rows.mapKeys_delete hb]
    rfl
  | tombstone n =>
    rw [applyKind, applyKind, hrows, Rows.mapKeys_delete hb]
    rfl
  | payload n payload => exact mapKeys_writePayload hb.none

/-- The documents of a log differ in their keys alone. -/
theorem mapKeys_applyAll (hb : Backend.ReadsKeys read b b') (ops : List Operation) :
    (d.applyAll b ops).mapKeys read = (d.mapKeys read).applyAll b' ops := by
  induction ops generalizing d with
  | nil => rfl
  | cons op ops ih => exact (ih (d := d.apply b op)).trans (by rw [mapKeys_apply hb]; rfl)

end Doc

theorem sqlite_readsKeys : Backend.ReadsKeys SqliteExt.blob Postgres.PgNodeStore.backend
    SqliteExt.SqliteNodeStore.backend where
  none := rfl
  root := Postgres.PgNodeStore.pinned_iff.mpr rfl
  pinned := rfl
  keyUnder p key := by
    rcases eq_or_ne p NodeId.TRASH with rfl | hne
    · rw [Postgres.PgNodeStore.keyUnder_trash, SqliteExt.SqliteNodeStore.keyUnder_trash]
      rfl
    · rw [Postgres.PgNodeStore.keyUnder_of_ne hne, SqliteExt.SqliteNodeStore.keyUnder_of_ne hne]
  firstDelete := rfl

end

/-! ## Where `ROOT` stays at the top -/

/-- No step hangs `ROOT` below a node. -/
def KeepsRoot (ops : List Operation) : Prop :=
  ¬ AtStep (fun before op => op.kind.node = NodeId.ROOT ∧
    (storesAfter before).1.hangsSpecial op) ops

section

variable {b b' : Backend} {d d' : Doc} {op op' : Operation} {ops : List Operation}

theorem hangsRoot_iff : (op.kind.node = NodeId.ROOT ∧ (storesAfter ops).1.hangsSpecial op) ↔
    op.kind.node = NodeId.ROOT ∧
      ((Doc.initial.applyAll Backend.memory ops).rows.target op.kind).isSome := by
  rw [MemoryNodeStore.hangsSpecial_iff (storesAfter_models ops).1
    (Doc.acyclic_applyAll Doc.acyclic_initial _ ops)]
  exact ⟨fun h => ⟨h.1, h.2.2⟩, fun h => ⟨h.1, Or.inr h.1, h.2⟩⟩

theorem keepsRoot_concat : KeepsRoot (ops ++ [op]) ↔ KeepsRoot ops ∧
    (op.kind.node = NodeId.ROOT →
      (Doc.initial.applyAll Backend.memory ops).rows.target op.kind = none) := by
  rw [KeepsRoot, atStep_concat, not_or, hangsRoot_iff, not_and, Option.not_isSome_iff_eq_none]
  rfl

/-- In memory `ROOT` has a parent as soon as a step hangs it. -/
theorem parent_root_applyAll :
    (Doc.initial.applyAll Backend.memory ops).rows.parent NodeId.ROOT = none ↔
      KeepsRoot ops := by
  induction ops using List.reverseRecOn with
  | nil => exact iff_of_true rfl not_atStep_nil
  | append_singleton ops op ih =>
    rw [keepsRoot_concat, ← ih, TreeCrdt.applyAll_concat, Doc.parent_apply fun _ => rfl]
    cases (Doc.initial.applyAll Backend.memory ops).rows.target op.kind with
    | none => simp [Doc.hang]
    | some p =>
      by_cases hn : op.kind.node = NodeId.ROOT
      · simp [Doc.hang, hn]
      · simp [Doc.hang, hn, Function.update_of_ne (Ne.symm hn)]

/-- An operation that does not hang `ROOT`. -/
theorem Doc.Matches.apply_of_kept (h : d.Matches d') (hb : b.Faithful) (hb' : b'.Faithful)
    (hop : op.Same op')
    (hroot : op.kind.node = NodeId.ROOT → d.rows.target op.kind = none) :
    (d.apply b op).Matches (d'.apply b' op') := by
  by_cases hn : op.kind.node = NodeId.ROOT
  swap
  · exact h.apply hb hb' hop hn
  have he : (d.ensure op.kind.node).Matches (d'.ensure op.kind.node) :=
    ⟨h.rows.ensure, h.payloads⟩
  have hparent : (d.ensure op.kind.node).rows.parent = d.rows.parent := Rows.parent_ensure
  unfold Doc.apply
  rw [← hop.kind]
  generalize d.ensure op.kind.node = e at he hparent
  generalize d'.ensure op.kind.node = e' at he
  have htarget := hroot hn
  cases hk : op.kind with
  | insert p n key payload =>
    rw [hk] at htarget
    have hrefused : p = n ∨ e.rows.Cyclic n p := by
      by_contra hc
      rw [not_or, Rows.cyclic_congr hparent] at hc
      have hsome := (@Rows.target_insert_isSome _ n p key payload).mpr hc
      rw [htarget] at hsome
      cases hsome
    have hi : Doc.Matches { e with rows := e.rows.insert b op p n key }
        { e' with rows := e'.rows.insert b' op' p n key } := by
      rw [Rows.insert, if_pos hrefused, Rows.insert, if_pos (hrefused.imp_right he.rows.cyclic.mp)]
      exact he
    simp only [applyKind]
    split
    · exact hi.writePayload hop
    · exact hi
  | move n p key => exact ⟨he.rows.move hb hb' hop, he.payloads⟩
  | delete n => exact ⟨he.rows.delete hb hb' hop, he.payloads⟩
  | tombstone n => exact ⟨he.rows.delete hb hb' hop, he.payloads⟩
  | payload n payload => exact he.writePayload hop

/-- The documents of a log that leaves `ROOT` at the top. -/
theorem matches_of_keepsRoot (hb : b.Faithful) (h : KeepsRoot ops) :
    (Doc.initial.applyAll Backend.memory ops).Matches (Doc.initial.applyAll b ops) := by
  induction ops using List.reverseRecOn with
  | nil => exact Doc.initial_matches
  | append_singleton ops op ih =>
    obtain ⟨hbefore, hroot⟩ := keepsRoot_concat.mp h
    have hlast : Doc.initial.applyAll b (ops ++ [op]) = (Doc.initial.applyAll b ops).apply b op :=
      List.foldl_concat _ _ _ _
    rw [TreeCrdt.applyAll_concat, hlast]
    exact (ih hbefore).apply_of_kept Backend.memory_faithful hb (.refl op) hroot

end

/-! ## The tombstones of the SQL stores -/

/-- A key takes no part in a tombstone. -/
theorem Rows.mapKeys_sameTombstones {read : Option Bytes → Option Bytes} (hnone : read none = none)
    (r : Rows) : (r.mapKeys read).SameTombstones r := by
  have hlast : ∀ n, ((r.mapKeys read).row n).lastChange = (r.row n).lastChange := fun n => by
    rw [Rows.row_mapKeys hnone, Row.mapKey]
    split <;> rfl
  have hdeleted : ∀ n, ((r.mapKeys read).row n).deletedAt = (r.row n).deletedAt := fun n => by
    rw [Rows.row_mapKeys hnone, Row.mapKey]
    split <;> rfl
  have hlisted : (r.mapKeys read).listed = r.listed := by
    funext n
    rw [Rows.listed, Rows.listed, Rows.parent_mapKeys]
  refine ⟨Rows.parent_mapKeys, fun n => by rw [hdeleted], fun n => ?_⟩
  unfold Rows.Tombstoned Rows.subtreeDots Rows.lastDots
  simp only [hdeleted, hlast, hlisted]

theorem postgres_rooted : Postgres.PgNodeStore.backend.Rooted where
  root := Postgres.PgNodeStore.pinned_iff.mpr rfl
  firstDelete {vv} _ := VersionVector.Normal.new.merge vv
  tombstones ops hplain := by
    have hsame : List.Forall₂ Operation.Same ops ops := List.forall₂_same.mpr fun op _ => .refl op
    exact (Doc.initial_matches.applyAll Postgres.PgNodeStore.backend_faithful
      Backend.memory_faithful hsame fun op hop hroot => hplain op hop (.inr hroot)).rows.sameTombstones

theorem sqlite_rooted : SqliteExt.SqliteNodeStore.backend.Rooted where
  root := SqliteExt.SqliteNodeStore.pinned_iff.mpr rfl
  firstDelete {vv} _ := VersionVector.Normal.new.merge vv
  tombstones ops hplain := by
    have hkeys := Doc.mapKeys_applyAll (d := Doc.initial) sqlite_readsKeys ops
    rw [Doc.mapKeys_initial] at hkeys
    rw [← hkeys]
    exact (Rows.mapKeys_sameTombstones rfl _).trans (postgres_rooted.tombstones ops hplain)

/-! ## What reads return -/

/-- What the reads of a node store return for a node. -/
structure NodeReads where
  parent : Option NodeId
  orderKey : Option Bytes
  children : List NodeId
  lastChange : VersionVector
  deletedAt : Option VersionVector

section

variable {N N' P : Type} [NodeStore N] [NodeStore N'] [PayloadStore P]

def readNode (node : NodeId) : Exec Error N (Option NodeReads) := do
  if !(← NodeStore.nodeExists node) then
    return none
  let parent ← NodeStore.parent node
  let orderKey ← NodeStore.orderKey node
  let children ← NodeStore.children node
  let lastChange ← NodeStore.lastChange node
  let deletedAt ← NodeStore.deletedAt node
  return some { parent, orderKey, children, lastChange, deletedAt }

/-- The reads of a node from two stores, whose second reads keys through `read`. -/
structure SameNode (read : Option Bytes → Option Bytes) (node : NodeId) (x y : NodeReads) :
    Prop where
  parent : x.parent = y.parent
  orderKey : node ≠ NodeId.ROOT → x.parent ≠ some NodeId.TRASH → read x.orderKey = y.orderKey
  children : x.children = y.children
  lastChange : x.lastChange.dots = y.lastChange.dots
  deletedAt : x.deletedAt.map (·.dots) = y.deletedAt.map (·.dots)

/-- Two stores have the same nodes, and the same is read of each. -/
def StoresAgree (read : Option Bytes → Option Bytes) (s : N) (s' : N') : Prop :=
  ∀ node, ∃ x y t t', readNode node s = some (.ok x, t) ∧ readNode node s' = some (.ok y, t') ∧
    Option.Rel (SameNode read node) x y

/-- The operations, from a store that is reset first. -/
def foldFromReset (ops : List Operation) : Exec Error (N × P) Unit := do
  onNodeStore NodeStore.reset
  onPayloadStore PayloadStore.reset
  forwardAll ops

end

/-- Two models of which the same is read. -/
structure Rows.ReadAlike (read : Option Bytes → Option Bytes) (r r' : Rows) : Prop where
  isSome : ∀ n, (r n).isSome = (r' n).isSome
  parent : r.parent = r'.parent
  orderKey : ∀ n, n ≠ NodeId.ROOT → r.parent n ≠ some NodeId.TRASH →
    read (r.orderKey n) = r'.orderKey n
  children : ∀ n l, r.IsChildren n l → r'.IsChildren n l
  lastChange : ∀ n, (r.row n).lastChange.dots = (r'.row n).lastChange.dots
  deletedAt : ∀ n, (r.row n).deletedAt.map (·.dots) = (r'.row n).deletedAt.map (·.dots)

namespace Rows

variable {read : Option Bytes → Option Bytes} {r r' r'' : Rows}

theorem Alike.readAlike (h : r.Alike r') : r.ReadAlike id r' where
  isSome n := h.isSome
  parent := h.parent
  orderKey n _ hp := h.orderKey hp
  children n l hl := h.isChildren hl
  lastChange n := h.row.last.dots
  deletedAt n := by
    have hdeleted := (h.row (n := n)).deleted
    revert hdeleted
    generalize (r.row n).deletedAt = x
    generalize (r'.row n).deletedAt = y
    rintro (hvv | _)
    · rw [Option.map_some, Option.map_some, hvv.dots]
    · rfl

theorem orderKey_mapKeys (hnone : read none = none) {n : NodeId} (hn : n ≠ NodeId.ROOT) :
    (r.mapKeys read).orderKey n = read (r.orderKey n) := by
  unfold Rows.orderKey mapKeys
  cases r n with
  | none => exact hnone.symm
  | some row => simp [Row.mapKey_of_ne hn]

/-- Keys that are read in another way sort as before, where no key reads as the empty one. -/
theorem mapKeys_readAlike (hnone : read none = none)
    (hread : ∀ key, (read key).getD [] = key.getD []) : r.ReadAlike read (r.mapKeys read) where
  isSome n := by rw [mapKeys, Option.isSome_map]
  parent := parent_mapKeys.symm
  orderKey n hn _ := (orderKey_mapKeys hnone hn).symm
  children n l hl := by
    have hkey : ∀ c, ((r.mapKeys read).orderKey c).getD [] = (r.orderKey c).getD [] := by
      intro c
      rcases eq_or_ne c NodeId.ROOT with rfl | hne
      · unfold Rows.orderKey mapKeys
        cases r NodeId.ROOT <;> simp [Row.mapKey_root]
      · rw [orderKey_mapKeys hnone hne, hread]
    exact ⟨fun c => by rw [parent_mapKeys, hl.mem], by simpa only [hkey] using hl.sorted⟩
  lastChange n := by
    rw [row_mapKeys hnone, Row.mapKey]
    split <;> rfl
  deletedAt n := by
    rw [row_mapKeys hnone, Row.mapKey]
    split <;> rfl

theorem readAlike_self : r.ReadAlike id r :=
  ⟨fun _ => rfl, rfl, fun _ _ _ => rfl, fun _ _ hl => hl, fun _ => rfl, fun _ => rfl⟩

theorem ReadAlike.trans (h : r.ReadAlike id r') (h' : r'.ReadAlike read r'') :
    r.ReadAlike read r'' where
  isSome n := (h.isSome n).trans (h'.isSome n)
  parent := h.parent.trans h'.parent
  orderKey n hn hp := by
    rw [← h'.orderKey n hn (h.parent ▸ hp), ← h.orderKey n hn hp]
    rfl
  children n l hl := h'.children n l (h.children n l hl)
  lastChange n := (h.lastChange n).trans (h'.lastChange n)
  deletedAt n := (h.deletedAt n).trans (h'.deletedAt n)

/-- What the reads of a node may return. -/
def Reads (r : Rows) (n : NodeId) : Option NodeReads → Prop
  | none => r n = none
  | some x => (r n).isSome ∧ x.parent = r.parent n ∧
      (n ≠ NodeId.ROOT → x.orderKey = r.orderKey n) ∧ r.IsChildren n x.children ∧
      x.lastChange = (r.row n).lastChange ∧ x.deletedAt = (r.row n).deletedAt

theorem ReadAlike.sameNode (h : r.ReadAlike read r') {n : NodeId} {x y : Option NodeReads}
    (hx : r.Reads n x) (hy : r'.Reads n y) : Option.Rel (SameNode read n) x y := by
  have hsome := h.isSome n
  cases x with
  | none =>
    cases y with
    | none => exact .none
    | some y =>
      rw [show r n = none from hx, hy.1] at hsome
      cases hsome
  | some x =>
    cases y with
    | none =>
      rw [hx.1, show r' n = none from hy] at hsome
      cases hsome
    | some y =>
      obtain ⟨-, hparent, hkey, hchildren, hlast, hdeleted⟩ := hx
      obtain ⟨-, hparent', hkey', hchildren', hlast', hdeleted'⟩ := hy
      refine .some ⟨?_, fun hn hp => ?_, ?_, ?_, ?_⟩
      · rw [hparent, hparent', h.parent]
      · rw [hkey hn, hkey' hn, h.orderKey n hn (hparent ▸ hp)]
      · exact (h.children n _ hchildren).unique hchildren'
      · rw [hlast, hlast', h.lastChange]
      · rw [hdeleted, hdeleted', h.deletedAt]

end Rows

section

variable {N N' P : Type} [NodeStore N] [LawfulNodeStore N] [NodeStore N'] [LawfulNodeStore N']
  [PayloadStore P] [LawfulPayloadStore P]

/-- The store knows exactly the nodes that have a row. -/
def KnowsRows (N : Type) [NodeStore N] [LawfulNodeStore N] : Prop :=
  ∀ r f n, Runs LawfulNodeStore.Models (r, f) (NodeStore.nodeExists n : Exec Error N Bool)
    (· = (r n).isSome) (r, f)

theorem readNode_runs (hknows : KnowsRows N) (r : Rows) (f : NodeId → Bool) (n : NodeId) :
    Runs LawfulNodeStore.Models (r, f) (readNode n : Exec Error N _) (r.Reads n) (r, f) := by
  unfold readNode
  refine (hknows r f n).bind fun known hknown => ?_
  cases known with
  | false =>
    exact Runs.pure (Option.not_isSome_iff_eq_none.mp (by rw [← hknown]; exact Bool.false_ne_true))
  | true =>
    have hn := hknown.symm
    refine (LawfulNodeStore.parent r f n).bind fun _ hparent => ?_
    refine (LawfulNodeStore.orderKey r f n).bind fun _ hkey => ?_
    refine (LawfulNodeStore.children r f n hn).bind fun _ hchildren => ?_
    refine (LawfulNodeStore.lastChange r f n hn).bind fun _ hlast => ?_
    refine (LawfulNodeStore.deletedAt r f n hn).bind fun _ hdeleted => ?_
    exact Runs.pure ⟨hn, hparent, hkey, hchildren, hlast, hdeleted⟩

/-- Stores of models of which the same is read. -/
theorem storesAgree_of_readAlike (hN : KnowsRows N) (hN' : KnowsRows N')
    {read : Option Bytes → Option Bytes} {s : N} {s' : N'} {r r' : Rows} {f f' : NodeId → Bool}
    (hs : LawfulNodeStore.Models s (r, f)) (hs' : LawfulNodeStore.Models s' (r', f'))
    (h : r.ReadAlike read r') : StoresAgree read s s' := by
  intro n
  obtain ⟨x, t, hx, hreads, -⟩ := readNode_runs hN r f n s hs
  obtain ⟨y, t', hy, hreads', -⟩ := readNode_runs hN' r' f' n s' hs'
  exact ⟨x, y, t, t', hx, hy, h.sameNode hreads hreads'⟩

/-- Stores that agree have the same parents. -/
theorem parent_of_storesAgree (hN : KnowsRows N) (hN' : KnowsRows N')
    {read : Option Bytes → Option Bytes} {s : N} {s' : N'} {r r' : Rows} {f f' : NodeId → Bool}
    (hs : LawfulNodeStore.Models s (r, f)) (hs' : LawfulNodeStore.Models s' (r', f'))
    (h : StoresAgree read s s') (n : NodeId) : r.parent n = r'.parent n := by
  obtain ⟨x, y, t, t', hx, hy, hsame⟩ := h n
  obtain ⟨x', t₁, hx', hreads, -⟩ := readNode_runs hN r f n s hs
  obtain ⟨y', t₁', hy', hreads', -⟩ := readNode_runs hN' r' f' n s' hs'
  cases hx.symm.trans hx'
  cases hy.symm.trans hy'
  cases hsame with
  | some hsame => exact hreads.2.1.symm.trans (hsame.parent.trans hreads'.2.1)
  | none =>
    have hnone : r n = none := hreads
    have hnone' : r' n = none := hreads'
    rw [Rows.parent, Rows.parent, hnone, hnone']

/-- The fold from a store whose reset returns makes the document of the operations. -/
theorem foldFromReset_runs (ops : List Operation) {s : N × P} {n : N} {p : P}
    (hn : NodeStore.reset s.1 = some (.ok (), n))
    (hmodels : LawfulNodeStore.Models n (Rows.initial, fun _ => false))
    (hp : PayloadStore.reset s.2 = some (.ok (), p))
    (hmodels' : LawfulPayloadStore.Models p fun _ => {}) :
    ∃ s', foldFromReset ops s = some (.ok (), s') ∧
      ModelsDoc s' (Doc.initial.applyAll (LawfulNodeStore.backend N) ops) := by
  have hstart : ModelsDoc (n, p) Doc.initial := ⟨hmodels, hmodels'⟩
  obtain ⟨_, s', hrun, -, hs'⟩ := forwardAll_runs Doc.acyclic_initial ops _ hstart
  refine ⟨s', ?_, hs'⟩
  have hfirst : onNodeStore NodeStore.reset s = some (.ok (), (n, s.2)) := zoom_of_ok hn
  have hsecond : onPayloadStore PayloadStore.reset (n, s.2) = some (.ok (), (n, p)) :=
    zoom_of_ok hp
  rw [foldFromReset, bind_of_ok hfirst, bind_of_ok hsecond, hrun]

end

/-! ## The three stores -/

theorem memory_knowsRows : KnowsRows MemoryNodeStore := fun r f n => Runs.gets fun s hs => by
  obtain ⟨rfl, -, -⟩ := hs
  simp [MemoryNodeStore.view]

theorem postgres_knowsRows : KnowsRows Postgres.PgNodeStore := fun r f n => by
  refine (Postgres.PgNodeStore.nodeRow_runs r f n).bind fun row hrow => Runs.pure ?_
  rw [← hrow.1, Option.isSome_map]

theorem sqlite_knowsRows : KnowsRows SqliteExt.SqliteNodeStore := fun r f n => by
  refine (SqliteExt.SqliteNodeStore.selectNode_runs r f n).bind fun row hrow => Runs.pure ?_
  rw [← hrow.1, Option.isSome_map]

end Treecrdt
