import TreecrdtLean.Store.PgReads

/-!
# Where the reads in Postgres agree with the core

Over the tables of a document, `tree_children`, its pages, `tree_payload` and `tree_exists` are what
the core says. `tree_parent` is the stored parent, also of a node that is tombstoned or in the
trash, and `tree_node_count` counts a row of `TRASH`. So all reads agree exactly if nothing is
tombstoned and nothing was put under `TRASH` (`agrees_iff`).
-/

namespace Treecrdt

namespace Postgres

open Exec Forest

variable {Ref : Type} [DecidableEq Ref] {json : Json} {opRef : OperationId → Ref}
variable {d : Document json opRef} {doc : Doc} {n p : NodeId}

/-! ## The queries -/

theorem Document.Holds.view (h : d.Holds doc) (n : NodeId) :
    doc.rows n = (d.nodes.lookup n).map (PgNodeStore.viewRow n) := by
  rw [← show PgNodeStore.view { table := d.nodes } = doc.rows from h.nodes.1]
  rfl

theorem Document.Holds.tombstoned (h : d.Holds doc) (hexact : doc.rows.Exact doc.flags)
    {row : NodeRow} (hrow : d.nodes.lookup n = some row) :
    row.tombstone = true ↔ doc.rows.Tombstoned n := by
  rw [← hexact n, ← show PgNodeStore.flags { table := d.nodes } = doc.flags from h.nodes.2.1,
    PgNodeStore.flags_eq (s := { table := d.nodes }) hrow]

theorem Document.Holds.parent (h : d.Holds doc) (n : NodeId) :
    (d.nodes.lookup n).bind (·.parent) = doc.rows.parent n := by
  rw [Rows.parent, h.view]
  cases d.nodes.lookup n <;> rfl

open Classical in
/-- The rows that `tree_children` selects are the children that are not tombstoned. -/
theorem Document.Holds.select_shown (h : d.Holds doc) (hexact : doc.rows.Exact doc.flags)
    (hp : p ≠ NodeId.TRASH) {l : List NodeId} (hl : doc.rows.IsChildren p l) :
    PgNodeStore.select d.nodes (isShownUnder p) = l.filter fun c => ¬ doc.rows.Tombstoned c := by
  have hunder : ∀ row, isShownUnder p row = true ↔ row.parent = some p ∧ row.tombstone = false := by
    intro row
    simp [isShownUnder]
  refine eq_of_sorted (h.nodes.select_sorted hp fun row hrow => ((hunder row).mp hrow).1)
    (hl.sorted.filter _) fun c => ?_
  rw [PgNodeStore.mem_select, List.mem_filter, hl.mem, and_iff_right hp, ← h.parent,
    decide_eq_true_eq]
  constructor
  · rintro ⟨row, hrow, hshown⟩
    obtain ⟨hparent, hlive⟩ := (hunder row).mp hshown
    refine ⟨by rw [hrow, Option.bind_some, hparent], fun hdead => ?_⟩
    rw [(h.tombstoned hexact hrow).mpr hdead] at hlive
    cases hlive
  · rintro ⟨hparent, hlive⟩
    obtain ⟨row, hrow, hparent⟩ := Option.bind_eq_some_iff.mp hparent
    refine ⟨row, hrow, (hunder row).mpr ⟨hparent, ?_⟩⟩
    exact Bool.eq_false_iff.mpr fun hdead => hlive ((h.tombstoned hexact hrow).mp hdead)

/-- `tree_node_count` counts every node that is not tombstoned, but for `ROOT`. -/
theorem Document.Holds.mem_counted (h : d.Holds doc) (hexact : doc.rows.Exact doc.flags) :
    n ∈ (d.nodes.entries.filter fun e => !e.2.tombstone && e.1 ≠ NodeId.ROOT).map Sigma.fst ↔
      (doc.rows n).isSome ∧ ¬ doc.rows.Tombstoned n ∧ n ≠ NodeId.ROOT := by
  rw [h.view, Option.isSome_map, List.mem_map]
  constructor
  · rintro ⟨⟨m, row⟩, he, rfl⟩
    rw [List.mem_filter, ← AList.mem_lookup_iff] at he
    obtain ⟨hrow, hlive, hroot⟩ : d.nodes.lookup m = some row ∧ row.tombstone = false ∧
        m ≠ NodeId.ROOT := by simpa using he
    refine ⟨by rw [hrow]; rfl, fun hdead => ?_, hroot⟩
    rw [(h.tombstoned hexact hrow).mpr hdead] at hlive
    cases hlive
  · rintro ⟨hsome, hlive, hroot⟩
    obtain ⟨row, hrow⟩ := Option.isSome_iff_exists.mp hsome
    refine ⟨⟨n, row⟩, ?_, rfl⟩
    rw [List.mem_filter, ← AList.mem_lookup_iff]
    refine ⟨hrow, ?_⟩
    have hflag : row.tombstone = false :=
      Bool.eq_false_iff.mpr fun hdead => hlive ((h.tombstoned hexact hrow).mp hdead)
    simp [hflag, hroot]

/-! ## The pages -/

/-- The place of a cursor in the order of the rows. -/
def cursorKey (cursor : Bytes × Bytes) : WithTop (List ℕ) ×ₗ List ℕ :=
  toLex (((cursor.1.nats : List ℕ) : WithTop (List ℕ)), cursor.2.nats)

theorem isBehind_iff {row : NodeRow} {cursor : Bytes × Bytes} (hkey : row.orderKey.isSome) :
    isBehind n row cursor = true ↔ cursorKey cursor < PgNodeStore.sqlKey n row := by
  obtain ⟨key, hkey⟩ := Option.isSome_iff_exists.mp hkey
  have hinj : key = cursor.1 ↔ cursor.1.nats = key.nats :=
    ⟨fun h => by rw [h], fun h => (Bytes.nats_injective h).symm⟩
  simp only [isBehind, hkey, PgNodeStore.sqlKey, cursorKey, Option.elim_some,
    Prod.Lex.toLex_lt_toLex, WithTop.coe_lt_coe, WithTop.coe_inj, Bool.or_eq_true, Bool.and_eq_true,
    decide_eq_true_eq, hinj]

/-- One more condition is a filter behind the query. -/
theorem selectRows_and (table : NodeTable) (condition more : NodeId → NodeRow → Bool) :
    PgNodeStore.selectRows table (fun n row => condition n row && more n row) =
      (PgNodeStore.selectRows table condition).filter fun e => more e.1 e.2 := by
  refine eq_of_sorted (PgNodeStore.selectRows_sorted table _)
    ((PgNodeStore.selectRows_sorted table condition).filter _) fun e => ?_
  rw [PgNodeStore.mem_selectRows, List.mem_filter, PgNodeStore.mem_selectRows, Bool.and_eq_true,
    and_assoc]

/-- The row of a child. -/
def childRow (e : Σ _ : NodeId, NodeRow) : TreeChildRow := ⟨e.1, e.2.orderKey⟩

def rowKey (e : Σ _ : NodeId, NodeRow) : WithTop (List ℕ) ×ₗ List ℕ := PgNodeStore.sqlKey e.1 e.2

/-- A read of a document that is clean. -/
theorem clean_run {α : Type} (hclean : d.cursor.dirty = false) (f : Document json opRef → α) :
    (do ensureMaterialized; gets f : Exec Error (Document json opRef) α) d =
      some (.ok (f d), d) := by
  rw [bind_of_ok (ensureMaterialized_clean hclean)]
  rfl

theorem treeChildren_run (hclean : d.cursor.dirty = false) (hp : p ≠ NodeId.TRASH) :
    treeChildren p d = some (.ok (PgNodeStore.select d.nodes (isShownUnder p)), d) := by
  unfold treeChildren
  rw [if_neg hp]
  exact clean_run hclean _

/-- A page of children that all have a key. -/
theorem treeChildrenPage_run (hclean : d.cursor.dirty = false) (hp : p ≠ NodeId.TRASH)
    (hkeys : ∀ e ∈ PgNodeStore.selectRows d.nodes (fun _ => isShownUnder p), e.2.orderKey.isSome)
    (cursor : Option (Bytes × Bytes)) (limit : UInt32) :
    treeChildrenPage p cursor limit d = some (.ok
      (((behind rowKey (cursor.map cursorKey) (PgNodeStore.selectRows d.nodes fun _ =>
        isShownUnder p)).take limit.toNat).map childRow), d) := by
  have hbehind : PgNodeStore.selectRows d.nodes (fun node row =>
        isShownUnder p row && cursor.all (isBehind node row)) =
      behind rowKey (cursor.map cursorKey)
        (PgNodeStore.selectRows d.nodes fun _ => isShownUnder p) := by
    rw [selectRows_and, behind]
    refine List.filter_congr fun e he => ?_
    cases cursor with
    | none => rfl
    | some cursor =>
      exact Bool.eq_iff_iff.mpr ((isBehind_iff (hkeys e he)).trans decide_eq_true_iff.symm)
  rw [← hbehind]
  unfold treeChildrenPage
  rw [if_neg hp]
  exact clean_run hclean _

/-- The cursor of the last row of a page is the key of that row. -/
theorem cursor_getLast {page : List (Σ _ : NodeId, NodeRow)} {cursor : Option (Bytes × Bytes)}
    (hkeys : ∀ e ∈ page, e.2.orderKey.isSome) :
    (((page.map childRow).getLast?.bind (·.cursor)).or cursor).map cursorKey =
      (page.getLast?.map rowKey).or (cursor.map cursorKey) := by
  rw [List.getLast?_map]
  cases hlast : page.getLast? with
  | none => rfl
  | some e =>
    obtain ⟨key, hkey⟩ := Option.isSome_iff_exists.mp (hkeys e (List.mem_of_getLast? hlast))
    simp [TreeChildRow.cursor, childRow, hkey, cursorKey, rowKey, PgNodeStore.sqlKey]

theorem childrenPages_run (hclean : d.cursor.dirty = false) (hp : p ≠ NodeId.TRASH)
    (hkeys : ∀ e ∈ PgNodeStore.selectRows d.nodes (fun _ => isShownUnder p), e.2.orderKey.isSome)
    (limits : List UInt32) (cursor : Option (Bytes × Bytes)) :
    childrenPages p limits cursor d = some (.ok
      ((pages rowKey (PgNodeStore.selectRows d.nodes fun _ => isShownUnder p)
        (limits.map UInt32.toNat) (cursor.map cursorKey)).map childRow), d) := by
  induction limits generalizing cursor with
  | nil => rfl
  | cons limit limits ih =>
    have hpage : ∀ e ∈ (behind rowKey (cursor.map cursorKey) (PgNodeStore.selectRows d.nodes
        fun _ => isShownUnder p)).take limit.toNat, e.2.orderKey.isSome := fun e he =>
      hkeys e (mem_behind.mp (List.mem_of_mem_take he)).1
    rw [childrenPages, bind_of_ok (treeChildrenPage_run hclean hp hkeys cursor limit),
      bind_of_ok (ih _), cursor_getLast hpage, List.map_cons, pages, List.map_append]
    rfl

/-- `TRASH` has no pages. -/
theorem childrenPages_trash (hclean : d.cursor.dirty = false) (limits : List UInt32)
    (cursor : Option (Bytes × Bytes)) :
    childrenPages NodeId.TRASH limits cursor d = some (.ok [], d) := by
  induction limits generalizing cursor with
  | nil => rfl
  | cons limit limits ih =>
    have hpage : treeChildrenPage NodeId.TRASH cursor limit d = some (.ok [], d) := by
      unfold treeChildrenPage
      rw [bind_of_ok (ensureMaterialized_clean hclean)]
      rfl
    rw [childrenPages, bind_of_ok hpage, bind_of_ok (ih _)]
    rfl

/-- The pages of `tree_children_page` are together the first of `tree_children`. -/
theorem Document.Holds.pages (h : d.Holds doc) (hclean : d.cursor.dirty = false) (p : NodeId)
    (limits : List UInt32) : ∃ l rows, Gives (treeChildren p) d l ∧
      Gives (childrenPages p limits none) d rows ∧
      rows.map (·.node) = l.take (limits.map UInt32.toNat).sum := by
  by_cases hp : p = NodeId.TRASH
  · subst hp
    have hchildren : treeChildren NodeId.TRASH d = some (.ok [], d) := by
      unfold treeChildren
      rw [bind_of_ok (ensureMaterialized_clean hclean)]
      rfl
    exact ⟨[], [], ⟨d, hchildren⟩, ⟨d, childrenPages_trash hclean limits none⟩, by simp⟩
  · have hkeys : ∀ e ∈ PgNodeStore.selectRows d.nodes (fun _ => isShownUnder p),
        e.2.orderKey.isSome := by
      intro e he
      obtain ⟨hrow, hshown⟩ := PgNodeStore.mem_selectRows.mp he
      have hparent : e.2.parent = some p := by
        rw [isShownUnder, Bool.and_eq_true, decide_eq_true_eq] at hshown
        exact hshown.1
      exact (h.nodes.2.2.placed e.1 e.2 p hrow hparent).2.1 hp
    have hsorted : (PgNodeStore.selectRows d.nodes fun _ => isShownUnder p).Pairwise
        fun a b => rowKey a < rowKey b := PgNodeStore.selectRows_sorted d.nodes _
    refine ⟨_, _, ⟨d, treeChildren_run hclean hp⟩,
      ⟨d, childrenPages_run hclean hp hkeys limits none⟩, ?_⟩
    rw [Option.map_none, pages_none hsorted, List.map_map, PgNodeStore.select, ← List.map_take]
    rfl

/-! ## Agreement -/

variable {S C : Type} {t : TreeCrdt S C MemoryNodeStore MemoryPayloadStore} {e : Doc}

/-- Every parent is what the core shows exactly if nothing is tombstoned or in the trash. -/
theorem parent_eq_shown_iff {r : Rows} (htrash : ∀ n, r.parent n ≠ some NodeId.TRASH) :
    (∀ n, r.parent n = r.shown n) ↔ ∀ n, ¬ r.Tombstoned n := by
  refine ⟨fun h n hdead => htrash n ?_, fun h n => ?_⟩
  · rw [h n, Rows.shown, if_pos hdead]
  · rw [Rows.shown, if_neg (h n), Rows.listed]
    cases hp : r.parent n with
    | none => rfl
    | some p =>
      rw [Option.filter_some, if_pos]
      exact decide_eq_true fun hpt => htrash n (hpt ▸ hp)

/-- The node counts agree exactly if `TRASH` has no row. -/
theorem counted_length_iff {counted listed : List NodeId} {r : Rows} (hcounted : counted.Nodup)
    (hlisted : listed.Nodup) (hdead : ¬ r.Tombstoned NodeId.TRASH)
    (hmem : ∀ n, n ∈ counted ↔ (r n).isSome ∧ ¬ r.Tombstoned n ∧ n ≠ NodeId.ROOT)
    (hmem' : ∀ n, n ∈ listed ↔ (r n).isSome ∧ ¬ n.special ∧ ¬ r.Tombstoned n) :
    counted.length = listed.length ↔ r NodeId.TRASH = none := by
  have hroot : NodeId.TRASH ≠ NodeId.ROOT := by decide
  cases htrash : r NodeId.TRASH with
  | none =>
    have hperm : counted.Perm listed := (List.perm_ext_iff_of_nodup hcounted hlisted).mpr fun n => by
      rw [hmem, hmem']
      refine ⟨fun ⟨hsome, hlive, hne⟩ => ⟨hsome, ?_, hlive⟩, fun ⟨hsome, hplain, hlive⟩ =>
        ⟨hsome, hlive, fun he => hplain (.inr he)⟩⟩
      rintro (rfl | rfl)
      · rw [htrash] at hsome
        cases hsome
      · exact hne rfl
    exact iff_of_true hperm.length_eq rfl
  | some row =>
    have hnew : NodeId.TRASH ∉ listed := fun h => ((hmem' _).mp h).2.1 (.inl rfl)
    have hperm : counted.Perm (NodeId.TRASH :: listed) :=
      (List.perm_ext_iff_of_nodup hcounted (List.nodup_cons.mpr ⟨hnew, hlisted⟩)).mpr fun n => by
        rw [hmem, List.mem_cons, hmem']
        constructor
        · rintro ⟨hsome, hlive, hne⟩
          by_cases hn : n = NodeId.TRASH
          · exact .inl hn
          · exact .inr ⟨hsome, not_or.mpr ⟨hn, hne⟩, hlive⟩
        · rintro (rfl | ⟨hsome, hplain, hlive⟩)
          · exact ⟨by rw [htrash]; rfl, hdead, hroot⟩
          · exact ⟨hsome, hlive, fun he => hplain (.inr he)⟩
    have hlength := hperm.length_eq
    rw [List.length_cons] at hlength
    refine iff_of_false (fun h => ?_) (by simp)
    omega

/-- A document that is clean, next to a tree in memory: they have the same rows, and the flags of the
tables are exact. -/
structure Mirrors (d : Document json opRef) (doc : Doc)
    (t : TreeCrdt S C MemoryNodeStore MemoryPayloadStore) (e : Doc) : Prop where
  clean : d.cursor.dirty = false
  holds : d.Holds doc
  exact : doc.Exact
  same : doc.Matches e
  models : ModelsDoc (t.nodes, t.payloads) e
  shaped : e.Shaped

namespace Mirrors

theorem children (h : Mirrors d doc t e) (hp : p ≠ NodeId.TRASH) :
    ∃ l, Gives (treeChildren p) d l ∧ Gives (TreeCrdt.children p) t.nodes l := by
  classical
  obtain ⟨_, hcore, stored, hstored, rfl⟩ :=
    (children_runs h.shaped.listed h.shaped.normal e.flags p).gives h.models.1
  obtain ⟨l, -, -, hl, -⟩ := PgNodeStore.children_runs doc.rows doc.flags p _ h.holds.nodes
  obtain rfl := (h.same.rows.isChildren hl).unique hstored
  refine ⟨_, ⟨d, treeChildren_run h.clean hp⟩, ?_⟩
  rw [h.holds.select_shown h.exact.flags hp hl]
  simpa only [h.same.rows.tombstoned] using hcore

theorem payload (h : Mirrors d doc t e) (n : NodeId) :
    ∃ v, Gives (treePayload n) d v ∧ Gives (TreeCrdt.payload n) t.payloads v := by
  refine ⟨_, ⟨d, clean_run h.clean _⟩, ?_⟩
  rw [h.holds.payloads, h.same.payloads]
  exact (LawfulPayloadStore.payload e.payloads n).gives_eq h.models.2

theorem isKnown (h : Mirrors d doc t e) (n : NodeId) :
    Gives (TreeCrdt.isKnown n) t.nodes (e.rows n).isSome := by
  refine ⟨t.nodes, ?_⟩
  rw [← show t.nodes.view = e.rows from h.models.1.1, MemoryNodeStore.view, Option.isSome_map]
  rfl

theorem exists_iff (h : Mirrors d doc t e) (n : NodeId) : ∃ b known tombstoned,
    Gives (treeExists n) d b ∧ Gives (TreeCrdt.isKnown n) t.nodes known ∧
      Gives (TreeCrdt.isTombstoned n) t.nodes tombstoned ∧
      (b = true ↔ known = true ∧ tombstoned = false) := by
  obtain ⟨tombstoned, htombstoned, hdead⟩ :=
    (isTombstoned_runs h.shaped.listed h.shaped.normal e.flags n).gives h.models.1
  refine ⟨_, _, tombstoned, ⟨d, clean_run h.clean _⟩, h.isKnown n, htombstoned, ?_⟩
  rw [← h.same.rows.isSome, h.holds.view, Option.isSome_map, ← Bool.not_eq_true, hdead,
    ← h.same.rows.tombstoned]
  cases hrow : d.nodes.lookup n with
  | none => simp
  | some row =>
    rw [← h.holds.tombstoned h.exact.flags hrow]
    simp

theorem parent_iff (h : Mirrors d doc t e) (n : NodeId) :
    (∃ q, Gives (treeParent n) d q ∧ Gives (TreeCrdt.parent n) t.nodes q) ↔
      e.rows.parent n = e.rows.shown n := by
  have htree : Gives (treeParent n) d (e.rows.parent n) := by
    rw [← h.same.rows.parent, ← h.holds.parent]
    exact ⟨d, clean_run h.clean _⟩
  have hcore : Gives (TreeCrdt.parent n) t.nodes (e.rows.shown n) :=
    (parent_runs h.shaped.listed h.shaped.normal e.flags n).gives_eq h.models.1
  constructor
  · rintro ⟨q, hq, hq'⟩
    rw [htree.unique hq, hcore.unique hq']
  · intro heq
    exact ⟨_, htree, heq ▸ hcore⟩

theorem nodeCount_iff (h : Mirrors d doc t e) :
    (∃ nodes, Gives treeNodeCount d nodes.length ∧ Gives TreeCrdt.listNodes t.nodes nodes) ↔
      e.rows NodeId.TRASH = none := by
  obtain ⟨listed, hlisted, hnodup, hmem⟩ := (TreeCrdt.listNodes_runs h.shaped.listed
    h.shaped.normal e.flags (MemoryNodeStore.allNodes_nodup e.rows e.flags)).gives h.models.1
  set counted := (d.nodes.entries.filter fun r => !r.2.tombstone && r.1 ≠ NodeId.ROOT).map
    Sigma.fst with hcounted
  have htree : Gives treeNodeCount d counted.length := by
    rw [hcounted, List.length_map]
    exact ⟨d, clean_run h.clean _⟩
  have hlive : ¬ e.rows.Tombstoned NodeId.TRASH :=
    Rows.not_tombstoned (h.shaped.undeleted _ (.inl rfl))
  have hkeys : counted.Nodup := d.nodes.nodupKeys.sublist List.filter_sublist
  have hcount : ∀ n, n ∈ counted ↔
      (e.rows n).isSome ∧ ¬ e.rows.Tombstoned n ∧ n ≠ NodeId.ROOT := by
    intro n
    rw [h.holds.mem_counted h.exact.flags, h.same.rows.isSome, h.same.rows.tombstoned]
  have hlength : (listed.map Prod.fst).length = listed.length := List.length_map _
  rw [← counted_length_iff hkeys hnodup hlive hcount hmem, hlength]
  constructor
  · rintro ⟨nodes, hnodes, hcore⟩
    rw [hlisted.unique hcore]
    exact htree.unique hnodes
  · intro heq
    exact ⟨listed, heq ▸ htree, hlisted⟩

/-- **Where the reads agree.** -/
theorem agrees_iff (h : Mirrors d doc t e) :
    Agrees d t ↔ e.rows NodeId.TRASH = none ∧ ∀ n, ¬ e.rows.Tombstoned n := by
  have hup : e.rows NodeId.TRASH = none → ∀ n, e.rows.parent n ≠ some NodeId.TRASH := by
    intro hnone n hn
    have hsome := LawfulNodeStore.parent_isSome t.nodes e.rows e.flags h.models.1 n _ hn
    rw [hnone] at hsome
    cases hsome
  constructor
  · intro hagrees
    have hnone := h.nodeCount_iff.mp hagrees.nodeCount
    exact ⟨hnone, (parent_eq_shown_iff (hup hnone)).mp fun n =>
      (h.parent_iff n).mp (hagrees.parent n)⟩
  · rintro ⟨hnone, hlive⟩
    exact {
      children := fun p hp => h.children hp
      parent := fun n => (h.parent_iff n).mpr ((parent_eq_shown_iff (hup hnone)).mpr hlive n)
      payload := h.payload
      exists_iff := h.exists_iff
      nodeCount := h.nodeCount_iff.mpr hnone
      pages := fun p limits _ => h.holds.pages h.clean p limits }

end Mirrors

/-! ## Rows of `TRASH` -/

section

variable {r : Rows} {op : Operation} {m : NodeId}

theorem isSome_touch : (r.touch op n m).isSome ↔ (r m).isSome := Rows.isSome_modify

theorem isSome_reparent {b : Backend} {key : Bytes} :
    (r.reparent b n p key m).isSome ↔ (r m).isSome := by
  unfold Rows.reparent
  split
  · rfl
  · exact Rows.isSome_modify

theorem isSome_touchMoved {q : Option NodeId} :
    (r.touchMoved op n p q m).isSome ↔ (r m).isSome := by
  unfold Rows.touchMoved
  cases q <;> simp only <;> split_ifs <;> simp only [isSome_touch]

theorem isSome_writePayload {d : Doc} {payload : Option Bytes} :
    ((d.writePayload op n payload).rows m).isSome ↔ m = n ∨ (d.rows m).isSome := by
  unfold Doc.writePayload
  simp only
  split
  · rw [isSome_touch, Rows.isSome_ensure]
  · exact Rows.isSome_ensure

theorem isSome_insert {b : Backend} {key : Bytes} (hn : n ≠ NodeId.TRASH) :
    (r.insert b op p n key NodeId.TRASH).isSome ↔
      (r NodeId.TRASH).isSome ∨ p = NodeId.TRASH := by
  unfold Rows.insert
  split
  · rename_i hskip
    refine (or_iff_left ?_).symm
    rintro rfl
    obtain rfl | hcyclic := hskip
    · exact hn rfl
    · exact hcyclic.1 (.inl rfl)
  · rw [isSome_touch, isSome_touch, isSome_reparent, Rows.isSome_ensure, Rows.isSome_ensure,
      or_iff_right (Ne.symm hn), or_comm, eq_comm (a := NodeId.TRASH)]

theorem isSome_move {b : Backend} {key : Bytes} (hn : ¬ n.special) :
    (r.move b op n p key NodeId.TRASH).isSome ↔ (r NodeId.TRASH).isSome ∨ p = NodeId.TRASH := by
  have hensured : (((r.ensure n).ensure p) NodeId.TRASH).isSome ↔
      (r NodeId.TRASH).isSome ∨ p = NodeId.TRASH := by
    have hne : NodeId.TRASH ≠ n := fun h => hn (.inl h.symm)
    rw [Rows.isSome_ensure, Rows.isSome_ensure, or_iff_right hne, or_comm,
      eq_comm (a := NodeId.TRASH)]
  unfold Rows.move
  rw [if_neg fun h => hn (.inr h)]
  split
  · exact hensured
  · rw [isSome_touchMoved, isSome_reparent]
    exact hensured

theorem isSome_delete {b : Backend} (hn : n ≠ NodeId.TRASH) :
    (r.delete b op n NodeId.TRASH).isSome ↔ (r NodeId.TRASH).isSome := by
  unfold Rows.delete
  split
  · rfl
  · rw [Rows.mergeDeletedAt, Rows.isSome_modify, Rows.isSome_ensure, or_iff_right (Ne.symm hn)]

/-- `TRASH` gets its row where something is put under it. -/
theorem trash_apply (b : Backend) (d : Doc) (hs : ¬ op.kind.node.special) :
    ((d.apply b op).rows NodeId.TRASH).isSome ↔
      (d.rows NodeId.TRASH).isSome ∨ op.kind.parentAfter = some NodeId.TRASH := by
  have hn : op.kind.node ≠ NodeId.TRASH := fun h => hs (.inl h)
  have he : ((d.ensure op.kind.node).rows NodeId.TRASH).isSome ↔ (d.rows NodeId.TRASH).isSome := by
    rw [Doc.ensure, Rows.isSome_ensure, or_iff_right (Ne.symm hn)]
  unfold Doc.apply
  rw [← he]
  generalize d.ensure op.kind.node = d'
  cases hk : op.kind with
  | insert p n key payload =>
    rw [hk] at hn
    change n ≠ NodeId.TRASH at hn
    simp only [Doc.applyKind, OperationKind.parentAfter]
    split
    · rw [isSome_writePayload, or_iff_right (Ne.symm hn), isSome_insert hn, Option.some_inj]
    · rw [isSome_insert hn, Option.some_inj]
  | move n p key =>
    rw [hk] at hs
    change ¬ n.special at hs
    simp only [Doc.applyKind, OperationKind.parentAfter]
    rw [isSome_move hs, Option.some_inj]
  | delete n =>
    rw [hk] at hn
    change n ≠ NodeId.TRASH at hn
    simp only [Doc.applyKind, OperationKind.parentAfter]
    rw [isSome_delete hn]
    simp
  | tombstone n =>
    rw [hk] at hn
    change n ≠ NodeId.TRASH at hn
    simp only [Doc.applyKind, OperationKind.parentAfter]
    rw [isSome_delete hn]
    simp
  | payload n payload =>
    rw [hk] at hn
    change n ≠ NodeId.TRASH at hn
    simp only [Doc.applyKind, OperationKind.parentAfter]
    rw [isSome_writePayload, or_iff_right (Ne.symm hn)]
    simp

theorem trash_applyAll (b : Backend) {ops : List Operation}
    (hs : ∀ op ∈ ops, ¬ op.kind.node.special) (d : Doc) :
    ((d.applyAll b ops).rows NodeId.TRASH).isSome ↔
      (d.rows NodeId.TRASH).isSome ∨ ∃ op ∈ ops, op.kind.parentAfter = some NodeId.TRASH := by
  induction ops generalizing d with
  | nil => simp [Doc.applyAll]
  | cons op ops ih =>
    rw [List.forall_mem_cons] at hs
    rw [List.exists_mem_cons_iff, ← or_assoc, ← trash_apply b d hs.1]
    exact ih hs.2 _

end

/-! ## Logs -/

/-- Nothing of the log is put under `TRASH`, and its document has no tombstones. -/
structure Quiet (ops : List Operation) : Prop where
  untrashed : ∀ op ∈ ops, op.kind.parentAfter ≠ some NodeId.TRASH
  live : ∀ n, ¬ (Doc.initial.applyAll Backend.memory (sortOps ops)).rows.Tombstoned n

theorem quiet_iff {ops : List Operation} (hs : ∀ op ∈ ops, ¬ op.kind.node.special) :
    Quiet ops ↔
      (Doc.initial.applyAll Backend.memory (sortOps ops)).rows NodeId.TRASH = none ∧
        ∀ n, ¬ (Doc.initial.applyAll Backend.memory (sortOps ops)).rows.Tombstoned n := by
  have hmem : ∀ op, op ∈ sortOps ops ↔ op ∈ ops := fun op => (sortOps_perm ops).mem_iff
  have htrash := trash_applyAll Backend.memory (fun op hop => hs op ((hmem op).mp hop)) Doc.initial
  have hinitial : Doc.initial.rows NodeId.TRASH = none := rfl
  rw [hinitial] at htrash
  rw [← Option.not_isSome_iff_eq_none, htrash]
  constructor
  · rintro ⟨huntrashed, hlive⟩
    refine ⟨?_, hlive⟩
    rintro (h | ⟨op, hop, hparent⟩)
    · cases h
    · exact huntrashed op ((hmem op).mp hop) hparent
  · rintro ⟨hnone, hlive⟩
    exact ⟨fun op hop hparent => hnone (.inr ⟨op, (hmem op).mpr hop, hparent⟩), hlive⟩

section

variable [Storage S] [Clock C] {ops : List Operation}

/-- Behind `ensure_materialized` a document mirrors a tree that replayed its log. -/
theorem mirrors_run (hclean : d.cursor.dirty = false → d.Materialized) (hscan : ScansAll ops d.ops)
    (hlog : Storage.scanSince t.storage 0 = (sortOps ops).map .ok)
    (hplain : ∀ op ∈ ops, ¬ op.kind.node.special) :
    ∃ d' t' doc, ensureMaterialized d = some (.ok (), d') ∧
      TreeCrdt.replayFromStorage t = some (.ok (), t') ∧
      Mirrors d' doc t' (Doc.initial.applyAll Backend.memory (sortOps ops)) := by
  obtain ⟨backs, hbacks, hsame⟩ := hscan
  have hplain' : ∀ op ∈ sortOps ops, ¬ op.kind.node.special := fun op hop =>
    hplain op ((sortOps_perm ops).mem_iff.mp hop)
  obtain ⟨hexact, hmatches⟩ := replayedDoc_exact hsame hplain'
  have hshaped : (Doc.initial.applyAll PgNodeStore.backend backs).Shaped :=
    ⟨hexact.normal, hexact.acyclic, hexact.top, hexact.undeleted⟩
  obtain ⟨d', hrun, ⟨hclean', backs', hbacks', hholds⟩, hops⟩ : ∃ d',
      ensureMaterialized d = some (.ok (), d') ∧ d'.Materialized ∧ d'.ops = d.ops := by
    cases hdirty : d.cursor.dirty with
    | true => exact ensureMaterialized_dirty hdirty hbacks hshaped
    | false => exact ⟨d, ensureMaterialized_clean hdirty, hclean hdirty, rfl⟩
  rw [hops, hbacks] at hbacks'
  obtain rfl := List.map_injective_iff.mpr (fun _ _ h => Except.ok.inj h) hbacks'
  obtain ⟨s, hfold, hmodels⟩ := TreeCrdt.exists_forwardAll (sortOps ops)
  obtain ⟨opCount, hreplay⟩ := TreeCrdt.replayFromStorage_run (t := t) hlog rfl rfl hfold
  exact ⟨d', _, _, hrun, hreplay, hclean', hholds, hexact, hmatches, hmodels,
    Doc.Shaped.applyAll hplain'⟩

/-- **Which logs the reads in Postgres agree on.** Behind `ensure_materialized`, they are those of a
tree that replayed the log exactly if nothing of the log is put under `TRASH` and its document has
no tombstones. -/
theorem agrees_iff_quiet (json : Json) (opRef : OperationId → Ref) (ops : List Operation)
    (d : Document json opRef) (t : TreeCrdt S C MemoryNodeStore MemoryPayloadStore)
    (haccepted : Accepted {} ops d.ops) (hclean : d.cursor.dirty = false → d.Materialized)
    (hlog : Storage.scanSince t.storage 0 = (sortOps ops).map .ok)
    (hlamport : ∀ op ∈ ops, 1 ≤ op.metadata.lamport.toNat)
    (hplain : ∀ op ∈ ops, ¬ op.kind.node.special)
    (hjson : ∀ op ∈ ops, ∀ vv ∈ op.metadata.knownState, json.Reads vv)
    (hfits : ∀ op ∈ ops, op.FitsI64) :
    ∃ d' t', ensureMaterialized d = some (.ok (), d') ∧
      TreeCrdt.replayFromStorage t = some (.ok (), t') ∧ (Agrees d' t' ↔ Quiet ops) := by
  have hscan := (scansAll_iff json opRef ops d.ops haccepted hlamport hjson).mpr hfits
  obtain ⟨d', t', doc, hrun, hreplay, hmirrors⟩ := mirrors_run hclean hscan hlog hplain
  exact ⟨d', t', hrun, hreplay, hmirrors.agrees_iff.trans (quiet_iff hplain).symm⟩

end

/-- A document to be rebuilt that has one operation. -/
def dirtyDocument (op : Operation) : Document .ofNew (id : OperationId → OperationId) where
  ops := ⟨[(op.metadata.id, rowOf .ofNew op)]⟩
  cursor := ⟨true, 0, [], 0, 0⟩

/-- A tree in memory over a log of one operation. -/
def treeOver (op : Operation) : TreeCrdt.StoreTree MemoryStorage LamportClock where
  replicaId := ⟨[1]⟩
  storage := { ops := [op], ids := [op.metadata.id] }
  clock := {}
  counter := 0
  nodes := MemoryNodeStore.default
  versionVector := .new
  payloads := {}
  head := none
  opCount := 0

theorem agrees_iff_quiet_insert :
    let op : Operation := .insert ⟨[1]⟩ 1 1 NodeId.ROOT ⟨7⟩ [1]
    ∃ d' t', ensureMaterialized (dirtyDocument op) = some (.ok (), d') ∧
      TreeCrdt.replayFromStorage (treeOver op) = some (.ok (), t') ∧ (Agrees d' t' ↔ Quiet [op]) :=
  agrees_iff_quiet .ofNew id [.insert ⟨[1]⟩ 1 1 NodeId.ROOT ⟨7⟩ [1]] _ _
    (accepted_singleton rfl) (fun h => by cases h) rfl (by decide) (by decide)
    (fun op hop vv hvv => by rw [List.mem_singleton.mp hop] at hvv; cases hvv)
    (fun op hop => by rw [List.mem_singleton.mp hop]; exact ⟨by decide, by decide⟩)

/-- A node whose delete is all that is known of it is tombstoned. -/
theorem tombstoned_of_delete {op : Operation} (hdel : op.kind.Deletes n) (hn : ¬ n.special) :
    (Doc.initial.apply Backend.memory op).rows.Tombstoned n := by
  have hdeleted := Doc.deleted_apply (d := Doc.initial) hdel hn
  rw [Rows.tombstoned_iff_deletedDots]
  refine ⟨(hdeleted.isSome n).mpr (.inr rfl), ?_⟩
  rintro dot ⟨m, -, hdot⟩
  rw [hdeleted.last, Rows.lastDots, Doc.row_initial] at hdot
  simp [Row.blank] at hdot

/-- A deleted node has no parent in Postgres, and is in the trash for the core. -/
theorem delete_not_agrees : ¬ ∀ (json : Json) (opRef : OperationId → OperationId)
    (ops : List Operation) (d : Document json opRef)
    (t : TreeCrdt.StoreTree MemoryStorage LamportClock),
    Accepted {} ops d.ops → (d.cursor.dirty = false → d.Materialized) →
      Storage.scanSince t.storage 0 = (sortOps ops).map .ok →
      (∀ op ∈ ops, 1 ≤ op.metadata.lamport.toNat) → (∀ op ∈ ops, ¬ op.kind.node.special) →
      (∀ op ∈ ops, ∀ vv ∈ op.metadata.knownState, json.Reads vv) →
      (∀ op ∈ ops, op.FitsI64) →
      ∃ d' t', ensureMaterialized d = some (.ok (), d') ∧
        TreeCrdt.replayFromStorage t = some (.ok (), t') ∧ Agrees d' t' := by
  intro h
  let op : Operation := .delete ⟨[1]⟩ 1 1 ⟨7⟩ (some .new)
  have hop : ∀ {P : Operation → Prop}, P op → ∀ x ∈ [op], P x := fun hP x hx => by
    rwa [List.mem_singleton.mp hx]
  have hplain : ∀ x ∈ [op], ¬ x.kind.node.special := hop (by decide)
  have haccepted : Accepted {} [op] (dirtyDocument op).ops := accepted_singleton (by rfl)
  have hlamport : ∀ x ∈ [op], 1 ≤ x.metadata.lamport.toNat := hop (by decide)
  have hjson : ∀ x ∈ [op], ∀ vv ∈ x.metadata.knownState, Json.ofNew.Reads vv := hop fun vv hvv => by
    obtain rfl : VersionVector.new = vv := Option.some.inj hvv
    exact Json.ofNew_reads
  have hfits : ∀ x ∈ [op], x.FitsI64 := hop ⟨by decide, by decide⟩
  have hclean : (dirtyDocument op).cursor.dirty = false → (dirtyDocument op).Materialized :=
    fun hdirty => by cases hdirty
  obtain ⟨d', t', hrun, hreplay, hagrees⟩ := h .ofNew id [op] (dirtyDocument op) (treeOver op)
    haccepted hclean rfl hlamport hplain hjson hfits
  obtain ⟨d₁, t₁, doc, hrun₁, hreplay₁, hmirrors⟩ := mirrors_run hclean
    ((scansAll_iff .ofNew id [op] _ haccepted hlamport hjson).mpr hfits)
    (show Storage.scanSince (treeOver op).storage 0 = (sortOps [op]).map .ok from rfl) hplain
  cases hrun.symm.trans hrun₁
  cases hreplay.symm.trans hreplay₁
  have hsort : sortOps [op] = [op] := List.mergeSort_singleton op
  rw [hsort] at hmirrors
  have hdead : (Doc.initial.apply Backend.memory op).rows.Tombstoned ⟨7⟩ :=
    tombstoned_of_delete (.inl rfl) (by decide)
  exact (hmirrors.agrees_iff.mp hagrees).2 ⟨7⟩ hdead

end Postgres

end Treecrdt
