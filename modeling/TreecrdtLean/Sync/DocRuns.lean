import TreecrdtLean.Store.Interchange
import TreecrdtLean.Sync.DocLog
import TreecrdtLean.Tree.InOrder

/-!
# What a run does to a SQLite document

Between its calls a document is dirty, or its tables are the derived state of its log and its cursor
stands at the end of it (`Kept`). A batch that is not behind the cursor is applied on top, any other
one leaves the document dirty; a rebuild always comes through; a local operation that returns was
appended and applied. So the order in which operations came, and how they were cut into calls, leaves
no mark on what is read: a rebuild changes nothing (`run_rebuilds`), and two documents of one log read
the same (`runs_converge`).
-/

namespace Treecrdt

namespace Sync

open Exec Forest

section

variable {Ref : Type} [DecidableEq Ref] {opRef : OperationId → Ref}

instance : TotalIndex (OprefsChildren opRef) where
  reset _ := ⟨_, rfl⟩
  record _ _ _ _ := ⟨_, rfl⟩

namespace SqliteDoc

variable {N : Type} [NodeStore N] [LawfulNodeStore N]

/-- The tables stand for a document. -/
def Models (doc : SqliteDoc N opRef) (d : Doc) : Prop := ModelsDoc (doc.nodes, doc.payloads) d

/-- The tables are derived from the operations, and the cursor stands at the end of them. -/
structure Materialized (ops : List Operation) (doc : SqliteDoc N opRef) : Prop where
  tables : ∃ d, doc.Models d ∧ d.Derived (LawfulNodeStore.backend N) (sortOps ops)
  head : cursorHead doc.cursor = headOf ops

/-- What holds of a document between its calls. -/
structure Kept (doc : SqliteDoc N opRef) : Prop where
  log : doc.ops.Sound
  tables : ∃ d, doc.Models d
  clean : doc.cursor.dirty = false → doc.Materialized doc.ops.rows

variable {S α : Type} {doc doc' : SqliteDoc N opRef} {ops inserted : List Operation}

/-! ## A tree over the tables -/

omit [NodeStore N] [LawfulNodeStore N] [DecidableEq Ref] in
/-- A method that returns from the tree over the tables. -/
theorem onCrdt_run [Storage S] {replica : ReplicaId} {get : SqliteDoc N opRef → S}
    {put : S → SqliteDoc N opRef → SqliteDoc N opRef} {r : Except Error α}
    {c : Exec Error (TreeCrdt S LamportClock N MemoryPayloadStore × OprefsChildren opRef) α}
    {t t' : TreeCrdt S LamportClock N MemoryPayloadStore} {index : OprefsChildren opRef}
    (ht : TreeCrdt.withStores replica (get doc) {} doc.nodes doc.payloads = .ok t)
    (hc : c (t, doc.index) = some (r, (t', index))) :
    onCrdt replica get put c doc = some (r, put t'.storage
      { doc with nodes := t'.nodes, payloads := t'.payloads, index }) := by
  rw [onCrdt, ht]
  simp only [hc, Option.map_some]

variable [CompleteNodeStore N]

/-! ## Batches -/

/-- A batch behind the cursor is refused, any other one is applied. -/
theorem materializeOpsInOrder_returns (hb : (LawfulNodeStore.backend N).Rooted)
    (hdoc : doc.Materialized ops) (hdirty : doc.cursor.dirty = false)
    (hid : DistinctIds (ops ++ inserted)) (hne : inserted ≠ []) :
    (∃ e, materializeOpsInOrder inserted doc = some (.error e, doc)) ∨
      ∃ doc', materializeOpsInOrder inserted doc = some (.ok (), doc') ∧ doc'.ops = doc.ops ∧
        doc'.cursor.dirty = false ∧ doc'.Materialized (ops ++ inserted) := by
  obtain ⟨⟨d, hmodels, hd⟩, hhead⟩ := hdoc
  let t : TreeCrdt NoopStorage LamportClock N MemoryPayloadStore := {
    replicaId := sqliteExt, storage := .mk, clock := Clock.observe 0 {}, counter := 0
    nodes := doc.nodes, versionVector := .new, payloads := doc.payloads, head := none, opCount := 0 }
  have ht : TreeCrdt.withStores sqliteExt NoopStorage.mk {} doc.nodes doc.payloads = .ok t := rfl
  unfold materializeOpsInOrder
  rw [gets_bind_run]
  cases hbehind : (sortOps inserted).head?.any (TreeCrdt.behindHead doc.cursor) with
  | true =>
    left
    obtain ⟨e, hrun⟩ := TreeCrdt.applyIncrementalOpsWithDelta_refuses hbehind (t, doc.index)
    exact ⟨e, bind_of_error (onCrdt_run ht hrun)⟩
  | false =>
    right
    obtain ⟨last, hlast⟩ : ∃ last, (sortOps inserted).getLast? = some last := by
      refine ⟨_, List.getLast?_eq_some_getLast fun hnil => hne ?_⟩
      exact (hnil ▸ sortOps_perm inserted).nil_eq.symm
    have hsorted := sortOps_append_newer hid (newer_of_not_behind hhead hbehind)
    have hids : DistinctIds inserted := by
      rw [DistinctIds, List.map_append] at hid
      exact hid.of_append_right
    have hstart : TreeCrdt.Follows NoopStorage.mk (t, doc.index) (sortOps ops, none) :=
      ⟨d, ⟨rfl, hmodels⟩, hd, rfl⟩
    obtain ⟨⟨head, affected⟩, ⟨t', index⟩, hrun, ⟨seq, hseq⟩, d', hs', hd', -⟩ :=
      TreeCrdt.applyIncrementalOpsWithDelta_follows hb hdirty hbehind (ascends_of_distinct hids)
        hlast _ hstart
    dsimp only at hseq hd'
    rw [← hsorted] at hd'
    subst hseq
    refine ⟨_, bind_of_ok (onCrdt_run ht hrun), rfl, rfl, ⟨d', hs'.doc, hd'⟩, ?_⟩
    rw [headOf, hsorted, List.getLast?_append, hlast]
    rfl

omit [DecidableEq Ref] [CompleteNodeStore N] in
/-- What waits for the next rebuild. -/
theorem kept_of_dirty (hlog : doc.ops.Sound) (htables : ∃ d, doc.Models d)
    (hdirty : doc.cursor.dirty = true) : doc.Kept where
  log := hlog
  tables := htables
  clean h := by
    rw [hdirty] at h
    cases h

omit [DecidableEq Ref] [CompleteNodeStore N] in
theorem Materialized.kept (h : doc.Materialized doc.ops.rows) (hlog : doc.ops.Sound) :
    doc.Kept where
  log := hlog
  tables := h.tables.imp fun _ hd => hd.1
  clean _ := h

omit [LawfulNodeStore N] [CompleteNodeStore N] in
theorem appendOps_refuses (hmissing : ops.any missingKnownState = true) :
    ∃ e, appendOps ops doc = some (.error e, doc) := by
  refine ⟨.storage "treecrdt_append_ops: delete op missing known_state", ?_⟩
  unfold appendOps atomically
  rw [if_pos hmissing]
  rfl

/-- A batch is appended: what cannot be applied on top waits. -/
theorem appendOps_returns (hb : (LawfulNodeStore.backend N).Rooted) (hdoc : doc.Kept)
    (hops : ∀ op ∈ ops, Storable op) (hmissing : ¬ ops.any missingKnownState = true) :
    ∃ inserted doc', appendOps ops doc = some (.ok (), doc') ∧
      insertOps ops doc.ops = some (.ok inserted, doc'.ops) ∧ doc'.Kept := by
  obtain ⟨inserted, hinsert, hsound⟩ := SqliteOpStorage.insertOps_returns hdoc.log hops
  let doc₁ : SqliteDoc N opRef := { doc with ops := ⟨doc.ops.rows ++ inserted⟩ }
  have hrun₁ : zoom SqliteDoc.ops (fun ops doc => { doc with ops }) (insertOps ops) doc =
      some (.ok inserted, doc₁) := zoom_of_ok hinsert
  -- Behind the inserts the call comes through.
  suffices h : ∃ doc', (do
      if inserted.isEmpty then return
      else if ← gets fun doc => doc.cursor.dirty then setDirty
      else orElse (materializeOpsInOrder inserted) fun _ => setDirty :
        Exec Error (SqliteDoc N opRef) Unit) doc₁ = some (.ok (), doc') ∧ doc'.Kept ∧
          doc'.ops = doc₁.ops by
    obtain ⟨doc', hrest, hkept, hsame⟩ := h
    refine ⟨inserted, doc', ?_, hsame ▸ hinsert, hkept⟩
    unfold appendOps atomically
    rw [if_neg hmissing, bind_of_ok hrun₁, hrest]
  cases inserted with
  | nil =>
    have hsame : doc₁ = doc := by
      show { doc with ops := ⟨doc.ops.rows ++ []⟩ } = doc
      rw [List.append_nil]
    exact ⟨doc₁, rfl, hsame ▸ hdoc, rfl⟩
  | cons op rest =>
    simp only [List.isEmpty_cons, Bool.false_eq_true, if_false]
    rw [gets_bind_run]
    have hlater : { doc₁ with cursor := { doc₁.cursor with dirty := true } }.Kept :=
      kept_of_dirty hsound hdoc.tables rfl
    cases hdirty : doc.cursor.dirty with
    | true => exact ⟨_, rfl, hlater, rfl⟩
    | false =>
      obtain ⟨htables, hhead⟩ := hdoc.clean hdirty
      have hdoc₁ : doc₁.Materialized doc.ops.rows := ⟨htables, hhead⟩
      obtain ⟨e, hrun⟩ | ⟨doc', hrun, hsame, -, hdoc'⟩ := materializeOpsInOrder_returns hb hdoc₁
        hdirty hsound.ids (List.cons_ne_nil op rest)
      · refine ⟨_, ?_, hlater, rfl⟩
        rw [if_neg Bool.false_ne_true, orElse, hrun]
        rfl
      · refine ⟨doc', ?_, Materialized.kept (hsame ▸ hdoc') (hsame ▸ hsound), hsame⟩
        rw [if_neg Bool.false_ne_true, orElse, hrun]

/-! ## Rebuilds -/

/-- A rebuild comes through from any tables. -/
theorem rebuildMaterialized_returns (hb : (LawfulNodeStore.backend N).Rooted)
    (hlog : doc.ops.Sound) (htables : ∃ d, doc.Models d) :
    ∃ doc', rebuildMaterialized doc = some (.ok (), doc') ∧ doc'.ops = doc.ops ∧
      doc'.cursor.dirty = false ∧ doc'.Materialized doc.ops.rows := by
  obtain ⟨d, hmodels⟩ := htables
  obtain ⟨counter, hcounter, -⟩ := SqliteOpStorage.latestCounter_ok (s := doc.ops) sqliteExt
  let t : TreeCrdt SqliteOpStorage LamportClock N MemoryPayloadStore := {
    replicaId := sqliteExt, storage := doc.ops
    clock := Clock.observe (Storage.latestLamport doc.ops) {}, counter, nodes := doc.nodes
    versionVector := .new, payloads := doc.payloads, head := none, opCount := 0 }
  have ht : TreeCrdt.withStores sqliteExt doc.ops {} doc.nodes doc.payloads = .ok t := by
    rw [TreeCrdt.withStores, hcounter]
    rfl
  have hderived : (TreeCrdt.replayedDoc (LawfulNodeStore.backend N) (sortOps doc.ops.rows)).Derived
      (LawfulNodeStore.backend N) (sortOps doc.ops.rows) := .replayed hb
  have hlisted := hderived.listed hb
  obtain ⟨_, ⟨t', index⟩, hrun, -, hs'⟩ := TreeCrdt.replayFromStorageWithMaterialization_runs
    (N := N) (I := OprefsChildren opRef) (C := LamportClock) hlog.scan (hderived.rows ▸ hlisted)
    (hderived.rows ▸ hderived.normal hb) CompleteNodeStore.allNodes d (t, doc.index) ⟨rfl, hmodels⟩
  obtain ⟨-, hhead⟩ := TreeCrdt.replayFromStorageWithMaterialization_over hlog.scan
    (s := (t, doc.index)) rfl hrun
  have hcrdt : onCrdt sqliteExt (fun doc => doc.ops) (fun _ doc => doc) (do
      TreeCrdt.replayFromStorageWithMaterialization
      TreeCrdt.onTree (gets fun t => (t.head, t.opCount))) doc =
        some (.ok (t'.head, t'.opCount),
          { doc with nodes := t'.nodes, payloads := t'.payloads, index }) :=
    onCrdt_run ht (bind_of_ok hrun)
  dsimp only at hhead
  have htables : ∃ d, ModelsDoc (t'.nodes, t'.payloads) d ∧
      d.Derived (LawfulNodeStore.backend N) (sortOps doc.ops.rows) := ⟨_, hs'.doc, hderived⟩
  unfold rebuildMaterialized atomically
  rw [bind_of_ok hcrdt]
  dsimp only
  rw [hhead]
  cases hlast : (sortOps doc.ops.rows).getLast? with
  | none => exact ⟨_, rfl, rfl, rfl, htables, by rw [headOf, hlast]; rfl⟩
  | some last => exact ⟨_, rfl, rfl, rfl, htables, by rw [headOf, hlast]; rfl⟩

/-- Whatever came before, the tables can be read as those of the log. -/
theorem ensureMaterialized_returns (hb : (LawfulNodeStore.backend N).Rooted) (hdoc : doc.Kept) :
    ∃ doc', ensureMaterialized doc = some (.ok (), doc') ∧ doc'.ops = doc.ops ∧
      doc'.cursor.dirty = false ∧ doc'.Materialized doc.ops.rows := by
  unfold ensureMaterialized
  rw [gets_bind_run]
  cases hdirty : doc.cursor.dirty with
  | true =>
    rw [if_pos rfl]
    exact rebuildMaterialized_returns hb hdoc.log hdoc.tables
  | false => exact ⟨doc, rfl, rfl, hdirty, hdoc.clean hdirty⟩

/-! ## Local operations -/

/-- An operation that is minted with this id and time: its row gives it back. -/
structure Minted (id : OperationId) (lamport : Lamport) (op : Operation) : Prop where
  id : op.metadata.id = id
  lamport : op.metadata.lamport = lamport
  row : opRow op = op
  payload : writesBytes op.kind

/-- What is left for an operation of a replica. -/
structure Room (s : SqliteOpStorage) (replica : ReplicaId) : Prop where
  lamport : (Storage.latestLamport s).toNat + 1 < 2 ^ 63
  counter : ∀ counter, Storage.latestCounter s replica = .ok counter → counter.toNat + 1 < 2 ^ 63

theorem toNat_succ {n : UInt64} (h : n.toNat + 1 < 2 ^ 63) : (n + 1).toNat = n.toNat + 1 := by
  rw [UInt64.toNat_add, UInt64.toNat_one, Nat.mod_eq_of_lt (by omega)]

/-- An operation that is minted over a log is new to it, and newer than all of it. -/
theorem Minted.newer {s : SqliteOpStorage} {replica : ReplicaId} {counter : UInt64} {op : Operation}
    (h : Minted ⟨replica, counter + 1⟩ (Storage.latestLamport s + 1) op)
    (hcounter : Storage.latestCounter s replica = .ok counter) (hroom : Room s replica)
    (hreplica : replica.bytes ≠ []) :
    Storable op ∧ (∀ row ∈ s.rows, row.metadata.id ≠ op.metadata.id) ∧
      ∀ row ∈ s.rows, row.key ≤ op.key := by
  have hlamport := toNat_succ hroom.lamport
  have hnext := toNat_succ (hroom.counter counter hcounter)
  have hlast := hroom.counter counter hcounter
  refine ⟨⟨?_, ?_, ?_, h.payload⟩, fun row hrow hid => ?_, fun row hrow => ?_⟩
  · rw [h.lamport]
    refine ⟨fun hzero => ?_, hlamport ▸ hroom.lamport⟩
    rw [hzero] at hlamport
    cases hlamport
  · rw [h.id]
    exact hnext ▸ hlast
  · rw [h.id]
    exact hreplica
  · -- The counter is behind every counter of the replica.
    obtain ⟨counter', hcounter', hle⟩ := SqliteOpStorage.latestCounter_ok (s := s) replica
    rw [hcounter] at hcounter'
    obtain rfl := Except.ok.inj hcounter'
    rw [h.id] at hid
    have := UInt64.le_iff_toNat_le.mp (hle row hrow (by rw [hid]))
    rw [hid, hnext] at this
    omega
  · have hle := UInt64.le_iff_toNat_le.mp (SqliteOpStorage.le_latestLamport hrow)
    refine (Prod.Lex.lt_iff.mpr (Or.inl ?_)).le
    show row.metadata.lamport.toNat < op.metadata.lamport.toNat
    rw [h.lamport, hlamport]
    omega

/-- What the tree mints next. -/
def Mints (t : TreeCrdt SqliteOpStorage LamportClock N MemoryPayloadStore) (op : Operation) : Prop :=
  Minted ⟨t.replicaId, t.counter + 1⟩ (t.clock.counter + 1) op

/-- A payload that an application writes has bytes. -/
def LocalOp.WritesBytes : LocalOp → Prop
  | .insert _ _ _ value => value ≠ some []
  | .payload _ value => value ≠ some []
  | _ => True

/-- The operation was minted, taken by the log, and applied. -/
def Committed (t : TreeCrdt SqliteOpStorage LamportClock N MemoryPayloadStore)
    (i : OprefsChildren opRef) (ops : List Operation) (op : Operation)
    (t' : TreeCrdt SqliteOpStorage LamportClock N MemoryPayloadStore) : Prop :=
  Mints t op ∧ ∃ storage', Storage.apply op t.storage = some (.ok true, storage') ∧
    TreeCrdt.Follows storage' (t', i) (ops ++ [op], some op)

omit [DecidableEq Ref] in
theorem LocalOp.build_follows (hb : (LawfulNodeStore.backend N).Rooted) {call : LocalOp}
    (hcall : call.WritesBytes)
    {t t' : TreeCrdt SqliteOpStorage LamportClock N MemoryPayloadStore} {i : OprefsChildren opRef}
    {head : Option Operation} (h : TreeCrdt.Follows t.storage (t, i) (ops, head))
    (htakes : ∀ op, Mints t op → ∃ storage', Storage.apply op t.storage = some (.ok true, storage'))
    {built : Operation × LocalFinalizePlan} (hrun : call.build t = some (.ok built, t')) :
    Committed t i ops built.1 t' := by
  -- The reads before it leave the tree what it mints.
  have hlocal : ∀ {build : ReplicaId → UInt64 → Lamport → Exec Error N Operation} {n : N}
      {op : Operation} {t' : TreeCrdt SqliteOpStorage LamportClock N MemoryPayloadStore},
      TreeCrdt.Follows t.storage (({ t with nodes := n } :
        TreeCrdt SqliteOpStorage LamportClock N MemoryPayloadStore), i) (ops, head) →
      (∀ r f, Acyclic r.listed → r.Normal →
        Keeps (fun n => LawfulNodeStore.Models n (r, f)) (fun _ => True)
          (build t.replicaId (t.counter + 1) (t.clock.counter + 1)) (Mints t)) →
      TreeCrdt.localOp build { t with nodes := n } = some (.ok op, t') → Committed t i ops op t' := by
    intro build n op t' hstart hbuild hop
    exact TreeCrdt.localOp_follows (t := { t with nodes := n }) (Q := Mints t) hb hstart hbuild htakes hop
  cases call with
  | insert parent node placement value =>
    obtain ⟨after, t₁, hafter, hrun⟩ := bind_ok hrun
    obtain ⟨⟨n, rfl⟩, h₁, -⟩ := TreeCrdt.onNodes_reads hb h (fun r f hr hn =>
      TreeCrdt.resolveAfterForPlacement_keeps hr hn f parent placement none) hafter
    cases value with
    | none =>
      obtain ⟨op, t₂, hop, hrun⟩ := bind_ok hrun
      cases hrun
      refine hlocal h₁ (fun r f hr hn => ?_) hop
      exact (TreeCrdt.childKey_keeps hr hn f _ _ _ _).bind fun key _ => Keeps.pure
        ⟨rfl, rfl, rfl, nofun⟩
    | some payload =>
      obtain ⟨op, t₂, hop, hrun⟩ := bind_ok hrun
      cases hrun
      refine hlocal h₁ (fun r f hr hn => ?_) hop
      exact (TreeCrdt.childKey_keeps hr hn f _ _ _ _).bind fun key _ => Keeps.pure
        ⟨rfl, rfl, rfl, hcall⟩
  | move node newParent placement =>
    obtain ⟨oldParent, t₁, hparent, hrun⟩ := bind_ok hrun
    obtain ⟨⟨n, rfl⟩, h₁, -⟩ := TreeCrdt.onNodes_reads hb h
      (Q := fun _ => True)
      (fun r f hr hn => ((parent_runs hr hn f node).imp fun _ _ => trivial).keeps_self) hparent
    obtain ⟨after, t₂, hafter, hrun⟩ := bind_ok hrun
    obtain ⟨⟨n', rfl⟩, h₂, -⟩ := TreeCrdt.onNodes_reads hb h₁ (fun r f hr hn =>
      TreeCrdt.resolveAfterForPlacement_keeps hr hn f newParent placement (some node)) hafter
    obtain ⟨op, t₃, hop, hrun⟩ := bind_ok hrun
    have hcommitted : Committed t i ops op t₃ := by
      refine hlocal h₂ (fun r f hr hn => ?_) hop
      exact (TreeCrdt.childKey_keeps hr hn f _ _ _ _).bind fun key _ => Keeps.pure
        ⟨rfl, rfl, rfl, trivial⟩
    split at hrun
    · obtain ⟨writer, t₄, hwriter, hrun⟩ := bind_ok hrun
      obtain ⟨payloads, hlast, rfl⟩ := zoom_some
        (show TreeCrdt.onPayloads (PayloadStore.lastWriter node) t₃ = _ from hwriter)
      obtain ⟨-, rfl⟩ := Prod.mk.inj (Option.some.inj hlast)
      cases writer with
      | none =>
        cases hrun
        exact hcommitted
      | some w =>
        cases hrun
        exact hcommitted
    · cases hrun
      exact hcommitted
  | delete node =>
    obtain ⟨oldParent, t₁, hparent, hrun⟩ := bind_ok hrun
    obtain ⟨⟨n, rfl⟩, h₁, -⟩ := TreeCrdt.onNodes_reads hb h
      (Q := fun _ => True)
      (fun r f hr hn => ((parent_runs hr hn f node).imp fun _ _ => trivial).keeps_self) hparent
    obtain ⟨op, t₂, hop, hrun⟩ := bind_ok hrun
    cases hrun
    refine hlocal h₁ (fun r f hr hn => ?_) hop
    exact (subtreeVersionVector_runs hr hn f node).keeps_self.bind fun vv _ => Keeps.pure
      ⟨rfl, rfl, rfl, trivial⟩
  | payload node value =>
    obtain ⟨parent, t₁, hparent, hrun⟩ := bind_ok hrun
    obtain ⟨⟨n, rfl⟩, h₁, -⟩ := TreeCrdt.onNodes_reads hb h
      (Q := fun _ => True)
      (fun r f hr hn => ((parent_runs hr hn f node).imp fun _ _ => trivial).keeps_self) hparent
    cases value with
    | none =>
      obtain ⟨op, t₂, hop, hrun⟩ := bind_ok hrun
      cases hrun
      exact hlocal h₁ (fun r f hr hn => Keeps.pure ⟨rfl, rfl, rfl, nofun⟩) hop
    | some payload =>
      obtain ⟨op, t₂, hop, hrun⟩ := bind_ok hrun
      cases hrun
      exact hlocal h₁ (fun r f hr hn => Keeps.pure ⟨rfl, rfl, rfl, hcall⟩) hop

/-- The records behind a local operation come through. -/
theorem finishLocal_follows (hb : (LawfulNodeStore.backend N).Rooted) {storage : SqliteOpStorage}
    {head : Option Operation} (op : Operation) (headSeq : UInt64) (plan : LocalFinalizePlan)
    {s : TreeCrdt SqliteOpStorage LamportClock N MemoryPayloadStore × OprefsChildren opRef}
    (hs : TreeCrdt.Follows storage s (ops, head)) :
    ∃ n s', finishLocal op headSeq plan s = some (.ok (some n), s') ∧
      TreeCrdt.Follows storage s' (ops, head) := by
  obtain ⟨n, s', hrun, -, hs'⟩ := TreeCrdt.finalizeLocalWithPlan_follows hb op headSeq plan s hs
  have hreturn : (TreeCrdt.finalizeLocalWithPlan op headSeq plan >>= fun seq =>
      return some seq : Exec Error (TreeCrdt SqliteOpStorage LamportClock N MemoryPayloadStore ×
        OprefsChildren opRef) (Option UInt64)) s = some (.ok (some n), s') := bind_of_ok hrun
  exact ⟨n, s', orElse_of_ok hreturn, hs'⟩

/-- A session over materialized tables that returns: its operation is the newest of the log and
applied, and its records came through. -/
theorem localSession_follows (hb : (LawfulNodeStore.backend N).Rooted) (hlog : doc.ops.Sound)
    (htables : ∃ d, doc.Models d ∧ d.Derived (LawfulNodeStore.backend N) (sortOps doc.ops.rows))
    {replica : ReplicaId} {call : LocalOp} {headSeq : UInt64} (hreplica : replica.bytes ≠ [])
    (hcall : call.WritesBytes) (hroom : Room doc.ops replica) {op : Operation} {seq : Option UInt64}
    (hrun : onCrdt replica (fun doc => doc.ops) (fun ops doc => { doc with ops })
      (localSession call headSeq) doc = some (.ok (op, seq), doc')) :
    doc'.ops.rows = doc.ops.rows ++ [op] ∧ doc'.ops.Sound ∧ seq.isSome ∧
      (∃ d, doc'.Models d ∧ d.Derived (LawfulNodeStore.backend N) (sortOps doc'.ops.rows)) ∧
        (sortOps doc'.ops.rows).getLast? = some op := by
  obtain ⟨d, hmodels, hd⟩ := htables
  obtain ⟨counter, hcounter, -⟩ := SqliteOpStorage.latestCounter_ok (s := doc.ops) replica
  let t : TreeCrdt SqliteOpStorage LamportClock N MemoryPayloadStore := {
    replicaId := replica, storage := doc.ops
    clock := Clock.observe (Storage.latestLamport doc.ops) {}, counter, nodes := doc.nodes
    versionVector := .new, payloads := doc.payloads, head := none, opCount := 0 }
  have ht : TreeCrdt.withStores replica doc.ops {} doc.nodes doc.payloads = .ok t := by
    rw [TreeCrdt.withStores, hcounter]
    rfl
  have hmints : ∀ op, Mints t op → Storable op ∧
      (∀ row ∈ doc.ops.rows, row.metadata.id ≠ op.metadata.id) ∧
        ∀ row ∈ doc.ops.rows, row.key ≤ op.key := fun op hop => by
    have hclock : t.clock.counter = Storage.latestLamport doc.ops := by
      show (if (0 : UInt64) ≤ Storage.latestLamport doc.ops then Storage.latestLamport doc.ops
        else 0) = _
      exact if_pos UInt64.zero_le
    unfold Mints at hop
    rw [hclock] at hop
    exact hop.newer hcounter hroom hreplica
  rw [onCrdt, ht] at hrun
  obtain ⟨⟨r, t', index⟩, hsession, heq⟩ := Option.map_eq_some_iff.mp hrun
  cases heq
  obtain ⟨built, s₁, htree, hsession⟩ := bind_ok hsession
  obtain ⟨t₁, hbuild, rfl⟩ := zoom_some htree
  have hstart : TreeCrdt.Follows t.storage (t, doc.index) (sortOps doc.ops.rows, none) :=
    ⟨d, ⟨rfl, hmodels⟩, hd, rfl⟩
  obtain ⟨hminted, storage', happly, hfollows⟩ := LocalOp.build_follows hb hcall hstart
    (fun op hop => ⟨_, SqliteOpStorage.apply_new (hmints op hop).2.1⟩) hbuild
  obtain ⟨hstorable, hnew, hnewer⟩ := hmints _ hminted
  have hstorage : storage' = ⟨doc.ops.rows ++ [built.1]⟩ := by
    rw [SqliteOpStorage.apply_new hnew, hminted.row] at happly
    cases happly
    rfl
  subst hstorage
  obtain ⟨seq', s₂, hfinal, hsession⟩ := bind_ok hsession
  obtain ⟨n, s₃, hrecords, hfinished⟩ := finishLocal_follows hb built.1 headSeq built.2 hfollows
  obtain ⟨hseq, rfl⟩ := Prod.mk.inj (Option.some.inj (hfinal.symm.trans hrecords))
  obtain rfl := Except.ok.inj hseq
  cases hsession
  obtain ⟨d', hs', hd', -⟩ := hfinished
  have hsound := hlog.append hstorable hnew
  have hsorted : sortOps (doc.ops.rows ++ [built.1]) = sortOps doc.ops.rows ++ sortOps [built.1] :=
    sortOps_append_newer hsound.ids fun row hrow op hop =>
      List.mem_singleton.mp hop ▸ hnewer row hrow
  rw [sortOps_of_sorted (List.pairwise_singleton _ _)] at hsorted
  have hops : t'.storage = ⟨doc.ops.rows ++ [built.1]⟩ := hs'.storage
  refine ⟨congrArg SqliteOpStorage.rows hops, ?_, rfl, ⟨d', hs'.doc, ?_⟩, ?_⟩
  · show t'.storage.Sound
    rw [hops]
    exact hsound
  · show d'.Derived _ (sortOps t'.storage.rows)
    rw [hops, hsorted]
    exact hd'
  · show (sortOps t'.storage.rows).getLast? = _
    rw [hops, hsorted, List.getLast?_concat]

/-- A local operation fails and leaves the document as it was, or it is the newest operation of the
log and applied. -/
theorem runLocalCoreOp_kept (hb : (LawfulNodeStore.backend N).Rooted) (hdoc : doc.Kept)
    {replica : ReplicaId} {call : LocalOp} (hreplica : replica.bytes ≠ [])
    (hcall : call.WritesBytes) (hroom : Room doc.ops replica) {r : Except Error Operation}
    (hrun : runLocalCoreOp replica call doc = some (r, doc')) :
    (doc' = doc ∧ ∃ e, r = .error e) ∨
      ∃ op, r = .ok op ∧ doc'.ops.rows = doc.ops.rows ++ [op] ∧ doc'.cursor.dirty = false ∧
        doc'.Kept := by
  cases r with
  | error e =>
    left
    obtain rfl | ⟨_, he, -⟩ := atomically_some hrun
    · exact ⟨rfl, e, rfl⟩
    · cases he
  | ok op =>
    right
    have hrun := atomically_ok hrun
    obtain ⟨doc₁, hensure, hops, hclean, hdoc₁⟩ := ensureMaterialized_returns hb hdoc
    rw [bind_of_ok hensure, gets_bind_run] at hrun
    rw [← hops] at hdoc₁ hroom ⊢
    obtain ⟨⟨op', seq⟩, doc₂, hcrdt, hrun⟩ := bind_ok hrun
    obtain ⟨hrows, hsound, hseq, htables, hlast⟩ := localSession_follows hb (hops ▸ hdoc.log)
      hdoc₁.tables hreplica hcall hroom hcrdt
    obtain ⟨seq, rfl⟩ := Option.isSome_iff_exists.mp hseq
    cases hrun
    refine ⟨op, rfl, hrows, rfl, Materialized.kept ⟨htables, ?_⟩ hsound⟩
    rw [headOf, hlast]
    rfl

/-! ## Runs -/

/-- Calls one after the other, whether they fail or not. -/
inductive DocRun (start : SqliteDoc N opRef) : SqliteDoc N opRef → Prop
  | start : DocRun start start
  | append {doc doc' : SqliteDoc N opRef} {ops : List Operation} {r : Except Error Unit}
      (before : DocRun start doc) (storable : ∀ op ∈ ops, Storable op)
      (next : appendOps ops doc = some (r, doc')) : DocRun start doc'
  | localOp {doc doc' : SqliteDoc N opRef} {replica : ReplicaId} {call : LocalOp}
      {r : Except Error Operation} (before : DocRun start doc) (named : replica.bytes ≠ [])
      (writes : call.WritesBytes) (room : Room doc.ops replica)
      (next : runLocalCoreOp replica call doc = some (r, doc')) : DocRun start doc'
  | read {doc doc' : SqliteDoc N opRef} {r : Except Error Unit} (before : DocRun start doc)
      (next : ensureMaterialized doc = some (r, doc')) : DocRun start doc'

theorem DocRun.kept (hb : (LawfulNodeStore.backend N).Rooted) {start : SqliteDoc N opRef}
    (hstart : start.Kept) (hrun : DocRun start doc) : doc.Kept := by
  induction hrun with
  | start => exact hstart
  | @append doc doc' ops r _ hops hnext ih =>
    by_cases hmissing : ops.any missingKnownState = true
    · obtain ⟨e, hrefused⟩ : ∃ e, appendOps ops doc = some (.error e, doc) :=
        appendOps_refuses hmissing
      rw [hrefused] at hnext
      cases hnext
      exact ih
    · obtain ⟨_, _, hreturns, -, hkept⟩ := appendOps_returns hb ih hops hmissing
      rw [hreturns] at hnext
      cases hnext
      exact hkept
  | localOp _ hreplica hcall hroom hnext ih =>
    obtain ⟨rfl, -⟩ | ⟨-, -, -, -, hkept⟩ := runLocalCoreOp_kept hb ih hreplica hcall hroom hnext
    · exact ih
    · exact hkept
  | read _ hnext ih =>
    obtain ⟨_, hreturns, hops, -, hdoc⟩ := ensureMaterialized_returns hb ih
    rw [hreturns] at hnext
    cases hnext
    exact Materialized.kept (hops ▸ hdoc) (hops ▸ ih.log)

/-! ## Documents of one log -/

/-- The same is read of two documents, and they have the same head. -/
structure ReadsAs (doc doc' : SqliteDoc N opRef) : Prop where
  nodes : StoresAgree id doc.nodes doc'.nodes
  payload : ∀ n, (doc.payloads.entries.lookup n).bind (·.payload) =
    (doc'.payloads.entries.lookup n).bind (·.payload)
  lastWriter : ∀ n, (doc.payloads.entries.lookup n).bind (·.lastWriter) =
    (doc'.payloads.entries.lookup n).bind (·.lastWriter)
  head : cursorHead doc.cursor = cursorHead doc'.cursor

/-- Every node of the first store has the same cached tombstone in both. -/
def TombstonesAgree (s s' : N) : Prop :=
  ∀ node x t, readNode node s = some (.ok (some x), t) → ∃ b u u',
    NodeStore.tombstone node s = some (.ok b, u) ∧ NodeStore.tombstone node s' = some (.ok b, u')

omit [DecidableEq Ref] [CompleteNodeStore N] in
/-- Whatever is materialized from the same operations reads the same. -/
theorem Materialized.readsAs (hknows : KnowsRows N) {ops' : List Operation}
    (h : doc.Materialized ops) (h' : doc'.Materialized ops') (hid : DistinctIds ops)
    (hperm : ops.Perm ops') :
    ReadsAs doc doc' ∧ ((∀ op ∈ ops, ¬ op.kind.node.special) →
      TombstonesAgree doc.nodes doc'.nodes) := by
  obtain ⟨⟨d, hmodels, hd⟩, hhead⟩ := h
  obtain ⟨⟨d', hmodels', hd'⟩, hhead'⟩ := h'
  have hsorted := sortOps_eq_of_perm hperm hid
  rw [← hsorted] at hd'
  obtain ⟨hrows, hpayloads, hflags⟩ := hd.unique hd'
  have hplain : (∀ op ∈ ops, ¬ op.kind.node.special) → d.flags = d'.flags := fun hplain =>
    hflags fun op hop => hplain op ((sortOps_perm ops).mem_iff.mp hop)
  refine ⟨⟨?_, fun n => ?_, fun n => ?_, ?_⟩, fun hops node x t hread => ?_⟩
  · exact storesAgree_of_readAlike hknows hknows hmodels.1 hmodels'.1 (hrows ▸ Rows.readAlike_self)
  · rw [(hmodels.2 n).1, (hmodels'.2 n).1, hpayloads]
  · rw [(hmodels.2 n).2, (hmodels'.2 n).2, hpayloads]
  · rw [hhead, hhead', headOf, headOf, hsorted]
  · obtain ⟨x', t', hread', hreads, -⟩ := readNode_runs hknows d.rows d.flags node _ hmodels.1
    rw [hread] at hread'
    cases hread'
    have hsome : (d.rows node).isSome := hreads.1
    obtain ⟨b, u, hb, rfl, -⟩ := LawfulNodeStore.tombstone d.rows d.flags node hsome _ hmodels.1
    obtain ⟨b', u', hb', rfl, -⟩ := LawfulNodeStore.tombstone d'.rows d'.flags node
      (hrows ▸ hsome) _ hmodels'.1
    rw [← congrFun (hplain hops) node] at hb'
    exact ⟨_, u, u', hb, hb'⟩

omit [DecidableEq Ref] [CompleteNodeStore N] in
theorem new_kept {nodes : N} (hnodes : LawfulNodeStore.Models nodes (Rows.initial, fun _ => false)) :
    (SqliteDoc.new opRef nodes).Kept := by
  have hmodels : (SqliteDoc.new opRef nodes).Models Doc.initial :=
    ⟨hnodes, MemoryPayloadStore.default_models⟩
  refine Materialized.kept ⟨⟨_, hmodels, ?_⟩, ?_⟩ SqliteOpStorage.Sound.new
  · show Doc.initial.Derived _ (sortOps [])
    rw [sortOps_nil]
    exact .initial
  · show _ = headOf []
    rw [headOf, sortOps_nil]
    rfl

end SqliteDoc

end

/-! ## Over the SQLite tables -/

section

open SqliteDoc SqliteExt

variable {Ref : Type} [DecidableEq Ref] {opRef : OperationId → Ref}
  {doc doc₁ doc₂ : SqliteDoc SqliteNodeStore opRef}

theorem run_kept (hrun : DocRun (SqliteDoc.new opRef SqliteNodeStore.new) doc) : doc.Kept :=
  hrun.kept sqlite_rooted (new_kept SqliteNodeStore.new_models)

def firstInsert : Operation := .insert ⟨[1]⟩ 1 1 NodeId.ROOT ⟨1⟩ [7]

def secondInsert : Operation := .insert ⟨[2]⟩ 1 2 NodeId.ROOT ⟨2⟩ [9]

theorem firstInsert_storable : Storable firstInsert :=
  ⟨by decide, by decide, by decide, nofun⟩

theorem secondInsert_storable : Storable secondInsert :=
  ⟨by decide, by decide, by decide, nofun⟩

def freshDoc : SqliteDoc SqliteNodeStore (fun id : OperationId => id) :=
  SqliteDoc.new _ SqliteNodeStore.new

/-- A batch goes on with a run. -/
theorem exists_appended {ops inserted : List Operation} {table : SqliteOpStorage}
    {doc : SqliteDoc SqliteNodeStore (fun id : OperationId => id)}
    (hops : ∀ op ∈ ops, Storable op) (hmissing : ¬ ops.any missingKnownState = true)
    (hrun : DocRun freshDoc doc) (hinsert : insertOps ops doc.ops = some (.ok inserted, table)) :
    ∃ doc', DocRun freshDoc doc' ∧ doc'.ops = table := by
  obtain ⟨inserted', doc', hreturns, hinsert', -⟩ := appendOps_returns sqlite_rooted (run_kept hrun)
    hops hmissing
  obtain ⟨-, hsame⟩ := Prod.mk.inj (Option.some.inj (hinsert'.symm.trans hinsert))
  exact ⟨doc', .append hrun hops hreturns, hsame⟩

theorem exists_batchRun :
    ∃ doc, DocRun freshDoc doc ∧ doc.ops = ⟨[firstInsert, secondInsert]⟩ :=
  exists_appended (List.forall_mem_cons.mpr ⟨firstInsert_storable,
    List.forall_mem_singleton.mpr secondInsert_storable⟩) (by decide) .start rfl

theorem exists_singleRun :
    ∃ doc, DocRun freshDoc doc ∧ doc.ops = ⟨[secondInsert, firstInsert]⟩ := by
  obtain ⟨doc, hrun, hops⟩ : ∃ doc, DocRun freshDoc doc ∧ doc.ops = ⟨[secondInsert]⟩ :=
    exists_appended (List.forall_mem_singleton.mpr secondInsert_storable) (by decide) .start rfl
  have hinsert : insertOps [firstInsert] doc.ops =
      some (.ok [firstInsert], ⟨[secondInsert, firstInsert]⟩) := by
    rw [hops]
    rfl
  exact exists_appended (List.forall_mem_singleton.mpr firstInsert_storable) (by decide) hrun hinsert

end

end Sync

end Treecrdt
