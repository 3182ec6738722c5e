import TreecrdtLean.Spec.Doc

/-!
# The stores refine the document

`LawfulNodeStore` and `LawfulPayloadStore` say what a backend promises: each of its methods is an
operation on rows. From that alone `applyForward` refines `Doc.apply`: it always returns, and the
cycle walk decides `Rows.Cyclic`, as long as the parents are a forest.
-/

namespace Treecrdt

open Exec Forest

/-- The children of a node, in order. -/
structure Rows.IsChildren (r : Rows) (p : NodeId) (l : List NodeId) : Prop where
  mem : ∀ c, c ∈ l ↔ p ≠ NodeId.TRASH ∧ r.parent c = some p
  sorted : l.Pairwise fun c d =>
    toLex (((r.orderKey c).getD []).nats, c) < toLex (((r.orderKey d).getD []).nats, d)

/-- Two lists of the children of a node are one. -/
theorem Rows.IsChildren.unique {r : Rows} {p : NodeId} {l l' : List NodeId}
    (h : r.IsChildren p l) (h' : r.IsChildren p l') : l = l' := by
  have hnd : ∀ {l}, r.IsChildren p l → l.Nodup := fun h =>
    h.sorted.imp fun hlt he => by subst he; exact lt_irrefl _ hlt
  have hperm : l.Perm l' := (List.perm_ext_iff_of_nodup (hnd h) (hnd h')).mpr fun c =>
    (h.mem c).trans (h'.mem c).symm
  exact hperm.eq_of_pairwise (fun c d _ _ hcd hdc => absurd (hcd.trans hdc) (lt_irrefl _))
    h.sorted h'.sorted

/-- A node store whose methods are operations on rows and flags. -/
class LawfulNodeStore (N : Type) [NodeStore N] where
  backend : Backend
  /-- The rows and the cached tombstones that a store stands for. -/
  Models : N → Rows × (NodeId → Bool) → Prop
  reset : ∀ a, Runs Models a NodeStore.reset (fun _ => True) (Rows.initial, fun _ => false)
  ensureNode : ∀ r f n,
    Runs Models (r, f) (NodeStore.ensureNode n) (fun _ => True) (r.ensure n, f)
  nodeExists : ∀ r f n, Runs Models (r, f) (NodeStore.nodeExists n)
    (fun b => (b = true → (r n).isSome) ∧
      (b = false → r.row n = .blank n ∧ ∀ c, r.parent c ≠ some n)) (r, f)
  parent : ∀ r f n, Runs Models (r, f) (NodeStore.parent n) (· = r.parent n) (r, f)
  orderKey : ∀ r f n, Runs Models (r, f) (NodeStore.orderKey n)
    (fun key => n ≠ NodeId.ROOT → key = r.orderKey n) (r, f)
  children : ∀ r f n, (r n).isSome →
    Runs Models (r, f) (NodeStore.children n) (r.IsChildren n) (r, f)
  detachAttach : ∀ r f n p key, (r n).isSome → (r p).isSome → n ≠ p ∨ p = NodeId.TRASH →
    Runs Models (r, f) (do NodeStore.detach n; NodeStore.attach n p key) (fun _ => True)
      (r.reparent backend n p key, f)
  tombstone : ∀ r f n, (r n).isSome →
    Runs Models (r, f) (NodeStore.tombstone n) (· = f n) (r, f)
  setTombstone : ∀ r f n b, (r n).isSome →
    Runs Models (r, f) (NodeStore.setTombstone n b) (fun _ => True) (r, Function.update f n b)
  lastChange : ∀ r f n, (r n).isSome →
    Runs Models (r, f) (NodeStore.lastChange n) (· = (r.row n).lastChange) (r, f)
  mergeLastChange : ∀ r f n delta, (r n).isSome →
    Runs Models (r, f) (NodeStore.mergeLastChange n delta) (fun _ => True)
      (r.modify n fun row => { row with lastChange := row.lastChange.merge delta }, f)
  deletedAt : ∀ r f n, (r n).isSome →
    Runs Models (r, f) (NodeStore.deletedAt n) (· = (r.row n).deletedAt) (r, f)
  mergeDeletedAt : ∀ r f n delta, (r n).isSome →
    Runs Models (r, f) (NodeStore.mergeDeletedAt n delta) (fun _ => True)
      (r.mergeDeletedAt backend n delta, f)
  parentAndHasDeletedAt : ∀ r f n,
    Runs Models (r, f) (NodeStore.parentAndHasDeletedAt n)
      (fun o => o.isSome → (r n).isSome ∧ o = some (r.parent n, (r.row n).deletedAt.isSome)) (r, f)
  /-- A parent has a row. -/
  parent_isSome : ∀ s r f, Models s (r, f) → ∀ n p, r.parent n = some p → (r p).isSome

/-- A payload store whose methods are operations on payload rows. -/
class LawfulPayloadStore (P : Type) [PayloadStore P] where
  Models : P → (NodeId → PayloadRow) → Prop
  reset : ∀ p, Runs Models p PayloadStore.reset (fun _ => True) (fun _ => {})
  payload : ∀ p n, Runs Models p (PayloadStore.payload n) (· = (p n).payload) p
  lastWriter : ∀ p n, Runs Models p (PayloadStore.lastWriter n) (· = (p n).lastWriter) p
  setPayload : ∀ p n payload writer,
    Runs Models p (PayloadStore.setPayload n payload writer) (fun _ => True)
      (Function.update p n { payload, lastWriter := some writer })

variable {N P : Type} [NodeStore N] [PayloadStore P] [LawfulNodeStore N] [LawfulPayloadStore P]

/-! ## The cycle check -/

theorem walkLimit_eq : walkLimit = Nat.card NodeId + 1 := by
  rw [Nat.card_eq_fintype_card, NodeId.card_eq, walkLimit]

/-- The walk is no longer than the path that is left above `n`. -/
theorem cycleWalk_runs {r : Rows} (hr : Acyclic r.up) (f : NodeId → Bool) (node : NodeId) :
    ∀ steps n, depth r.up n < steps →
      Runs LawfulNodeStore.Models (r, f) (cycleWalk node steps (some n) : Exec Error N Bool)
        (fun b => b = true ↔ Above r.up n node) (r, f) := by
  intro steps
  induction steps with
  | zero => intro n h; omega
  | succ steps ih =>
    intro n hn
    unfold cycleWalk
    split_ifs with h1 h2
    · exact Runs.pure (by simp [h1, Above, Relation.ReflTransGen.refl])
    · refine Runs.pure ?_
      rw [above_iff]
      simp [h1, Rows.up_special h2]
    · refine (LawfulNodeStore.parent r f n).bind fun parent hp => ?_
      subst hp
      have hup : r.up n = r.parent n := if_neg h2
      rcases hpar : r.parent n with _ | m
      · unfold cycleWalk
        refine Runs.pure ?_
        rw [above_iff]
        simp [h1, hup, hpar]
      · have hm : r.up n = some m := hup.trans hpar
        refine (ih m ?_).imp fun b hb => ?_
        · have := hr.depth_lt hm
          omega
        · rw [hb, above_iff (a := n)]
          simp [h1, hm]

theorem introducesCycle_runs {r : Rows} (hr : Acyclic r.up) (f : NodeId → Bool)
    (node parent : NodeId) :
    Runs LawfulNodeStore.Models (r, f) (introducesCycle node parent : Exec Error N Bool)
      (fun b => b = true ↔ r.Cyclic node parent) (r, f) := by
  unfold introducesCycle
  split_ifs with h
  · exact Runs.pure (by simp [Rows.Cyclic, h])
  · refine (cycleWalk_runs hr f node walkLimit parent ?_).imp fun b hb => ?_
    · have := hr.depth_lt_card parent
      rw [walkLimit_eq]
      omega
    · rw [hb, Rows.Cyclic, and_iff_right h]

/-! ## The node operations -/

namespace Rows

theorem modify_modify (r : Rows) (n : NodeId) (f g : Row → Row) :
    (r.modify n f).modify n g = r.modify n (g ∘ f) := by
  unfold modify
  rw [Function.update_self, Function.update_idem, Option.map_map]

end Rows

theorem updateLastChange_runs {r : Rows} (f : NodeId → Bool) (op : Operation) {n : NodeId}
    (hn : (r n).isSome) :
    Runs LawfulNodeStore.Models (r, f) (updateLastChange op n : Exec Error N Unit)
      (fun _ => True) (r.touch op n, f) := by
  unfold updateLastChange
  refine (LawfulNodeStore.mergeLastChange r f n _ hn).bind fun _ _ => ?_
  rcases hk : op.metadata.knownState with _ | knownState
  · have : r.touch op n = r.modify n fun row =>
        { row with lastChange := row.lastChange.merge (operationVersionVector op) } := by
      simp only [Rows.touch, touchVersion, hk]
    rw [this]
    exact Runs.pure trivial
  · have : r.touch op n = (r.modify n fun row =>
        { row with lastChange := row.lastChange.merge (operationVersionVector op) }).modify n
          fun row => { row with lastChange := row.lastChange.merge knownState } := by
      rw [Rows.modify_modify]
      simp only [Rows.touch, touchVersion, hk]
      rfl
    rw [this]
    exact LawfulNodeStore.mergeLastChange _ f n _ (Rows.isSome_modify.mpr hn)

theorem isSome_reparent {b : Backend} {r : Rows} {n p m : NodeId} {key : Bytes} :
    ((r.reparent b n p key) m).isSome ↔ (r m).isSome := by
  unfold Rows.reparent
  split
  · rfl
  · exact Rows.isSome_modify

/-- `detach` and `attach`, and what follows them. -/
theorem reparent_runs {r : Rows} {f : NodeId → Bool} {n p : NodeId} {key : Bytes} {α : Type}
    {c : Exec Error N α} {Q : α → Prop} {a' : Rows × (NodeId → Bool)} (hn : (r n).isSome)
    (hp : (r p).isSome) (hnp : n ≠ p ∨ p = NodeId.TRASH)
    (hc : Runs LawfulNodeStore.Models (r.reparent (LawfulNodeStore.backend N) n p key, f) c Q a') :
    Runs LawfulNodeStore.Models (r, f)
      (do NodeStore.detach n; NodeStore.attach n p key; c) Q a' := by
  have := (LawfulNodeStore.detachAttach r f n p key hn hp hnp).bind fun _ _ => hc
  rwa [Exec.bind_assoc] at this

theorem applyInsert_runs {r : Rows} (hr : Acyclic r.up) (f : NodeId → Bool) (op : Operation)
    (parent node : NodeId) (key : Bytes) :
    Runs LawfulNodeStore.Models (r, f) (applyInsert op parent node key : Exec Error N Unit)
      (fun _ => True) (r.insert (LawfulNodeStore.backend N) op parent node key, f) := by
  unfold applyInsert Rows.insert
  split_ifs with h1 h2 h3
  · exact Runs.pure trivial
  · exact absurd (Or.inl h1) h2
  · refine (introducesCycle_runs hr f node parent).bind fun b hb => ?_
    rw [if_pos (hb.mpr (h3.resolve_left h1))]
    exact Runs.pure trivial
  · refine (introducesCycle_runs hr f node parent).bind fun b hb => ?_
    rw [if_neg fun hbt => h3 (Or.inr (hb.mp hbt))]
    set r' := (r.ensure parent).ensure node with hr'
    have hnode : (r' node).isSome := Rows.isSome_ensure.mpr (Or.inl rfl)
    have hparent : (r' parent).isSome :=
      Rows.isSome_ensure.mpr (Or.inr (Rows.isSome_ensure.mpr (Or.inl rfl)))
    refine (LawfulNodeStore.ensureNode r f parent).bind fun _ _ => ?_
    refine (LawfulNodeStore.ensureNode _ f node).bind fun _ _ => ?_
    refine reparent_runs hnode hparent (Or.inl fun he => h1 he.symm) ?_
    refine (updateLastChange_runs f op (isSome_reparent.mpr hnode)).bind fun _ _ => ?_
    refine updateLastChange_runs f op ?_
    exact Rows.isSome_modify.mpr (isSome_reparent.mpr hparent)

theorem touchMoved_runs {r : Rows} (f : NodeId → Bool) (op : Operation) {node newParent : NodeId}
    {oldParent : Option NodeId} (hn : (r node).isSome) (hp : (r newParent).isSome)
    (ho : ∀ p, oldParent = some p → (r p).isSome) :
    Runs LawfulNodeStore.Models (r, f)
      (touchMoved op node newParent oldParent : Exec Error N Unit) (fun _ => True)
      (r.touchMoved op node newParent oldParent, f) := by
  unfold touchMoved Rows.touchMoved
  refine (updateLastChange_runs f op hn).bind fun _ _ => ?_
  have hkeep : ∀ {r' : Rows} {m k : NodeId}, (r' m).isSome → ((r'.touch op k) m).isSome :=
    fun h => Rows.isSome_modify.mpr h
  have hlast : ∀ {r' : Rows}, (r' newParent).isSome →
      Runs LawfulNodeStore.Models (r', f)
        (if newParent ≠ NodeId.TRASH then (updateLastChange op newParent : Exec Error N Unit)
          else pure PUnit.unit) (fun _ => True)
        (if newParent ≠ NodeId.TRASH then r'.touch op newParent else r', f) := by
    intro r' h
    split
    · exact updateLastChange_runs f op h
    · exact Runs.pure trivial
  rcases oldParent with _ | oldP
  · exact hlast (hkeep hp)
  · simp only
    split
    · exact (updateLastChange_runs f op (hkeep (ho oldP rfl))).bind fun _ _ =>
        hlast (hkeep (hkeep hp))
    · exact hlast (hkeep hp)

theorem applyMove_runs {r : Rows} (hr : Acyclic r.up) (f : NodeId → Bool) (op : Operation)
    (node newParent : NodeId) (key : Bytes) :
    Runs LawfulNodeStore.Models (r, f) (applyMove op node newParent key : Exec Error N Unit)
      (fun _ => True) (r.move (LawfulNodeStore.backend N) op node newParent key, f) := by
  unfold applyMove Rows.move
  split
  · exact Runs.pure trivial
  simp only
  set r' := (r.ensure node).ensure newParent with hr'
  have hnode : (r' node).isSome :=
    Rows.isSome_ensure.mpr (Or.inr (Rows.isSome_ensure.mpr (Or.inl rfl)))
  have hparent : (r' newParent).isSome := Rows.isSome_ensure.mpr (Or.inl rfl)
  have hacyc : Acyclic r'.up := by rwa [Rows.up_congr (Rows.parent_ensure.trans Rows.parent_ensure)]
  refine (LawfulNodeStore.ensureNode r f node).bind fun _ _ => ?_
  refine (LawfulNodeStore.ensureNode _ f newParent).bind fun _ _ => ?_
  have hgo : (newParent ≠ NodeId.TRASH → node ≠ newParent) →
      Runs LawfulNodeStore.Models (r', f)
        (do
          let oldParent ← NodeStore.parent node
          NodeStore.detach node
          NodeStore.attach node newParent key
          (touchMoved op node newParent oldParent : Exec Error N Unit)) (fun _ => True)
        ((r'.reparent (LawfulNodeStore.backend N) node newParent key).touchMoved op node newParent
          (r'.parent node), f) := by
    intro hne
    refine Runs.assume (fun s hs => LawfulNodeStore.parent_isSome s r' f hs) fun hpar => ?_
    refine (LawfulNodeStore.parent r' f node).bind fun oldParent ho => ?_
    subst ho
    refine reparent_runs hnode hparent ?_ ?_
    · exact (or_iff_not_imp_right.mpr hne)
    · exact touchMoved_runs f op (isSome_reparent.mpr hnode) (isSome_reparent.mpr hparent)
        fun p hp => isSome_reparent.mpr (hpar node p hp)
  by_cases hT : newParent = NodeId.TRASH
  · rw [if_neg (not_not.mpr hT), if_neg fun h => h.1 hT]
    exact hgo fun h => absurd hT h
  · rw [if_pos hT]
    refine (introducesCycle_runs hacyc f node newParent).bind fun b hb => ?_
    have hcheck : (b || decide (node = newParent)) = true ↔
        (newParent ≠ NodeId.TRASH ∧ (r'.Cyclic node newParent ∨ node = newParent)) := by
      rw [Bool.or_eq_true, decide_eq_true_eq, hb, and_iff_right hT]
    by_cases hrej : newParent ≠ NodeId.TRASH ∧ (r'.Cyclic node newParent ∨ node = newParent)
    · rw [if_pos hrej, if_pos (hcheck.mpr hrej)]
      exact Runs.pure trivial
    · rw [if_neg hrej, if_neg fun h => hrej (hcheck.mp h)]
      exact hgo fun _ he => hrej ⟨hT, Or.inr he⟩

theorem applyDelete_runs (r : Rows) (f : NodeId → Bool) (op : Operation) (node : NodeId) :
    Runs LawfulNodeStore.Models (r, f) (applyDelete op node : Exec Error N Unit)
      (fun _ => True) (r.delete (LawfulNodeStore.backend N) op node, f) := by
  unfold applyDelete Rows.delete
  split
  · exact Runs.pure trivial
  · refine (LawfulNodeStore.ensureNode r f node).bind fun _ _ => ?_
    exact LawfulNodeStore.mergeDeletedAt _ f node _ (Rows.isSome_ensure.mpr (Or.inl rfl))

/-! ## The document -/

/-- The two stores stand for a document. -/
def ModelsDoc (s : N × P) (d : Doc) : Prop :=
  LawfulNodeStore.Models s.1 (d.rows, d.flags) ∧ LawfulPayloadStore.Models s.2 d.payloads

theorem onNodeStore_runs {α : Type} {d : Doc} {c : Exec Error N α} {Q : α → Prop} {r : Rows}
    {f : NodeId → Bool} (hc : Runs LawfulNodeStore.Models (d.rows, d.flags) c Q (r, f)) :
    Runs ModelsDoc d (onNodeStore c : Exec Error (N × P) α) Q
      { d with rows := r, flags := f } :=
  hc.zoom (fun _ hs => hs.1) fun _ _ hs ht => ⟨ht, hs.2⟩

theorem onPayloadStore_runs {α : Type} {d : Doc} {c : Exec Error P α} {Q : α → Prop}
    {p : NodeId → PayloadRow} (hc : Runs LawfulPayloadStore.Models d.payloads c Q p) :
    Runs ModelsDoc d (onPayloadStore c : Exec Error (N × P) α) Q { d with payloads := p } :=
  hc.zoom (fun _ hs => hs.2) fun _ _ hs ht => ⟨hs.1, ht⟩

theorem applyPayload_runs (d : Doc) (op : Operation) (node : NodeId) (payload : Option Bytes) :
    Runs ModelsDoc d (applyPayload op node payload : Exec Error (N × P) Unit) (fun _ => True)
      (d.writePayload op node payload) := by
  unfold applyPayload Doc.writePayload
  refine (onNodeStore_runs (LawfulNodeStore.ensureNode d.rows d.flags node)).bind fun _ _ => ?_
  refine (onPayloadStore_runs (LawfulPayloadStore.lastWriter _ node)).bind fun writer hw => ?_
  subst hw
  simp only
  by_cases h : newerThan op (d.payloads node).lastWriter
  · rw [if_neg (by simp [h]), if_pos h]
    refine (onPayloadStore_runs (LawfulPayloadStore.setPayload _ node _ _)).bind fun _ _ => ?_
    refine onNodeStore_runs (updateLastChange_runs d.flags op ?_)
    exact Rows.isSome_ensure.mpr (Or.inl rfl)
  · rw [if_pos (by simp [h]), if_neg h]
    exact Runs.pure trivial

theorem snapshot_runs (r : Rows) (f : NodeId → Bool) (op : Operation) :
    Runs LawfulNodeStore.Models (r, f) (snapshot op : Exec Error N NodeSnapshot)
      (fun snap => snap.parent = r.parent op.kind.node) (r.ensure op.kind.node, f) := by
  unfold snapshot
  refine (LawfulNodeStore.ensureNode r f _).bind fun _ _ => ?_
  refine (LawfulNodeStore.parent _ f _).bind fun parent hp => ?_
  refine (LawfulNodeStore.orderKey _ f _).bind fun key _ => ?_
  exact Runs.pure (by rw [hp, Rows.parent_ensure])

/-- `apply_forward` always returns, and does what the document does. -/
theorem applyForward_runs {d : Doc} (hd : Acyclic d.rows.up) (op : Operation) :
    Runs ModelsDoc d (applyForward op : Exec Error (N × P) NodeSnapshot)
      (fun snap => snap.parent = d.rows.parent op.kind.node)
      (d.apply (LawfulNodeStore.backend N) op) := by
  have he : Acyclic (d.ensure op.kind.node).rows.up := by
    rwa [Doc.ensure, Rows.up_congr Rows.parent_ensure]
  unfold applyForward Doc.apply
  refine (onNodeStore_runs (snapshot_runs d.rows d.flags op)).bind fun snap hsnap => ?_
  change Runs _ (d.ensure op.kind.node) _ _ _
  generalize d.ensure op.kind.node = d' at he
  cases hk : op.kind <;> rw [hk] at hsnap
  case insert parent node key payload =>
    refine (onNodeStore_runs (applyInsert_runs he d'.flags op parent node key)).bind fun _ _ => ?_
    simp only [Doc.applyKind]
    split
    · exact (applyPayload_runs _ op node payload).bind fun _ _ => Runs.pure hsnap
    · exact Runs.pure hsnap
  case move node newParent key =>
    exact (onNodeStore_runs (applyMove_runs he d'.flags op node newParent key)).bind
      fun _ _ => Runs.pure hsnap
  case delete node =>
    exact (onNodeStore_runs (applyDelete_runs d'.rows d'.flags op node)).bind
      fun _ _ => Runs.pure hsnap
  case tombstone node =>
    exact (onNodeStore_runs (applyDelete_runs d'.rows d'.flags op node)).bind
      fun _ _ => Runs.pure hsnap
  case payload node payload =>
    exact (applyPayload_runs _ op node payload).bind fun _ _ => Runs.pure hsnap

/-- A fold over any operations returns, from any forest. -/
theorem forwardAll_runs {d : Doc} (hd : Acyclic d.rows.up) (ops : List Operation) :
    Runs ModelsDoc d (forwardAll ops : Exec Error (N × P) Unit) (fun _ => True)
      (d.applyAll (LawfulNodeStore.backend N) ops) := by
  induction ops generalizing d with
  | nil => exact Runs.pure trivial
  | cons op ops ih =>
    exact (applyForward_runs hd op).bind fun _ _ => ih (Doc.acyclic_apply hd _ op)

end Treecrdt
