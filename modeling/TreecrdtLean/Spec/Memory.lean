import TreecrdtLean.Core.Memory
import TreecrdtLean.Spec.Refine

/-!
# The in-memory stores are lawful

The invariant of `MemoryNodeStore`: the children list of a node holds the nodes whose parent it is,
sorted by `(order_key, id)`, and is empty for `TRASH`; a parent is always present.
-/

namespace Treecrdt

open Exec

/-! ## A sorted insert -/

/-- Inserting before the first greater element keeps a list sorted. -/
theorem insertIdx_findIdx_sorted {α κ : Type} [LinearOrder κ] (K : α → κ) {x : α} :
    ∀ {l : List α}, l.Pairwise (fun c d => K c < K d) → (∀ c ∈ l, K c ≠ K x) →
      (l.insertIdx (l.findIdx fun c => decide (K x < K c)) x).Pairwise fun c d => K c < K d
  | [], _, _ => by simp
  | c :: l, hl, hx => by
    obtain ⟨hc, hl⟩ := List.pairwise_cons.mp hl
    rw [List.findIdx_cons]
    by_cases h : K x < K c
    · simp only [h, decide_true, cond_true, List.insertIdx_zero]
      refine List.pairwise_cons.mpr ⟨fun y hy => ?_, List.pairwise_cons.mpr ⟨hc, hl⟩⟩
      rcases List.mem_cons.mp hy with rfl | hy
      · exact h
      · exact h.trans (hc y hy)
    · simp only [h, decide_false, cond_false, List.insertIdx_succ_cons]
      have ih := insertIdx_findIdx_sorted K hl fun d hd => hx d (List.mem_cons_of_mem _ hd)
      refine List.pairwise_cons.mpr ⟨fun y hy => ?_, ih⟩
      rcases List.eq_or_mem_of_mem_insertIdx hy with rfl | hy
      · exact lt_of_le_of_ne (not_lt.mp h) (hx c (by simp))
      · exact hc y hy

namespace MemoryNodeStore

/-! ## The view of a store -/

def rowOf (st : MemoryNodeState) : Row :=
  { parent := st.parent, orderKey := st.orderKey, lastChange := st.lastChange
    deletedAt := st.deletedAt }

def view (s : MemoryNodeStore) : Rows := fun n => (s.nodes.lookup n).map rowOf

def flags (s : MemoryNodeStore) : NodeId → Bool := fun n =>
  ((s.nodes.lookup n).map (·.tombstone)).getD false

structure Inv (s : MemoryNodeStore) : Prop where
  children : ∀ p st, s.nodes.lookup p = some st → s.view.IsChildren p st.children
  parent : ∀ n p, s.view.parent n = some p → (s.view p).isSome

def Models (s : MemoryNodeStore) (a : Rows × (NodeId → Bool)) : Prop :=
  s.view = a.1 ∧ s.flags = a.2 ∧ s.Inv

theorem lookup_insert (s : MemoryNodeStore) (n m : NodeId) (st : MemoryNodeState) :
    (s.nodes.insert n st).lookup m = if m = n then some st else s.nodes.lookup m := by
  by_cases h : m = n
  · rw [if_pos h, h, AList.lookup_insert]
  · rw [if_neg h, AList.lookup_insert_ne h]

theorem view_parent (s : MemoryNodeStore) (n : NodeId) : s.view.parent n = s.parent n := by
  unfold Rows.parent view parent
  cases s.nodes.lookup n <;> rfl

theorem Models.parent {s : MemoryNodeStore} {r : Rows} {f : NodeId → Bool}
    (h : Models s (r, f)) : s.parent = r.parent := by
  obtain ⟨rfl, -, -⟩ := h
  exact (funext (view_parent s)).symm

theorem view_orderKey (s : MemoryNodeStore) (n : NodeId) :
    s.view.orderKey n = s.orderKey n := by
  unfold Rows.orderKey view orderKey
  cases s.nodes.lookup n <;> rfl

theorem view_isSome {s : MemoryNodeStore} {n : NodeId} (h : (s.view n).isSome) :
    ∃ st, s.nodes.lookup n = some st ∧ s.view n = some (rowOf st) := by
  unfold view at h ⊢
  rcases hl : s.nodes.lookup n with _ | st
  · rw [hl] at h
    cases h
  · exact ⟨st, rfl, rfl⟩

theorem view_insert (s : MemoryNodeStore) (n : NodeId) (st : MemoryNodeState) :
    view ⟨s.nodes.insert n st⟩ = Function.update s.view n (some (rowOf st)) := by
  funext m
  by_cases h : m = n
  · subst h
    simp [view]
  · simp [view, h]

theorem flags_insert (s : MemoryNodeStore) (n : NodeId) (st : MemoryNodeState) :
    flags ⟨s.nodes.insert n st⟩ = Function.update s.flags n st.tombstone := by
  funext m
  by_cases h : m = n
  · subst h
    simp [flags]
  · simp [flags, h]

theorem flags_of_lookup {s : MemoryNodeStore} {n : NodeId} {st : MemoryNodeState}
    (h : s.nodes.lookup n = some st) : s.flags n = st.tombstone := by
  simp [flags, h]

/-- The invariant only reads the children lists, the parents and the keys. -/
theorem Inv.of_eq {s s' : MemoryNodeStore} (h : s.Inv)
    (hc : ∀ p st', s'.nodes.lookup p = some st' →
      ∃ st, s.nodes.lookup p = some st ∧ st'.children = st.children)
    (hp : s'.view.parent = s.view.parent) (hk : s'.view.orderKey = s.view.orderKey)
    (hsome : ∀ n, (s.view n).isSome → (s'.view n).isSome) : s'.Inv where
  children p st' hl := by
    obtain ⟨st, hl, he⟩ := hc p st' hl
    obtain ⟨hm, hs⟩ := h.children p st hl
    exact ⟨by rw [hp, he]; exact hm, by rw [hk, he]; exact hs⟩
  parent n p hn := hsome p (h.parent n p (by rw [← hp]; exact hn))

/-- A write that leaves the children, the parent and the key of a node alone. -/
theorem updateState_runs {r : Rows} {f : NodeId → Bool} {n : NodeId} (hn : (r n).isSome)
    {g : MemoryNodeState → MemoryNodeState} {G : Row → Row} {F : Bool → Bool}
    (hG : ∀ st, rowOf (g st) = G (rowOf st)) (hF : ∀ st, (g st).tombstone = F st.tombstone)
    (hc : ∀ st, (g st).children = st.children) (hp : ∀ row, (G row).parent = row.parent)
    (hk : ∀ row, (G row).orderKey = row.orderKey) :
    Runs Models (r, f) (updateState n g) (fun _ => True)
      (r.modify n G, Function.update f n (F (f n))) := by
  rintro s ⟨rfl, rfl, hinv⟩
  obtain ⟨st, hl, hv⟩ := view_isSome hn
  have hview : view ⟨s.nodes.insert n (g st)⟩ = s.view.modify n G := by
    rw [view_insert, Rows.modify, hv, hG]
    rfl
  refine ⟨(), ⟨s.nodes.insert n (g st)⟩, by simp only [updateState, hl], trivial, hview, ?_, ?_⟩
  · rw [flags_insert, hF, flags_of_lookup hl]
  · refine hinv.of_eq ?_ ?_ ?_ ?_
    · intro p st' hp'
      rw [lookup_insert] at hp'
      split at hp'
      · rename_i he
        subst he
        cases hp'
        exact ⟨st, hl, hc st⟩
      · exact ⟨st', hp', rfl⟩
    · rw [hview]
      exact Rows.parent_modify hp
    · rw [hview]
      funext m
      by_cases hm : m = n
      · subst hm
        simp [Rows.orderKey, Rows.modify, hv, hk]
      · simp [Rows.orderKey, Rows.modify, Function.update_of_ne hm]
    · intro m hm
      rw [hview]
      exact Rows.isSome_modify.mpr hm

theorem isChildren_nil_iff {r : Rows} {p : NodeId} :
    r.IsChildren p [] ↔ ∀ c, p = NodeId.TRASH ∨ r.parent c ≠ some p := by
  constructor
  · intro h c
    have := (h.mem c).not.mp (by simp)
    tauto
  · intro h
    refine ⟨fun c => ?_, List.Pairwise.nil⟩
    have := h c
    simp
    tauto

theorem ensureNode_runs (r : Rows) (f : NodeId → Bool) (n : NodeId) :
    Runs Models (r, f) (ensureNode n) (fun _ => True) (r.ensure n, f) := by
  refine Runs.modify fun s => ?_
  rintro ⟨rfl, rfl, hinv⟩
  rcases hl : s.nodes.lookup n with _ | st
  · set st : MemoryNodeState :=
      if n = NodeId.ROOT then MemoryNodeState.newRoot else MemoryNodeState.new with hst
    have hrow : rowOf st = Row.blank n := by
      rw [hst, Row.blank]
      split <;> rfl
    have hch : st.children = [] := by
      rw [hst]
      split <;> rfl
    have hvn : s.view n = none := by simp [view, hl]
    have hview : view ⟨s.nodes.insert n st⟩ = s.view.ensure n := by
      rw [view_insert, hrow, Rows.ensure, Rows.row, hvn]
      rfl
    refine ⟨hview, ?_, ?_, ?_⟩
    · rw [flags_insert]
      funext m
      by_cases hm : m = n
      · subst hm
        rw [Function.update_self, hst]
        simp only [flags, hl]
        split <;> rfl
      · rw [Function.update_of_ne hm]
    · have hp : (view ⟨s.nodes.insert n st⟩).parent = s.view.parent := by
        rw [hview, Rows.parent_ensure]
      have hk : ∀ c, c ≠ n →
          (view ⟨s.nodes.insert n st⟩).orderKey c = s.view.orderKey c := by
        intro c hc
        simp [hview, Rows.orderKey, Rows.ensure, Function.update_of_ne hc]
      intro p st' hl'
      rw [lookup_insert] at hl'
      split at hl'
      · -- Nothing hangs under a node that was absent.
        rename_i he
        subst he
        rw [← Option.some.inj hl', hch, isChildren_nil_iff, hp]
        intro c
        refine Or.inr fun hcp => ?_
        have := hinv.parent c p hcp
        rw [hvn] at this
        cases this
      · obtain ⟨hm, hs⟩ := hinv.children p st' hl'
        refine ⟨by rw [hp]; exact hm, hs.imp_of_mem fun {c d} hc hd hcd => ?_⟩
        have hne : ∀ {c}, c ∈ st'.children → c ≠ n := by
          rintro c hc rfl
          have := ((hm c).mp hc).2
          simp [Rows.parent, hvn] at this
        rwa [hk c (hne hc), hk d (hne hd)]
    · intro m p hm
      rw [hview, Rows.parent_ensure] at hm
      rw [hview]
      exact Rows.isSome_ensure.mpr (Or.inr (hinv.parent m p hm))
  · have hview : s.view.ensure n = s.view := by
      rw [Rows.ensure, Rows.row]
      simp [view, hl]
    exact ⟨hview.symm, rfl, hinv⟩

theorem getState_runs {α : Type} {r : Rows} {f : NodeId → Bool} {n : NodeId}
    (hn : (r n).isSome) {g : MemoryNodeState → α} {Q : α → Prop}
    (hQ : ∀ s : MemoryNodeStore, ∀ st, Models s (r, f) → s.nodes.lookup n = some st → Q (g st)) :
    Runs Models (r, f) (do return g (← getState n)) Q (r, f) := by
  intro s hs
  obtain ⟨rfl, rfl, hinv⟩ := hs
  obtain ⟨st, hl, -⟩ := view_isSome hn
  refine ⟨g st, s, ?_, hQ s st ⟨rfl, rfl, hinv⟩ hl, rfl, rfl, hinv⟩
  simp [getState, hl, bind_run]

/-! ## Detach and attach -/

/-- The state of node `m` after `n` was taken off its parent; `key` is what is left of its key. -/
def detached (n m : NodeId) (key : Option Bytes) (st : MemoryNodeState) : MemoryNodeState :=
  { st with
    children := st.children.filter (· ≠ n)
    parent := if m = n then none else st.parent
    orderKey := if m = n then key else st.orderKey }

theorem updateState_run {s : MemoryNodeStore} {n : NodeId} {st : MemoryNodeState}
    (h : s.nodes.lookup n = some st) (g : MemoryNodeState → MemoryNodeState) :
    updateState n g s = some (.ok (), ⟨s.nodes.insert n (g st)⟩) := by
  simp only [updateState, h]

/-- `n` is in no list of children but that of its parent. -/
theorem Inv.filter_children {s : MemoryNodeStore} (h : s.Inv) {n m : NodeId}
    {st : MemoryNodeState} (hm : s.nodes.lookup m = some st) (hp : s.parent n ≠ some m) :
    st.children.filter (· ≠ n) = st.children := by
  refine List.filter_eq_self.mpr fun c hc => ?_
  simp only [ne_eq, decide_not, Bool.not_eq_eq_eq_not, Bool.not_true, decide_eq_false_iff_not]
  rintro rfl
  exact hp (by rw [← view_parent]; exact ((h.children m st hm).mem c |>.mp hc).2)

/-- `detach` on a node with a parent, once the list of the parent is filtered. -/
private theorem detach_rest {s s₁ : MemoryNodeStore} {n : NodeId} (hn : (s.view n).isSome)
    (h₁ : ∀ m, s₁.nodes.lookup m = (s.nodes.lookup m).map fun st =>
      { st with children := st.children.filter (· ≠ n) }) :
    ∃ s', (do
        updateState n fun st => { st with parent := none }
        updateState n fun st => { st with orderKey := none }) s₁ = some (.ok (), s') ∧
      ∀ m, s'.nodes.lookup m = (s.nodes.lookup m).map (detached n m none) := by
  obtain ⟨st, hl, -⟩ := view_isSome hn
  have hl₁ := h₁ n
  rw [hl, Option.map_some] at hl₁
  set s₂ : MemoryNodeStore := ⟨s₁.nodes.insert n
    { st with children := st.children.filter (· ≠ n), parent := none }⟩ with hs₂
  have hl₂ : s₂.nodes.lookup n =
      some { st with children := st.children.filter (· ≠ n), parent := none } := by
    rw [hs₂, lookup_insert, if_pos rfl]
  refine ⟨_, by rw [bind_of_ok (updateState_run hl₁ _)]; exact updateState_run hl₂ _, fun m => ?_⟩
  rw [lookup_insert]
  by_cases hm : m = n
  · subst hm
    rw [if_pos rfl, hl]
    simp [detached]
  · rw [if_neg hm, hs₂, lookup_insert, if_neg hm, h₁]
    refine congrArg (Option.map · _) (funext fun st => ?_)
    simp [detached, hm]

theorem detach_run {s : MemoryNodeStore} (h : s.Inv) {n : NodeId} (hn : (s.view n).isSome) :
    ∃ key s', detach n s = some (.ok (), s') ∧
      ∀ m, s'.nodes.lookup m = (s.nodes.lookup m).map (detached n m key) := by
  unfold detach
  rw [gets_bind_run]
  rcases hpar : s.parent n with _ | q
  · refine ⟨s.orderKey n, s, rfl, fun m => ?_⟩
    rcases hm : s.nodes.lookup m with _ | st
    · rfl
    · have hc := h.filter_children (n := n) hm (by rw [hpar]; simp)
      have hd : detached n m (s.orderKey n) st = st := by
        unfold detached
        rw [hc]
        by_cases he : m = n
        · subst he
          have hp : st.parent = none := by simpa [parent, hm] using hpar
          simp [orderKey, hm, ← hp]
        · simp [he]
      rw [Option.map_some, hd]
  · refine ⟨none, ?_⟩
    by_cases hq : q = NodeId.TRASH
    · -- The children of `TRASH` are not listed.
      simp only [hq, ne_eq, not_true_eq_false, if_false]
      refine detach_rest hn fun m => ?_
      rcases hm : s.nodes.lookup m with _ | st
      · rfl
      · by_cases hmT : m = NodeId.TRASH
        · subst hmT
          have : st.children = [] := List.eq_nil_iff_forall_not_mem.mpr fun c hc =>
            ((h.children _ st hm).mem c |>.mp hc).1 rfl
          have hf : st.children.filter (· ≠ n) = st.children := by rw [this]; rfl
          rw [Option.map_some, hf]
        · rw [Option.map_some, h.filter_children hm]
          rw [hpar, hq]
          simpa using Ne.symm hmT
    · simp only [ne_eq, hq, not_false_eq_true, if_true]
      rw [modify_bind_run]
      refine detach_rest hn fun m => ?_
      obtain ⟨stq, hlq, -⟩ := view_isSome (h.parent n q (by rw [view_parent, hpar]))
      simp only [hlq, lookup_insert]
      by_cases hmq : m = q
      · subst hmq
        simp [hlq]
      · rw [if_neg hmq]
        rcases hm : s.nodes.lookup m with _ | st
        · rfl
        · rw [Option.map_some, h.filter_children hm]
          rw [hpar]
          simpa using Ne.symm hmq

/-- The state of node `m` after `n` was hung under `p`. -/
def attached (s : MemoryNodeStore) (n p : NodeId) (key : Bytes) (m : NodeId)
    (st : MemoryNodeState) : MemoryNodeState :=
  let st := { st with
    parent := if m = n then some p else st.parent
    orderKey := if m = n then some key else st.orderKey }
  if m = p ∧ p ≠ NodeId.TRASH then
    { st with children := st.children.insertIdx (s.insertPosition st.children key n) n }
  else st

theorem attached_other {s : MemoryNodeStore} {n p m : NodeId} {key : Bytes} (hn : m ≠ n)
    (hp : m = p → p = NodeId.TRASH) : attached s n p key m = id := by
  funext st
  have : ¬ (m = p ∧ p ≠ NodeId.TRASH) := fun h => h.2 (hp h.1)
  simp only [attached, if_neg hn, if_neg this, id]

theorem ensureNode_run {s : MemoryNodeStore} {n : NodeId} (h : (s.nodes.lookup n).isSome) :
    ensureNode n s = some (.ok (), s) := by
  obtain ⟨st, hst⟩ := Option.isSome_iff_exists.mp h
  simp [ensureNode, hst]

/-- The position only depends on the keys of the other children. -/
theorem insertPosition_congr {s s' : MemoryNodeStore} {l : List NodeId} (key : Bytes) (n : NodeId)
    (h : ∀ c ∈ l, s'.orderKey c = s.orderKey c) :
    s'.insertPosition l key n = s.insertPosition l key n := by
  unfold insertPosition
  induction l with
  | nil => rfl
  | cons c l ih =>
    rw [List.findIdx_cons, List.findIdx_cons, h c (by simp),
      ih fun d hd => h d (List.mem_cons_of_mem _ hd)]

theorem attach_run {s : MemoryNodeStore} {n p : NodeId} (key : Bytes) {stn stp : MemoryNodeState}
    (hn : s.nodes.lookup n = some stn) (hp : s.nodes.lookup p = some stp)
    (hnp : n ≠ p ∨ p = NodeId.TRASH) (hmem : n ∉ stp.children) :
    ∃ s', attach n p key s = some (.ok (), s') ∧
      ∀ m, s'.nodes.lookup m = (s.nodes.lookup m).map (attached s n p key m) := by
  set s₁ : MemoryNodeStore := ⟨s.nodes.insert n { stn with parent := some p }⟩ with hs₁
  have hl₁ : s₁.nodes.lookup n = some { stn with parent := some p } := by
    rw [hs₁, lookup_insert, if_pos rfl]
  set s₂ : MemoryNodeStore :=
    ⟨s₁.nodes.insert n { stn with parent := some p, orderKey := some key }⟩ with hs₂
  have hl₂ : ∀ m, s₂.nodes.lookup m =
      if m = n then some { stn with parent := some p, orderKey := some key }
      else s.nodes.lookup m := by
    intro m
    by_cases hm : m = n
    · rw [hs₂, lookup_insert, if_pos hm, if_pos hm]
    · rw [hs₂, lookup_insert, if_neg hm, if_neg hm, hs₁, lookup_insert, if_neg hm]
  have hrun : attach n p key s =
      (do
        if p = NodeId.TRASH then
          return
        let existing := (← getState p).children
        let idx ← gets fun s => s.insertPosition existing key n
        updateState p fun st => { st with children := st.children.insertIdx idx n }) s₂ := by
    unfold attach
    rw [bind_of_ok (ensureNode_run (by simp [hp])), bind_of_ok (ensureNode_run (by simp [hn])),
      bind_of_ok (updateState_run hn _), bind_of_ok (updateState_run hl₁ _)]
  rw [hrun]
  by_cases hT : p = NodeId.TRASH
  · refine ⟨s₂, by rw [if_pos hT]; rfl, fun m => ?_⟩
    rw [hl₂]
    by_cases hm : m = n
    · subst hm
      simp [hn, attached, hT]
    · rw [if_neg hm, attached_other hm fun _ => hT, Option.map_id, id]
  · have hpn : p ≠ n := fun he => hnp.elim (fun h => h he.symm) hT
    have hlp : s₂.nodes.lookup p = some stp := by rw [hl₂, if_neg hpn, hp]
    have hpos : s₂.insertPosition stp.children key n = s.insertPosition stp.children key n := by
      refine insertPosition_congr key n fun c hc => ?_
      have hcn : c ≠ n := fun he => hmem (he ▸ hc)
      simp only [orderKey, hl₂, if_neg hcn]
    refine ⟨⟨s₂.nodes.insert p { stp with
      children := stp.children.insertIdx (s.insertPosition stp.children key n) n }⟩, ?_, fun m => ?_⟩
    · rw [if_neg hT]
      simp only [getState, bind_run, getsE_run, hlp, gets_run, hpos, updateState]
    · rw [lookup_insert]
      by_cases hm : m = p
      · subst hm
        rw [if_pos rfl, hp, Option.map_some, attached, if_pos ⟨rfl, hT⟩]
        simp [hpn]
      · rw [if_neg hm, hl₂]
        by_cases hmn : m = n
        · subst hmn
          simp [hn, attached, hm]
        · rw [if_neg hmn, attached_other hmn fun h => absurd h hm, Option.map_id, id]

theorem rowOf_attached (s : MemoryNodeStore) (n p m : NodeId) (key : Bytes) (k : Option Bytes)
    (st : MemoryNodeState) :
    rowOf (attached s n p key m (detached n m k st)) =
      if m = n then { rowOf st with parent := some p, orderKey := some key } else rowOf st := by
  have : rowOf (attached s n p key m (detached n m k st)) =
      { rowOf st with
        parent := if m = n then some p else (detached n m k st).parent
        orderKey := if m = n then some key else (detached n m k st).orderKey } := by
    unfold attached
    simp only
    split <;> rfl
  rw [this]
  by_cases h : m = n
  · simp [h]
  · simp [h, detached, rowOf]

theorem tombstone_attached (s : MemoryNodeStore) (n p m : NodeId) (key : Bytes)
    (k : Option Bytes) (st : MemoryNodeState) :
    (attached s n p key m (detached n m k st)).tombstone = st.tombstone := by
  unfold attached
  simp only
  split <;> rfl

/-- The children after a node moved: it is in the list of its new parent, and only there. -/
private theorem isChildren_attached {s s₁ s₂ : MemoryNodeStore} {n p q : NodeId} {key : Bytes}
    {k : Option Bytes} {st : MemoryNodeState} (hst : s.view.IsChildren q st.children)
    (hk₁ : ∀ c, c ≠ n → s₁.orderKey c = s.orderKey c)
    (hp₂ : s₂.view.parent = Function.update s.view.parent n (some p))
    (hk₂ : s₂.view.orderKey = Function.update s.view.orderKey n (some key)) :
    s₂.view.IsChildren q (attached s₁ n p key q (detached n q k st)).children := by
  set l := st.children.filter (· ≠ n) with hl
  have hmem : ∀ c, c ∈ l ↔ c ≠ n ∧ q ≠ NodeId.TRASH ∧ s.view.parent c = some q := by
    intro c
    rw [hl, List.mem_filter, hst.mem]
    simp only [ne_eq, decide_not, Bool.not_eq_eq_eq_not, Bool.not_true, decide_eq_false_iff_not]
    tauto
  have hkey : ∀ c, c ≠ n → s₂.view.orderKey c = s.view.orderKey c := fun c hc => by
    rw [hk₂, Function.update_of_ne hc]
  have hsorted : l.Pairwise fun c d =>
      toLex (((s₂.view.orderKey c).getD []).nats, c) <
        toLex (((s₂.view.orderKey d).getD []).nats, d) := by
    refine (hst.sorted.filter _).imp_of_mem fun {c d} hc hd h => ?_
    rwa [hkey c ((hmem c).mp hc).1, hkey d ((hmem d).mp hd).1]
  by_cases hqp : q = p ∧ p ≠ NodeId.TRASH
  · obtain ⟨rfl, hT⟩ := hqp
    have hchildren : (attached s₁ n q key q (detached n q k st)).children =
        l.insertIdx (s₁.insertPosition l key n) n := by
      rw [attached, if_pos ⟨rfl, hT⟩]
      rfl
    have hpos : s₁.insertPosition l key n = l.findIdx fun c => decide
        (toLex (((s₂.view.orderKey n).getD []).nats, n) <
          toLex (((s₂.view.orderKey c).getD []).nats, c)) := by
      have hkeys : ∀ c ∈ l, s₂.orderKey c = s₁.orderKey c := fun c hc => by
        have hcn := ((hmem c).mp hc).1
        rw [hk₁ c hcn, ← view_orderKey, ← view_orderKey, hkey c hcn]
      have := insertPosition_congr key n hkeys
      rw [← this, hk₂, Function.update_self]
      simp only [insertPosition, keyGreater, ← view_orderKey, hk₂, Option.getD_some]
    rw [hchildren, hpos]
    constructor
    · intro c
      rw [List.mem_insertIdx List.findIdx_le_length, hmem, hp₂]
      by_cases hc : c = n
      · subst hc
        simp [hT]
      · simp [hc]
    · refine insertIdx_findIdx_sorted
        (fun c => toLex (((s₂.view.orderKey c).getD []).nats, c)) hsorted fun c hc he => ?_
      exact ((hmem c).mp hc).1 (congrArg (fun x => (ofLex x).2) he)
  · have hchildren : (attached s₁ n p key q (detached n q k st)).children = l := by
      rw [attached, if_neg hqp]
      rfl
    rw [hchildren]
    refine ⟨fun c => ?_, hsorted⟩
    rw [hmem, hp₂]
    by_cases hc : c = n
    · subst hc
      rw [Function.update_self]
      simp only [ne_eq, not_true_eq_false, false_and, Option.some.injEq, false_iff, not_and]
      rintro hq rfl
      exact hqp ⟨rfl, hq⟩
    · rw [Function.update_of_ne hc]
      tauto

theorem detachAttach_runs (r : Rows) (f : NodeId → Bool) (n p : NodeId) (key : Bytes)
    (hn : (r n).isSome) (hp : (r p).isSome) (hnp : n ≠ p ∨ p = NodeId.TRASH) :
    Runs Models (r, f) (do detach n; attach n p key) (fun _ => True)
      (r.reparent Backend.memory n p key, f) := by
  rintro s ⟨rfl, rfl, hinv⟩
  obtain ⟨k, s₁, hrun₁, hl₁⟩ := detach_run hinv hn
  obtain ⟨stn, hln, hvn⟩ := view_isSome hn
  obtain ⟨stp, hlp, -⟩ := view_isSome hp
  have hln₁ : s₁.nodes.lookup n = some (detached n n k stn) := by rw [hl₁, hln, Option.map_some]
  have hlp₁ : s₁.nodes.lookup p = some (detached n p k stp) := by rw [hl₁, hlp, Option.map_some]
  have hmem : n ∉ (detached n p k stp).children := by simp [detached]
  obtain ⟨s₂, hrun₂, hl₂⟩ := attach_run key hln₁ hlp₁ hnp hmem
  have hl : ∀ m, s₂.nodes.lookup m =
      (s.nodes.lookup m).map fun st => attached s₁ n p key m (detached n m k st) := by
    intro m
    rw [hl₂, hl₁, Option.map_map]
    rfl
  have hview : s₂.view = s.view.reparent Backend.memory n p key := by
    funext m
    simp only [view, hl, Option.map_map]
    by_cases hm : m = n
    · subst hm
      simp [hln, Rows.reparent, Rows.modify, Backend.memory, rowOf_attached, view]
    · rcases hlm : s.nodes.lookup m with _ | st
      · simp [Rows.reparent, Rows.modify, Backend.memory, hm, view, hlm]
      · simp [Rows.reparent, Rows.modify, Backend.memory, hm, view, hlm, rowOf_attached]
  have hparent : s₂.view.parent = Function.update s.view.parent n (some p) := by
    rw [hview, Rows.parent_reparent _ _ _ hn]
    rfl
  have hkey : s₂.view.orderKey = Function.update s.view.orderKey n (some key) := by
    rw [hview]
    funext m
    by_cases hm : m = n
    · subst hm
      simp [Rows.orderKey, Rows.reparent, Rows.modify, Backend.memory, hvn]
    · simp [Rows.orderKey, Rows.reparent, Rows.modify, Backend.memory, hm]
  refine ⟨(), s₂, by rw [bind_of_ok hrun₁, hrun₂], trivial, hview, ?_, ?_, ?_⟩
  · funext m
    simp only [flags, hl, Option.map_map]
    rcases s.nodes.lookup m with _ | st
    · rfl
    · simp [tombstone_attached]
  · intro q st₂ hq
    rw [hl] at hq
    rcases hlq : s.nodes.lookup q with _ | st
    · simp [hlq] at hq
    · rw [hlq, Option.map_some, Option.some.injEq] at hq
      subst hq
      refine isChildren_attached (hinv.children q st hlq) (fun c hc => ?_) hparent hkey
      simp only [orderKey, hl₁]
      rcases s.nodes.lookup c with _ | stc
      · rfl
      · simp [detached, hc]
  · intro m q hm
    rw [hparent] at hm
    have hsome : ∀ x, (s.view x).isSome → (s₂.view x).isSome := fun x hx => by
      rw [hview]
      exact isSome_reparent.mpr hx
    by_cases hmn : m = n
    · subst hmn
      rw [Function.update_self, Option.some.injEq] at hm
      subst hm
      exact hsome p hp
    · rw [Function.update_of_ne hmn] at hm
      exact hsome q (hinv.parent m q hm)

/-! ## The instances -/

theorem lookup_default (n : NodeId) : default.nodes.lookup n =
    if n = NodeId.ROOT then some MemoryNodeState.newRoot else none := by
  by_cases h : n = NodeId.ROOT
  · subst h
    rfl
  · rw [if_neg h]
    exact AList.lookup_eq_none.mpr fun hmem => h (List.mem_singleton.mp hmem)

/-- The store of a new tree. -/
theorem default_models : Models default (Rows.initial, fun _ => false) := by
  have hview : default.view = Rows.initial := by
    funext n
    by_cases h : n = NodeId.ROOT
    · subst h
      rfl
    · simp [view, lookup_default, h, Rows.initial]
  have hparent : ∀ n, default.view.parent n = none := by
    intro n
    rw [hview]
    by_cases h : n = NodeId.ROOT
    · subst h
      rfl
    · simp [Rows.parent, Rows.initial, h]
  refine ⟨hview, ?_, ?_, ?_⟩
  · funext n
    by_cases h : n = NodeId.ROOT
    · subst h
      rfl
    · simp [flags, lookup_default, h]
  · intro p st hl
    rw [lookup_default] at hl
    split at hl
    · cases hl
      exact isChildren_nil_iff.mpr fun c => Or.inr (by rw [hparent]; simp)
    · cases hl
  · intro n p h
    rw [hparent] at h
    cases h

/-- A read of the node's own state. -/
private theorem read_runs {α : Type} {r : Rows} {f : NodeId → Bool} {n : NodeId}
    (hn : (r n).isSome) {g : MemoryNodeState → α} {G : Row → α} (h : ∀ st, g st = G (rowOf st)) :
    Runs Models (r, f) (do return g (← getState n)) (· = G (r.row n)) (r, f) := by
  refine getState_runs hn fun s st hs hl => ?_
  obtain ⟨rfl, -, -⟩ := hs
  rw [h, Rows.row]
  simp [view, hl]

instance : LawfulNodeStore MemoryNodeStore where
  backend := .memory
  Models := Models
  reset _ := Runs.modify fun _ _ => default_models
  ensureNode := ensureNode_runs
  nodeExists r f n := Runs.gets fun s => by
    rintro ⟨rfl, -, hinv⟩
    constructor
    · intro h
      simpa [view] using h
    · intro h
      simp only [Option.isSome_eq_false_iff, Option.isNone_iff_eq_none] at h
      have hv : s.view n = none := by simp [view, h]
      refine ⟨by rw [Rows.row, hv]; rfl, fun c hc => ?_⟩
      have := hinv.parent c n hc
      rw [hv] at this
      cases this
  parent r f n := Runs.gets fun s => by
    rintro ⟨rfl, -, -⟩
    exact (view_parent s n).symm
  orderKey r f n := Runs.gets fun s => by
    rintro ⟨rfl, -, -⟩ -
    exact (view_orderKey s n).symm
  children r f n hn := getState_runs hn fun s st hs hl => by
    obtain ⟨rfl, -, hinv⟩ := hs
    exact hinv.children n st hl
  detachAttach := detachAttach_runs
  tombstone r f n hn := getState_runs hn fun s st hs hl => by
    obtain ⟨-, rfl, -⟩ := hs
    exact (flags_of_lookup hl).symm
  setTombstone r f n b hn := by
    have := updateState_runs (f := f) (g := fun st => { st with tombstone := b }) (G := id)
      (F := fun _ => b) hn (fun _ => rfl) (fun _ => rfl) (fun _ => rfl) (fun _ => rfl)
      fun _ => rfl
    have hid : r.modify n id = r := by simp [Rows.modify]
    rwa [hid] at this
  lastChange r f n hn := read_runs hn fun _ => rfl
  mergeLastChange r f n delta hn := by
    have := updateState_runs (f := f)
      (g := fun st => { st with lastChange := st.lastChange.merge delta })
      (G := fun row => { row with lastChange := row.lastChange.merge delta })
      (F := id) hn (fun _ => rfl) (fun _ => rfl) (fun _ => rfl) (fun _ => rfl) fun _ => rfl
    rwa [id, Function.update_eq_self] at this
  deletedAt r f n hn := read_runs hn fun _ => rfl
  mergeDeletedAt r f n delta hn := by
    have := updateState_runs (f := f)
      (g := fun st => { st with
        deletedAt := match st.deletedAt with
          | some existing => some (existing.merge delta)
          | none => some delta })
      (G := fun row => { row with
        deletedAt := match row.deletedAt with
          | some existing => some (existing.merge delta)
          | none => some delta })
      (F := id) hn (fun _ => rfl) (fun _ => rfl) (fun _ => rfl) (fun _ => rfl) fun _ => rfl
    rwa [id, Function.update_eq_self] at this
  parentAndHasDeletedAt r f n s hs := by
    obtain ⟨rfl, rfl, hinv⟩ := hs
    rcases hl : s.nodes.lookup n with _ | st
    · refine ⟨none, s, ?_, by simp, rfl, rfl, hinv⟩
      show (gets _ >>= _ : Exec Error MemoryNodeStore _) s = _
      rw [gets_bind_run, hl]
      rfl
    · have hview : s.view n = some (rowOf st) := by simp [view, hl]
      refine ⟨some (s.parent n, st.deletedAt.isSome), s, ?_, fun _ => ?_, rfl, rfl, hinv⟩
      · have hget : getState n s = some (.ok st, s) := by simp [getState, hl]
        show (gets _ >>= _ : Exec Error MemoryNodeStore _) s = _
        rw [gets_bind_run, hl]
        show ((gets _ >>= _ : Exec Error MemoryNodeStore _) s) = _
        rw [gets_bind_run]
        show (((getState n >>= _) >>= _) >>= _ : Exec Error MemoryNodeStore _) s = _
        rw [bind_assoc, bind_assoc, bind_of_ok hget]
        rfl
      · rw [hview, view_parent, Rows.row, hview]
        exact ⟨rfl, rfl⟩
  parent_isSome s r f hs n p h := by
    obtain ⟨rfl, -, hinv⟩ := hs
    exact hinv.parent n p h

end MemoryNodeStore

namespace MemoryPayloadStore

def Models (s : MemoryPayloadStore) (p : NodeId → PayloadRow) : Prop :=
  ∀ n, ((s.entries.lookup n).bind (·.payload)) = (p n).payload ∧
    ((s.entries.lookup n).bind (·.lastWriter)) = (p n).lastWriter

theorem default_models : Models {} fun _ => {} := fun _ => ⟨rfl, rfl⟩

instance : LawfulPayloadStore MemoryPayloadStore where
  Models := Models
  reset _ := Runs.modify fun _ _ => default_models
  payload p n := Runs.gets fun s hs => (hs n).1
  lastWriter p n := Runs.gets fun s hs => (hs n).2
  setPayload p n payload writer := Runs.modify fun s hs m => by
    by_cases h : m = n
    · subst h
      simp
    · simpa [Function.update_of_ne h, AList.lookup_insert_ne h] using hs m

end MemoryPayloadStore

/-! ## The log -/

namespace MemoryStorage

/-- What `apply` keeps of every log: `ids` are the ids of `ops`, which are distinct. -/
structure Wf (s : MemoryStorage) : Prop where
  ids : ∀ id, id ∈ s.ids ↔ id ∈ s.ops.map fun op => op.metadata.id
  distinct : DistinctIds s.ops

def push (s : MemoryStorage) (op : Operation) : MemoryStorage :=
  { ops := s.ops ++ [op], ids := op.metadata.id :: s.ids }

theorem apply_eq (s : MemoryStorage) (op : Operation) :
    Storage.apply op s =
      if op.metadata.id ∈ s.ids then some (.ok false, s) else some (.ok true, s.push op) := rfl

theorem Wf.default : Wf {} := ⟨by simp, by simp [DistinctIds]⟩

theorem Wf.push {s : MemoryStorage} (h : s.Wf) {op : Operation} (hnew : op.metadata.id ∉ s.ids) :
    (s.push op).Wf where
  ids id := by
    simp only [MemoryStorage.push, List.mem_cons, h.ids, List.map_append, List.mem_append,
      List.map_cons, List.map_nil, List.not_mem_nil, or_false]
    exact or_comm
  distinct := by
    rw [DistinctIds, MemoryStorage.push, List.map_append]
    refine List.nodup_append.mpr ⟨h.distinct, by simp, ?_⟩
    intro a ha b hb he
    rw [List.map_cons, List.map_nil, List.mem_singleton] at hb
    exact hnew ((h.ids _).mpr (by rw [← hb, ← he]; exact ha))

end MemoryStorage

/-! ## Both stores -/

/-- The stores that `apply_forward` runs on. -/
abbrev MemoryStores := MemoryNodeStore × MemoryPayloadStore

/-- The stores of a new tree stand for the initial document. -/
theorem initial_models :
    ModelsDoc (MemoryNodeStore.default, ({} : MemoryPayloadStore)) Doc.initial :=
  ⟨MemoryNodeStore.default_models, MemoryPayloadStore.default_models⟩

/-- Two pairs of stores differ at most in the cached tombstones: every node has the same parent,
key, children, changes and deletes, and every payload and its writer are the same. -/
def SameReads (s s' : MemoryStores) : Prop :=
  ∀ n, (s.1.nodes.lookup n).map uncached = (s'.1.nodes.lookup n).map uncached ∧
    (s.2.entries.lookup n).bind (·.payload) = (s'.2.entries.lookup n).bind (·.payload) ∧
    (s.2.entries.lookup n).bind (·.lastWriter) = (s'.2.entries.lookup n).bind (·.lastWriter)
where
  uncached (st : MemoryNodeState) : MemoryNodeState := { st with tombstone := false }

/-- Stores for one document differ at most in what the document does not have. -/
theorem sameReads_of_models {s s' : MemoryStores} {r : Rows} {f f' : NodeId → Bool}
    {p : NodeId → PayloadRow} (h : ModelsDoc s ⟨r, f, p⟩) (h' : ModelsDoc s' ⟨r, f', p⟩) :
    SameReads s s' := by
  obtain ⟨⟨hv, -, hinv⟩, hp⟩ := h
  obtain ⟨⟨hv', -, hinv'⟩, hp'⟩ := h'
  refine fun n => ⟨?_, (hp n).1.trans (hp' n).1.symm, (hp n).2.trans (hp' n).2.symm⟩
  have hrow : (s.1.nodes.lookup n).map MemoryNodeStore.rowOf =
      (s'.1.nodes.lookup n).map MemoryNodeStore.rowOf := congrFun (hv.trans hv'.symm) n
  rcases hl : s.1.nodes.lookup n with _ | st <;> rcases hl' : s'.1.nodes.lookup n with _ | st' <;>
    rw [hl, hl'] at hrow <;> simp only [Option.map_none, Option.map_some, reduceCtorEq] at hrow ⊢
  have hc := hinv.children n st hl
  rw [hv.trans hv'.symm] at hc
  have hchildren := hc.unique (hinv'.children n st' hl')
  obtain ⟨parent, key, children, flag, last, deleted⟩ := st
  obtain ⟨parent', key', children', flag', last', deleted'⟩ := st'
  simp only [MemoryNodeStore.rowOf, Option.some.injEq, Row.mk.injEq] at hrow hchildren
  obtain ⟨rfl, rfl, rfl, rfl⟩ := hrow
  subst hchildren
  rfl

end Treecrdt
