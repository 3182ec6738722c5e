import TreecrdtLean.Auth.Materialized
import TreecrdtLean.Spec.Memory
import TreecrdtLean.Spec.Place

/-!
# Writers with a scope

`capsAllowsOp` checks nodes that the application picks by kind of operation; the core changes nodes
by rules of its own. `changed_apply` says that the core changes only the node of the operation,
which is among the checked ones for every kind but insert: an insert is checked at the parent, and
the core hangs a node that exists already elsewhere and overwrites its payload.
-/

namespace Treecrdt

/-! ## What an insert changes -/

namespace Doc

/-- An insert of `node` under `parent` hangs it elsewhere. -/
def Rehangs (b : Backend) (d : Doc) (parent node : NodeId) (key : Bytes) : Prop :=
  parent ≠ node ∧ ¬ d.rows.Cyclic node parent ∧ b.pinned node = false ∧
    d.rows.place node ≠ (some parent, b.keyUnder parent key, (d.rows.row node).deletedAt)

/-- A payload that wins over the one of the node, and differs. -/
def Overwrites (d : Doc) (op : Operation) (node : NodeId) (payload : Option Bytes) : Prop :=
  payload.isSome ∧ newerThan op (d.payloads node).lastWriter ∧ payload ≠ (d.payloads node).payload

open Classical in
theorem place_insert {b : Backend} {r : Rows} {op : Operation} {p n : NodeId} {key : Bytes} :
    (r.insert b op p n key).place n =
      if p ≠ n ∧ ¬ r.Cyclic n p ∧ b.pinned n = false
      then (some p, b.keyUnder p key, (r.row n).deletedAt) else r.place n := by
  have hn : (((r.ensure p).ensure n) n).isSome := Rows.isSome_ensure.mpr (Or.inl rfl)
  have hplace : ((r.ensure p).ensure n).place = r.place := by
    rw [Rows.place_ensure, Rows.place_ensure]
  unfold Rows.insert
  by_cases hacc : p = n ∨ r.Cyclic n p
  · rw [if_pos hacc, if_neg (by tauto)]
  · rw [if_neg hacc, Rows.place_touch, Rows.place_touch]
    cases hpin : b.pinned n
    · rw [if_pos (by tauto), Rows.place_reparent_self hn hpin, hplace]
      rfl
    · rw [if_neg (fun h => absurd h.2.2 (by decide)), Rows.reparent, if_pos hpin, hplace]

/-- An insert changes its node if it hangs it elsewhere or overwrites its payload. -/
theorem changed_insert {b : Backend} {d : Doc} {op : Operation} {p n : NodeId} {key : Bytes}
    {payload : Option Bytes} (hk : op.kind = .insert p n key payload) :
    Changed d (d.apply b op) n ↔ d.Rehangs b p n key ∨ d.Overwrites op n payload := by
  have hplace : (d.ensure n).rows.place = d.rows.place := by rw [ensure, Rows.place_ensure]
  have hcyc : (d.ensure n).rows.Cyclic n p ↔ d.rows.Cyclic n p :=
    Rows.cyclic_congr Rows.parent_ensure
  have hdel : ((d.ensure n).rows.row n).deletedAt = (d.rows.row n).deletedAt :=
    congrArg (fun place => place.2.2) (congrFun hplace n)
  have hrows : ((d.ensure n).rows.insert b op p n key).place n ≠ d.rows.place n ↔
      d.Rehangs b p n key := by
    rw [place_insert, hplace, hcyc, hdel, Rehangs]
    split
    · rename_i hacc
      rw [ne_comm]
      tauto
    · tauto
  unfold apply Changed
  rw [hk]
  simp only [OperationKind.node, applyKind]
  split
  · rename_i hsome
    rw [place_writePayload]
    refine or_congr hrows ?_
    unfold writePayload Overwrites
    by_cases hnew : newerThan op (d.payloads n).lastWriter = true
    · simp [ensure, hnew, hsome]
    · simp [ensure, hnew]
  · rename_i hnone
    refine or_congr hrows ?_
    simp [ensure, Overwrites, hnone]

end Doc

/-! ## What the checks allow -/

namespace Auth

variable {up : Bytes → Option Bytes} {docId : String} {evaluate : ScopeEvaluator}

/-- What `capAllowsNode` looks for: the root of the scope, any node of a scope that is the whole
document, or a node of the region. -/
def InGrantedScope (up : Bytes → Option Bytes) (docId : String) (caps : List Cbor)
    (node : Bytes) : Prop :=
  ∃ cap ∈ caps, (getField (getField cap "res") "doc_id").isText docId ∧
    ∃ scope, parseScope (getField cap "res") = .ok scope ∧ Covers up scope node

/-- Only nodes of a granted scope changed, and nodes without a row. -/
def Confined (docId : String) (caps : List Cbor) (d d' : Doc) : Prop :=
  ∀ n, Doc.Changed d d' n →
    InGrantedScope d.rows.parents docId caps (nodeToBlob n) ∨ d.rows n = none

/-- An insert of a node that has a row and lies in no granted scope, which the core accepts: it
hangs the node elsewhere or overwrites its payload. -/
def TakesOver (b : Backend) (docId : String) (caps : List Cbor) (d : Doc)
    (op : Treecrdt.Operation) : Prop :=
  ∃ parent node key payload, op.kind = .insert parent node key payload ∧
    (d.rows node).isSome ∧ ¬ InGrantedScope d.rows.parents docId caps (nodeToBlob node) ∧
    (d.Rehangs b parent node key ∨ d.Overwrites op node payload)

/-- The nodes of the required checks of an allowed operation are in granted scopes. -/
theorem inGrantedScope_of_allow
    (hsound : ∀ node scope, evaluate docId node scope = .ok .allow → InScope up scope node)
    {caps : List Cbor} {op : Interface.Operation}
    (h : capsAllowsOp caps docId op (some evaluate) = .ok .allow) :
    ∃ checks, getRequiredScopeChecks op = .ok checks ∧
      ∀ check ∈ checks, InGrantedScope up docId caps check.node := by
  obtain ⟨checks, hchecks, hall⟩ := capsAllowsOp_allow h
  refine ⟨checks, hchecks, fun check hcheck => ?_⟩
  obtain ⟨cap, hcap, hallow⟩ := hall check hcheck
  obtain ⟨res, scope, hact, hscope, hcovers⟩ := capAllowsNode_allow hsound hallow
  obtain ⟨rfl, hdoc, -⟩ := capActions_eq_some hact
  exact ⟨cap, hcap, hdoc, scope, hscope, hcovers⟩

/-- For every kind but insert, the node that changes is one of the checked ones. -/
theorem inGrantedScope_node
    (hsound : ∀ node scope, evaluate docId node scope = .ok .allow → InScope up scope node)
    {caps : List Cbor} {op : Interface.Operation}
    (h : capsAllowsOp caps docId op (some evaluate) = .ok .allow) {kind : Treecrdt.OperationKind}
    (hop : Lowers op.kind kind) (hkind : ∀ p n key payload, kind ≠ .insert p n key payload) :
    InGrantedScope up docId caps (nodeToBlob kind.node) := by
  obtain ⟨checks, hchecks, hall⟩ := inGrantedScope_of_allow hsound h
  unfold getRequiredScopeChecks at hchecks
  cases hk : op.kind <;> rw [hk] at hop hchecks <;> cases hop
  case insert.insert => exact absurd rfl (hkind _ _ _ _)
  case move.move hn hp =>
    simp only [hn, hp] at hchecks
    cases hchecks
    exact hall _ List.mem_cons_self
  case delete.delete hn =>
    simp only [hn] at hchecks
    cases hchecks
    exact hall _ List.mem_cons_self
  case tombstone.tombstone hn =>
    simp only [hn] at hchecks
    cases hchecks
    exact hall _ List.mem_cons_self
  case payload.payload hn =>
    simp only [hn] at hchecks
    cases hchecks
    exact hall _ List.mem_cons_self

def siblings : List Treecrdt.Operation :=
  [.insert ⟨[1]⟩ 1 1 NodeId.ROOT ⟨5⟩ [0, 1], .insert ⟨[1]⟩ 2 2 NodeId.ROOT ⟨6⟩ [0, 2]]

noncomputable def siblingsDoc : Doc := Doc.initial.applyAll Backend.memory siblings

def subtreeCap : Cbor :=
  .map [(.text "res", .map [(.text "root", .bytes (nodeToBlob ⟨5⟩)), (.text "doc_id", .text "d")]),
    (.text "actions", .array [.text "write_structure"])]

/-- The other node, inserted into the scope. -/
def grab : Interface.Operation where
  metadata := { id := { replica := [2], counter := 1 }, lamport := 3, knownState := none }
  kind := .insert "00000000000000000000000000000005" "00000000000000000000000000000006" [0, 1] none

def grabLowered : Treecrdt.Operation := .insert ⟨[2]⟩ 1 3 ⟨5⟩ ⟨6⟩ [0, 1]

private theorem grab_lowers : Lowers grab.kind grabLowered.kind :=
  .insert (by decide +kernel) (by decide +kernel)

private theorem grab_allowed (evaluate : ScopeEvaluator) :
    capsAllowsOp [subtreeCap] "d" grab (some evaluate) = .ok .allow := by rfl

/-- The stores of the two nodes. -/
private theorem siblings_stores : ∃ s : MemoryStores,
    forwardAll siblings (MemoryNodeStore.default, {}) = some (.ok (), s) ∧
      ModelsDoc s siblingsDoc ∧ s.1.parent ⟨5⟩ = some NodeId.ROOT ∧
      s.1.parent ⟨6⟩ = some NodeId.ROOT ∧ ∃ snap s', applyForward grabLowered s =
        some (.ok snap, s') ∧ s'.1.parent ⟨6⟩ = some ⟨5⟩ := by
  obtain ⟨_, s, hrun, -, hs⟩ := forwardAll_runs Doc.acyclic_initial siblings _ initial_models
  refine ⟨s, hrun, hs, ?_⟩
  obtain rfl := congrArg Prod.snd (Option.some.inj hrun)
  exact ⟨rfl, rfl, _, _, rfl, rfl⟩

/-- The other node is in no granted scope. -/
private theorem siblings_outside :
    ¬ InGrantedScope siblingsDoc.rows.parents "d" [subtreeCap] (nodeToBlob ⟨6⟩) := by
  obtain ⟨s, -, hs, -, h6, -⟩ := siblings_stores
  have hup : siblingsDoc.rows.parents (nodeToBlob ⟨6⟩) = some (nodeToBlob NodeId.ROOT) := by
    rw [Rows.parents, blobToNode_nodeToBlob, Option.bind_some, Rows.up, if_neg (by decide),
      ← MemoryNodeStore.Models.parent hs.1, h6]
    rfl
  have hroot : siblingsDoc.rows.parents (nodeToBlob NodeId.ROOT) = none := by
    rw [Rows.parents, blobToNode_nodeToBlob, Option.bind_some, Rows.up_special (Or.inr rfl)]
    rfl
  rintro ⟨cap, hcap, -, scope, hscope, hcovers⟩
  obtain rfl := List.mem_singleton.mp hcap
  obtain rfl : (⟨nodeToBlob ⟨5⟩, none, none⟩ : SubtreeScope) = scope := Except.ok.inj hscope
  obtain h | h | ⟨hops, hclimb, -⟩ := hcovers
  · exact absurd h (by decide)
  · exact absurd h (by decide)
  · cases hclimb with
    | step _ hab hbc =>
      obtain rfl := Option.some.inj (hup.symm.trans hab)
      exact absurd (hbc.eq_of_none hroot) (by decide)

end Auth

end Treecrdt
