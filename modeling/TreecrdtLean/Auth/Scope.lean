import TreecrdtLean.Auth.Claims
import TreecrdtLean.Lib.Forest
import TreecrdtLean.Lib.Exec
import TreecrdtLean.Auth.Interface

/-!
# Scopes (`scope.ts`)

A capability grants actions on a subtree: a root, an optional depth, and excluded nodes. Whether a
node lies in it is a question about the tree, which a `ScopeEvaluator` answers; a few cases need no
tree. The answers are three-valued.
-/

namespace Treecrdt

namespace Auth

structure SubtreeScope where
  root : Bytes
  maxDepth : Option JsNumber
  exclude : Option (List Bytes)
  deriving DecidableEq

/-- The excluded nodes. -/
def SubtreeScope.excluded (scope : SubtreeScope) : List Bytes := scope.exclude.getD []

inductive ScopeTri where
  | allow
  | deny
  | unknown
  deriving DecidableEq

namespace ScopeTri

def triOr : ScopeTri → ScopeTri → ScopeTri
  | allow, _ | _, allow => allow
  | unknown, _ | _, unknown => unknown
  | deny, deny => deny

def triAnd : ScopeTri → ScopeTri → ScopeTri
  | deny, _ | _, deny => deny
  | unknown, _ | _, unknown => unknown
  | allow, allow => allow

theorem triOr_eq_allow {a b : ScopeTri} : a.triOr b = allow ↔ a = allow ∨ b = allow := by
  cases a <;> cases b <;> decide

theorem triAnd_eq_allow {a b : ScopeTri} : a.triAnd b = allow ↔ a = allow ∧ b = allow := by
  cases a <;> cases b <;> decide

theorem triOr_eq_deny {a b : ScopeTri} : a.triOr b = deny ↔ a = deny ∧ b = deny := by
  cases a <;> cases b <;> decide

theorem triAnd_eq_deny {a b : ScopeTri} : a.triAnd b = deny ↔ a = deny ∨ b = deny := by
  cases a <;> cases b <;> decide

end ScopeTri

/-- Is a node in a scope? Asked for a document, and allowed to fail. -/
abbrev ScopeEvaluator := String → Bytes → SubtreeScope → Except String ScopeTri

/-- `ROOT_NODE_ID_HEX`, as bytes. -/
def ROOT_NODE_ID : Bytes := List.replicate 16 0

/-- `TRASH_NODE_ID_HEX`, as bytes. -/
def TRASH_NODE_ID : Bytes := List.replicate 16 0xff

/-! ## Actions -/

/-- The actions of a capability, with those that come with them. -/
def expandCapabilityActions (actions : List Cbor) : List String :=
  let set := actions.map Cbor.jsString
  let set :=
    if "write_structure" ∈ set ∨ "write_payload" ∈ set ∨ "delete" ∈ set ∨ "tombstone" ∈ set
    then "read_structure" :: set else set
  if "write_payload" ∈ set then "read_payload" :: set else set

def requiredActionsForOp (op : Interface.Operation) : List String :=
  match op.kind with
  | .insert _ _ _ payload =>
    if payload.isSome then ["write_structure", "write_payload"] else ["write_structure"]
  | .move _ _ _ => ["write_structure"]
  | .delete _ => ["delete"]
  | .tombstone _ => ["tombstone"]
  | .payload _ _ => ["write_payload"]

structure ScopeCheck where
  node : Bytes
  actions : List String
  deriving DecidableEq

/-- The nodes that an operation must be allowed on. -/
def getRequiredScopeChecks (op : Interface.Operation) : Except String (List ScopeCheck) := do
  let actions := requiredActionsForOp op
  match op.kind with
  | .insert parent _ _ _ => return [⟨← Interface.nodeIdToBytes16 parent, actions⟩]
  | .move node newParent _ =>
    -- The source (node) and the destination (new parent).
    return [⟨← Interface.nodeIdToBytes16 node, actions⟩,
      ⟨← Interface.nodeIdToBytes16 newParent, actions⟩]
  | .delete node | .tombstone node | .payload node _ =>
    return [⟨← Interface.nodeIdToBytes16 node, actions⟩]

/-! ## Scopes of capabilities -/

/-- The entries of `res.exclude`. -/
def excludeEntries : List Cbor → Except String (List Bytes)
  | [] => .ok []
  | .bytes b :: rest => do return b :: (← excludeEntries rest)
  | _ => .error "capability res.exclude entries must be bytes"

def parseScope (res : Cbor) : Except String SubtreeScope := do
  if !res.isObject then
    .error "capability res missing or not an object"
  let .bytes root := getField res "root" | .error "capability res.root missing or not bytes"
  let maxDepth ← toNumber (getField res "max_depth") "max_depth"
  let excludeRaw := getField res "exclude"
  if excludeRaw.isNullish then
    return { root, maxDepth, exclude := none }
  let .array values := excludeRaw | .error "capability res.exclude must be an array"
  return { root, maxDepth, exclude := some (← excludeEntries values) }

def isDocWideScope (scope : SubtreeScope) : Bool :=
  scope.root = ROOT_NODE_ID && scope.maxDepth.isNone && scope.excluded.isEmpty

/-- The actions of a capability that speaks of the document, if it has all those required. -/
def capActions (cap : Cbor) (docId : String) (requiredActions : List String) : Option Cbor :=
  let res := getField cap "res"
  if !res.isObject then none
  else match getField cap "actions" with
    | .array actions =>
      if !(getField res "doc_id").isText docId then none
      else if requiredActions.all (· ∈ expandCapabilityActions actions) then some res
      else none
    | _ => none

def capAllowsNode (cap : Cbor) (docId : String) (node : Bytes) (requiredActions : List String)
    (scopeEvaluator : Option ScopeEvaluator) : Except String ScopeTri :=
  match capActions cap docId requiredActions with
  | none => .ok .deny
  | some res => do
    let scope ← parseScope res
    -- Cases that need no view of the tree.
    if node = scope.root then
      return .allow
    if isDocWideScope scope then
      return .allow
    match scopeEvaluator with
    | none => return .unknown
    | some evaluate => evaluate docId node scope

/-- The best answer of a list of capabilities, up to the first `allow`. -/
def bestOf (docId : String) (node : Bytes) (requiredActions : List String)
    (scopeEvaluator : Option ScopeEvaluator) : ScopeTri → List Cbor → Except String ScopeTri
  | best, [] => .ok best
  | best, cap :: caps => do
    let best := best.triOr (← capAllowsNode cap docId node requiredActions scopeEvaluator)
    if best = .allow then
      return best
    bestOf docId node requiredActions scopeEvaluator best caps

def capsAllowsNodeAccess (caps : List Cbor) (docId : String) (node : Bytes)
    (requiredActions : List String) (scopeEvaluator : Option ScopeEvaluator) :
    Except String ScopeTri :=
  bestOf docId node requiredActions scopeEvaluator .deny caps

/-- The loop of `capsAllowsOp` over the nodes to check. -/
def checkAll (caps : List Cbor) (docId : String) (scopeEvaluator : Option ScopeEvaluator) :
    ScopeTri → List ScopeCheck → Except String ScopeTri
  | overall, [] => .ok overall
  | overall, check :: checks => do
    let best ← bestOf docId check.node check.actions scopeEvaluator .deny caps
    checkAll caps docId scopeEvaluator (overall.triAnd best) checks

def capsAllowsOp (caps : List Cbor) (docId : String) (op : Interface.Operation)
    (scopeEvaluator : Option ScopeEvaluator) : Except String ScopeTri := do
  checkAll caps docId scopeEvaluator .allow (← getRequiredScopeChecks op)

/-! ## The nodes of a scope -/

/-- A walk up from the node meets the root of the scope within its depth, and no excluded node on
the way. `up` are the parents of the tree. -/
def InScope (up : Bytes → Option Bytes) (scope : SubtreeScope) (node : Bytes) : Prop :=
  ∃ hops : ℕ, Forest.Climb up (· ∉ scope.excluded) hops node scope.root ∧
    ∀ maxDepth ∈ scope.maxDepth, maxDepth.lt (JsNumber.ofInt hops) = false

/-- An evaluator that knows the tree. -/
structure ExactOn (up : Bytes → Option Bytes) (docId : String) (evaluate : ScopeEvaluator) :
    Prop where
  allow {node scope} : InScope up scope node → evaluate docId node scope = .ok .allow
  deny {node scope} : ¬ InScope up scope node → evaluate docId node scope = .ok .deny

theorem ExactOn.inScope {up : Bytes → Option Bytes} {docId : String} {evaluate : ScopeEvaluator}
    (h : ExactOn up docId evaluate) {node : Bytes} {scope : SubtreeScope}
    (ha : evaluate docId node scope = .ok .allow) : InScope up scope node := by
  by_contra hn
  rw [h.deny hn] at ha
  cases ha

open Classical in
/-- The evaluator that knows the tree and answers from it. -/
noncomputable def exactEvaluator (up : Bytes → Option Bytes) : ScopeEvaluator :=
  fun _ node scope => .ok (if InScope up scope node then .allow else .deny)

theorem exactEvaluator_exactOn (up : Bytes → Option Bytes) (docId : String) :
    ExactOn up docId (exactEvaluator up) where
  allow h := by rw [exactEvaluator, if_pos h]
  deny h := by rw [exactEvaluator, if_neg h]

/-- What `capAllowsNode` looks for: the root, any node of a scope without limits, or a node of the
region. -/
def Covers (up : Bytes → Option Bytes) (scope : SubtreeScope) (node : Bytes) : Prop :=
  node = scope.root ∨ isDocWideScope scope = true ∨ InScope up scope node

/-- The fields that `capActions` reads. -/
theorem capActions_eq_some {cap res : Cbor} {docId : String} {required : List String}
    (h : capActions cap docId required = some res) :
    res = getField cap "res" ∧ (getField res "doc_id").isText docId = true ∧
      ∃ actions, getField cap "actions" = .array actions ∧
        ∀ action ∈ required, action ∈ expandCapabilityActions actions := by
  unfold capActions at h
  simp only at h
  split at h
  · cases h
  · split at h
    · rename_i actions hactions
      split at h
      · cases h
      · rename_i hdoc
        split at h
        · rename_i hall
          cases h
          exact ⟨rfl, by simpa using hdoc, actions, hactions, by simpa using hall⟩
        · cases h
    · cases h

/-- A capability allows only what it covers, if the evaluator allows only what is in scope. -/
theorem capAllowsNode_allow {up : Bytes → Option Bytes} {docId : String}
    {evaluate : ScopeEvaluator}
    (hsound : ∀ node scope, evaluate docId node scope = .ok .allow → InScope up scope node)
    {cap : Cbor} {node : Bytes} {actions : List String}
    (h : capAllowsNode cap docId node actions (some evaluate) = .ok .allow) :
    ∃ res scope, capActions cap docId actions = some res ∧ parseScope res = .ok scope ∧
      Covers up scope node := by
  unfold capAllowsNode at h
  split at h
  · cases h
  · rename_i res hres
    obtain ⟨scope, hscope, h⟩ := except_bind_ok h
    refine ⟨res, scope, hres, hscope, ?_⟩
    split at h
    · exact Or.inl ‹_›
    · split at h
      · exact Or.inr (Or.inl ‹_›)
      · exact Or.inr (Or.inr (hsound node scope h))

/-- The answer of a list of capabilities is `allow` only if that of one of them is. -/
theorem bestOf_allow {docId : String} {node : Bytes} {actions : List String}
    {scopeEvaluator : Option ScopeEvaluator} {caps : List Cbor} {best : ScopeTri}
    (h : bestOf docId node actions scopeEvaluator best caps = .ok .allow) (hbest : best ≠ .allow) :
    ∃ cap ∈ caps, capAllowsNode cap docId node actions scopeEvaluator = .ok .allow := by
  induction caps generalizing best with
  | nil => exact absurd (Except.ok.inj h) hbest
  | cons cap caps ih =>
    obtain ⟨tri, htri, h⟩ := except_bind_ok h
    simp only at h
    split at h
    · rename_i hallow
      obtain hb | ht := ScopeTri.triOr_eq_allow.mp hallow
      · exact absurd hb hbest
      · exact ⟨cap, List.mem_cons_self, ht ▸ htri⟩
    · rename_i hnot
      obtain ⟨cap', hmem, hcap'⟩ := ih h hnot
      exact ⟨cap', List.mem_cons_of_mem _ hmem, hcap'⟩

/-- Every check of an allowed operation is allowed by a capability. -/
theorem checkAll_allow {caps : List Cbor} {docId : String}
    {scopeEvaluator : Option ScopeEvaluator} {overall : ScopeTri} {checks : List ScopeCheck}
    (h : checkAll caps docId scopeEvaluator overall checks = .ok .allow) :
    overall = .allow ∧ ∀ check ∈ checks, ∃ cap ∈ caps,
      capAllowsNode cap docId check.node check.actions scopeEvaluator = .ok .allow := by
  induction checks generalizing overall with
  | nil => exact ⟨Except.ok.inj h, by simp⟩
  | cons check checks ih =>
    obtain ⟨best, hbest, h⟩ := except_bind_ok h
    obtain ⟨hall, hrest⟩ := ih h
    obtain ⟨hover, rfl⟩ := ScopeTri.triAnd_eq_allow.mp hall
    exact ⟨hover, List.forall_mem_cons.mpr ⟨bestOf_allow hbest (by decide), hrest⟩⟩

theorem capsAllowsOp_allow {caps : List Cbor} {docId : String} {op : Interface.Operation}
    {scopeEvaluator : Option ScopeEvaluator}
    (h : capsAllowsOp caps docId op scopeEvaluator = .ok .allow) :
    ∃ checks, getRequiredScopeChecks op = .ok checks ∧ ∀ check ∈ checks, ∃ cap ∈ caps,
      capAllowsNode cap docId check.node check.actions scopeEvaluator = .ok .allow := by
  obtain ⟨checks, hchecks, h⟩ := except_bind_ok h
  exact ⟨checks, hchecks, (checkAll_allow h).2⟩

end Auth

end Treecrdt
