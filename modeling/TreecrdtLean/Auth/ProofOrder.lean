import TreecrdtLean.Auth.Delegation

/-!
# The order of capabilities in a proof (`capability.ts`)

The check of a delegated capability looks for the first capability of the proof from which its
actions may be delegated, and throws when that one does not contain it: a later one that does is not
tried (`assertCapWithin_ok_iff`). So the verdict on a token is that every delegated capability is
contained in one of the proof, in every order of the capabilities, exactly when the first of the
proof always is such a one (`orderIndependent_iff`).
-/

namespace Treecrdt

namespace Auth

variable {crypto : Crypto} {opts : TokenOptions} {docId : String}
variable {scopeEvaluator : Option ScopeEvaluator}

/-! ## Containment -/

/-- The delegated root lies in the region of the proof. -/
def RootWithin (docId : String) (scopeEvaluator : Option ScopeEvaluator)
    (proof delegated : SubtreeScope) : Prop :=
  delegated.root = proof.root ∨
    proof.maxDepth = none ∧ ∃ evaluate ∈ scopeEvaluator,
      evaluate docId delegated.root proof = .ok .allow

def MaxDepthWithin (proof delegated : Option JsNumber) : Prop :=
  ∀ limit ∈ proof, ∃ depth ∈ delegated, limit.lt depth = false

/-- The delegated scope is no wider than that of the proof. -/
def ScopeWithin (docId : String) (scopeEvaluator : Option ScopeEvaluator)
    (proof delegated : SubtreeScope) : Prop :=
  isDocWideScope proof = true ∨
    RootWithin docId scopeEvaluator proof delegated ∧
      MaxDepthWithin proof.maxDepth delegated.maxDepth ∧
      ∀ node ∈ proof.excluded, node ∈ delegated.excluded

/-- A capability of the proof contains a delegated one: it speaks of the same document, has the
right to grant and all the actions, and its scope is no narrower. -/
structure Contains (docId : String) (scopeEvaluator : Option ScopeEvaluator)
    (proofCap cap : Cbor) : Prop where
  isObject : (getField cap "res").isObject = true
  isDoc : (getField (getField cap "res") "doc_id").isText docId = true
  within : ∃ actions proofRes proofScope scope,
    getField cap "actions" = .array actions ∧ actions ≠ [] ∧
      delegableRes docId actions proofCap = some proofRes ∧ parseScope proofRes = .ok proofScope ∧
      parseScope (getField cap "res") = .ok scope ∧
      ScopeWithin docId scopeEvaluator proofScope scope

/-- The actions of a capability may be delegated from one of the proof, whatever their scopes. -/
def delegable (docId : String) (cap proofCap : Cbor) : Bool :=
  match getField cap "actions" with
  | .array actions => (delegableRes docId actions proofCap).isSome
  | _ => false

theorem throwIf_ok_iff {c : Prop} [Decidable c] {message : String} :
    throwIf c message = .ok () ↔ ¬ c :=
  ⟨throwIf_ok, fun h => if_neg h⟩

theorem except_bind_ok_iff {ε α β : Type} {x : Except ε α} {f : α → Except ε β} {b : β} :
    x >>= f = .ok b ↔ ∃ a, x = .ok a ∧ f a = .ok b := by
  refine ⟨except_bind_ok, ?_⟩
  rintro ⟨a, rfl, h⟩
  exact h

/-- A check in front of what is computed. -/
theorem except_check_ok_iff {ε β : Type} {x : Except ε Unit} {f : Unit → Except ε β} {b : β} :
    x >>= f = .ok b ↔ x = .ok () ∧ f () = .ok b := by
  rw [except_bind_ok_iff]
  refine ⟨?_, fun h => ⟨(), h⟩⟩
  rintro ⟨_, h⟩
  exact h

theorem assertRootWithin_ok_iff {proof delegated : SubtreeScope} :
    assertRootWithin docId scopeEvaluator proof delegated = .ok () ↔
      RootWithin docId scopeEvaluator proof delegated := by
  unfold assertRootWithin RootWithin
  split
  · rename_i heq
    exact ⟨fun _ => .inl heq, fun _ => rfl⟩
  · rename_i hne
    rw [except_check_ok_iff, throwIf_ok_iff, Option.isSome_iff_ne_none, not_not]
    simp only [hne, false_or]
    refine and_congr_right fun _ => ?_
    cases scopeEvaluator with
    | none => simp
    | some evaluate =>
      rw [except_bind_ok_iff]
      simp only [Option.mem_def, Option.some.injEq, exists_eq_left']
      constructor
      · rintro ⟨tri, heval, htri⟩
        cases tri with
        | allow => exact heval
        | deny | unknown => cases htri
      · exact fun heval => ⟨.allow, heval, rfl⟩

theorem assertMaxDepthWithin_ok_iff {proof delegated : Option JsNumber} :
    assertMaxDepthWithin proof delegated = .ok () ↔ MaxDepthWithin proof delegated := by
  cases proof with
  | none => exact ⟨fun _ => nofun, fun _ => rfl⟩
  | some limit =>
    cases delegated with
    | none => exact ⟨nofun, fun h => by obtain ⟨_, hnone, -⟩ := h limit rfl; cases hnone⟩
    | some depth =>
      rw [assertMaxDepthWithin, throwIf_ok_iff]
      simp [MaxDepthWithin]

theorem assertScopeWithin_ok_iff {proof delegated : SubtreeScope} :
    assertScopeWithin docId scopeEvaluator proof delegated = .ok () ↔
      ScopeWithin docId scopeEvaluator proof delegated := by
  unfold assertScopeWithin ScopeWithin
  split
  · rename_i hwide
    exact ⟨fun _ => .inl hwide, fun _ => rfl⟩
  · rename_i hwide
    rw [except_check_ok_iff, assertRootWithin_ok_iff, except_check_ok_iff,
      assertMaxDepthWithin_ok_iff, throwIf_ok_iff]
    simp [hwide]

/-! ## The first that is found -/

theorem Contains.delegable {proofCap cap : Cbor}
    (h : Contains docId scopeEvaluator proofCap cap) : delegable docId cap proofCap = true := by
  obtain ⟨actions, proofRes, _, _, hactions, -, hres, -⟩ := h.within
  simp [Auth.delegable, hactions, hres]

/-- The loop stops at the first capability from which the actions may be delegated. -/
theorem matchProofCap_true_iff {delegatedActions proofCaps : List Cbor} {delegatedRes : Cbor} :
    matchProofCap docId scopeEvaluator delegatedActions delegatedRes proofCaps = .ok true ↔
      ∃ proofCap ∈ proofCaps.find? fun proofCap =>
          (delegableRes docId delegatedActions proofCap).isSome,
        ∃ proofRes proofScope scope, delegableRes docId delegatedActions proofCap = some proofRes ∧
          parseScope proofRes = .ok proofScope ∧ parseScope delegatedRes = .ok scope ∧
          ScopeWithin docId scopeEvaluator proofScope scope := by
  induction proofCaps with
  | nil => exact ⟨nofun, nofun⟩
  | cons proofCap proofCaps ih =>
    unfold matchProofCap
    split
    · rename_i hnone
      rw [List.find?_cons_of_neg (by simp [hnone])]
      exact ih
    · rename_i proofRes hres
      rw [List.find?_cons_of_pos (by simp [hres])]
      constructor
      · intro h
        obtain ⟨proofScope, hproof, h⟩ := except_bind_ok h
        obtain ⟨scope, hscope, h⟩ := except_bind_ok h
        obtain ⟨hwithin, -⟩ := except_check_ok_iff.mp h
        exact ⟨proofCap, rfl, proofRes, proofScope, scope, hres, hproof, hscope,
          assertScopeWithin_ok_iff.mp hwithin⟩
      · rintro ⟨_, ⟨⟩, _, proofScope, scope, hres', hproof, hscope, hwithin⟩
        cases hres.symm.trans hres'
        exact except_bind_ok_iff.mpr ⟨proofScope, hproof, except_bind_ok_iff.mpr ⟨scope, hscope,
          except_check_ok_iff.mpr ⟨assertScopeWithin_ok_iff.mpr hwithin, rfl⟩⟩⟩

/-- A delegated capability passes when the first of the proof that is found contains it. -/
theorem assertCapWithin_ok_iff {proofCaps : List Cbor} {cap : Cbor} :
    assertCapWithin docId scopeEvaluator proofCaps cap = .ok () ↔
      ∃ proofCap ∈ proofCaps.find? (delegable docId cap),
        Contains docId scopeEvaluator proofCap cap := by
  constructor
  · intro h
    obtain ⟨_, hobj, h⟩ := except_bind_ok h
    split at h
    · rename_i action actions hactions
      obtain ⟨_, hdoc, h⟩ := except_bind_ok h
      obtain ⟨found, hfound, h⟩ := except_bind_ok h
      have hmatched : found = true := by simpa using throwIf_ok h
      obtain ⟨proofCap, hfirst, proofRes, proofScope, scope, hres, hproof, hscope, hwithin⟩ :=
        matchProofCap_true_iff.mp (hmatched ▸ hfound)
      refine ⟨proofCap, ?_, by simpa using throwIf_ok hobj, by simpa using throwIf_ok hdoc,
        action :: actions, proofRes, proofScope, scope, hactions, List.cons_ne_nil _ _, hres,
        hproof, hscope, hwithin⟩
      have hsame : delegable docId cap = fun proofCap =>
          (delegableRes docId (action :: actions) proofCap).isSome := by
        funext proofCap
        rw [delegable, hactions]
      rwa [hsame]
    · cases h
  · rintro ⟨proofCap, hfirst, hobj, hdoc, actions, proofRes, proofScope, scope, hactions, hne,
      hres, hproof, hscope, hwithin⟩
    obtain ⟨action, rest, rfl⟩ := List.exists_cons_of_ne_nil hne
    have hsame : delegable docId cap = fun proofCap =>
        (delegableRes docId (action :: rest) proofCap).isSome := by
      funext proofCap
      rw [delegable, hactions]
    rw [hsame] at hfirst
    have hmatch := matchProofCap_true_iff.mpr
      ⟨proofCap, hfirst, proofRes, proofScope, scope, hres, hproof, hscope, hwithin⟩
    refine except_check_ok_iff.mpr ⟨throwIf_ok_iff.mpr (by simp [hobj]), ?_⟩
    simp only [hactions]
    exact except_check_ok_iff.mpr ⟨throwIf_ok_iff.mpr (by simp [hdoc]),
      except_bind_ok_iff.mpr ⟨true, hmatch, throwIf_ok_iff.mpr (by simp)⟩⟩

/-! ## Tokens -/

/-- Every delegated capability is contained in one of the proof. -/
def AllContained (opts : TokenOptions) (proofCaps caps : List Cbor) : Prop :=
  ∀ cap ∈ caps, ∃ proofCap ∈ proofCaps, Contains opts.docId opts.scopeEvaluator proofCap cap

/-- Every delegated capability is contained in the first of the proof that is found for it. -/
def FirstContained (opts : TokenOptions) (proofCaps caps : List Cbor) : Prop :=
  ∀ cap ∈ caps, ∃ proofCap ∈ proofCaps.find? (delegable opts.docId cap),
    Contains opts.docId opts.scopeEvaluator proofCap cap

/-- A delegated token that passes all but the comparison of the capabilities, with its grant and
that of its proof. -/
structure Delegated (crypto : Crypto) (opts : TokenOptions) (tokenBytes : Bytes)
    (proof delegated : CapabilityGrant) : Prop where
  issuers : opts.issuerPublicKeys.isEmpty = false
  tokenId : checkTokenId crypto opts 0 tokenBytes [] = .ok ()
  issuer : verifyWithIssuers crypto tokenBytes opts.issuerPublicKeys = none
  chain : ∃ proofBytes, delegationProof crypto tokenBytes = .ok proofBytes ∧
    parseAndVerifyCapabilityTokenDepth crypto opts MAX_DELEGATION_PROOF_CHAIN proofBytes
      [deriveTokenIdV1 crypto tokenBytes] = .ok proof
  claims : ∃ payload, coseVerifySign1Ed25519 crypto tokenBytes proof.publicKey = .ok payload ∧
    parseCapabilityGrantFromClaims crypto opts.docId opts.nowSec tokenBytes payload =
      .ok delegated
  exp : assertExpWithin proof.exp delegated.exp = .ok ()
  nbf : assertNbfWithin proof.nbf delegated.nbf = .ok ()

def Accepted (crypto : Crypto) (opts : TokenOptions) (tokenBytes : Bytes) : Prop :=
  ∃ grant, parseAndVerifyCapabilityToken crypto opts tokenBytes = .ok grant

theorem forM_ok_iff {α : Type} {f : α → Except String Unit} {l : List α} :
    l.forM f = .ok () ↔ ∀ a ∈ l, f a = .ok () := by
  refine ⟨forM_ok, fun h => ?_⟩
  induction l with
  | nil => rfl
  | cons a l ih =>
    obtain ⟨ha, hl⟩ := List.forall_mem_cons.mp h
    exact except_check_ok_iff.mpr ⟨ha, ih hl⟩

theorem Delegated.accepted_iff {tokenBytes : Bytes} {proof delegated : CapabilityGrant}
    (h : Delegated crypto opts tokenBytes proof delegated) :
    Accepted crypto opts tokenBytes ↔ FirstContained opts proof.caps delegated.caps := by
  obtain ⟨proofBytes, hheader, hproof⟩ := h.chain
  obtain ⟨payload, hsigned, hclaims⟩ := h.claims
  have hwithin : assertDelegatedGrantWithinProof opts.docId opts.scopeEvaluator proof delegated =
      .ok () ↔ FirstContained opts proof.caps delegated.caps := by
    simp only [assertDelegatedGrantWithinProof, except_check_ok_iff, h.exp, h.nbf, true_and,
      forM_ok_iff, assertCapWithin_ok_iff, FirstContained]
  rw [← hwithin, Accepted, parseAndVerifyCapabilityToken, parseAndVerifyCapabilityTokenDepth]
  simp only [h.issuer]
  constructor
  · rintro ⟨grant, hrun⟩
    obtain ⟨-, hrun⟩ := except_check_ok_iff.mp hrun
    obtain ⟨-, hrun⟩ := except_check_ok_iff.mp hrun
    obtain ⟨_, hheader', hrun⟩ := except_bind_ok hrun
    cases hheader.symm.trans hheader'
    obtain ⟨_, hproof', hrun⟩ := except_bind_ok hrun
    cases hproof.symm.trans hproof'
    obtain ⟨_, hsigned', hrun⟩ := except_bind_ok hrun
    cases hsigned.symm.trans hsigned'
    obtain ⟨_, hclaims', hrun⟩ := except_bind_ok hrun
    cases hclaims.symm.trans hclaims'
    exact (except_check_ok_iff.mp hrun).1
  · intro hok
    exact ⟨delegated, except_check_ok_iff.mpr ⟨throwIf_ok_iff.mpr (by simp [h.issuers]),
      except_check_ok_iff.mpr ⟨h.tokenId, except_bind_ok_iff.mpr ⟨proofBytes, hheader,
      except_bind_ok_iff.mpr ⟨proof, hproof, except_bind_ok_iff.mpr ⟨payload, hsigned,
      except_bind_ok_iff.mpr ⟨delegated, hclaims, except_check_ok_iff.mpr ⟨hok, rfl⟩⟩⟩⟩⟩⟩⟩⟩

/-- In every order of the capabilities of the proof and of the token, the verdict is that every
delegated capability is contained in one of the proof. -/
def OrderIndependent (crypto : Crypto) (opts : TokenOptions)
    (proof delegated : CapabilityGrant) : Prop :=
  ∀ tokenBytes proof' delegated', Delegated crypto opts tokenBytes proof' delegated' →
    proof'.caps.Perm proof.caps → delegated'.caps.Perm delegated.caps →
    (Accepted crypto opts tokenBytes ↔ AllContained opts proof.caps delegated.caps)

theorem FirstContained.all {proofCaps caps : List Cbor} (h : FirstContained opts proofCaps caps) :
    AllContained opts proofCaps caps := fun cap hcap => by
  obtain ⟨proofCap, hfirst, hcontains⟩ := h cap hcap
  exact ⟨proofCap, List.mem_of_find?_eq_some hfirst, hcontains⟩

theorem AllContained.perm {proofCaps proofCaps' caps caps' : List Cbor}
    (h : AllContained opts proofCaps caps) (hproof : proofCaps.Perm proofCaps')
    (hcaps : caps.Perm caps') : AllContained opts proofCaps' caps' := fun cap hcap => by
  obtain ⟨proofCap, hmem, hcontains⟩ := h cap (hcaps.mem_iff.mpr hcap)
  exact ⟨proofCap, hproof.mem_iff.mp hmem, hcontains⟩

/-- The verdict does not depend on the order exactly when, in each order, the first capability of
the proof that is found for a delegated one contains it, if all of them are contained at all. -/
theorem orderIndependent_iff (crypto : Crypto) (opts : TokenOptions)
    (proof delegated : CapabilityGrant) :
    OrderIndependent crypto opts proof delegated ↔
      ∀ tokenBytes proof' delegated', Delegated crypto opts tokenBytes proof' delegated' →
        proof'.caps.Perm proof.caps → delegated'.caps.Perm delegated.caps →
        AllContained opts proof'.caps delegated'.caps →
        ∀ cap ∈ delegated'.caps, ∀ proofCap ∈ proof'.caps.find? (delegable opts.docId cap),
          Contains opts.docId opts.scopeEvaluator proofCap cap := by
  refine forall_congr' fun tokenBytes => forall_congr' fun proof' => forall_congr' fun delegated' =>
    forall_congr' fun htoken => forall_congr' fun hproof => forall_congr' fun hdelegated => ?_
  rw [htoken.accepted_iff]
  constructor
  · intro hverdict hall cap hcap proofCap hfound
    obtain ⟨first, hfirst, hcontains⟩ :=
      hverdict.mpr (hall.perm hproof hdelegated) cap hcap
    cases Option.mem_unique hfirst hfound
    exact hcontains
  · intro hfirst
    refine ⟨fun h => h.all.perm hproof hdelegated, fun hall cap hcap => ?_⟩
    have hall := hall.perm hproof.symm hdelegated.symm
    obtain ⟨proofCap, hmem, hcontains⟩ := hall cap hcap
    cases hfound : proof'.caps.find? (delegable opts.docId cap) with
    | none =>
      have hnot := List.find?_eq_none.mp hfound proofCap hmem
      exact absurd hcontains.delegable hnot
    | some first => exact ⟨first, rfl, hfirst hall cap hcap first hfound⟩

/-! A proof with a capability on one subtree and then one on the whole document, and a token that
is delegated from the second. -/

/-- A capability on a subtree of the document `d`. -/
def sampleCap (root : Bytes) (actions : List String) : Cbor :=
  .map [(.text "res", .map [(.text "root", .bytes root), (.text "doc_id", .text "d")]),
    (.text "actions", .array (actions.map .text))]

def sampleCapsClaims (pub : Bytes) (caps : List Cbor) : Cbor :=
  .map [(.number (.ofInt 8), .map [(.text "pub", .bytes pub)]),
    (.number (.ofInt (-1)), .array caps)]

def narrowFirstClaims : Cbor :=
  sampleCapsClaims [2] [sampleCap (List.replicate 16 7) ["write_payload", "grant"],
    sampleCap ROOT_NODE_ID ["write_payload", "grant"]]

def narrowFirstProof : Cbor := sampleToken [] narrowFirstClaims [1]

def wideClaims : Cbor := sampleCapsClaims [3] [sampleCap ROOT_NODE_ID ["write_payload"]]

def wideToken : Cbor :=
  sampleToken [(.text "treecrdt.delegation_proof_v1", .bytes narrowFirstProof.encode)]
    wideClaims [2]

def wideCrypto : Crypto :=
  sampleCrypto [narrowFirstClaims, narrowFirstProof, wideClaims, wideToken]

/-- The root of the document is in no subtree. -/
def wideOptions : TokenOptions where
  issuerPublicKeys := [[1]]
  docId := "d"
  nowSec := 10
  scopeEvaluator := some fun _ _ _ => .ok .deny
  revokedCapabilityTokenIds := none
  isCapabilityTokenRevoked := none

/-- The grant of the proof, and the one of the token. -/
def wideGrants : Except String (CapabilityGrant × CapabilityGrant) := do
  let proof ← parseAndVerifyCapabilityTokenDepth wideCrypto wideOptions MAX_DELEGATION_PROOF_CHAIN
    narrowFirstProof.encode [deriveTokenIdV1 wideCrypto wideToken.encode]
  let payload ← coseVerifySign1Ed25519 wideCrypto wideToken.encode proof.publicKey
  let delegated ← parseCapabilityGrantFromClaims wideCrypto "d" 10 wideToken.encode payload
  assertExpWithin proof.exp delegated.exp
  assertNbfWithin proof.nbf delegated.nbf
  return (proof, delegated)

/-- The token is rejected for the first capability of its proof, although the second contains
what it grants. -/
theorem narrowFirst_rejected : ¬ ∀ (crypto : Crypto) (opts : TokenOptions) (tokenBytes : Bytes)
    (proof delegated : CapabilityGrant),
    (∃ evaluate, opts.scopeEvaluator = some evaluate ∧ ∀ docId node scope,
      evaluate docId node scope = .ok .allow ∨ evaluate docId node scope = .ok .deny) →
    Delegated crypto opts tokenBytes proof delegated →
    OrderIndependent crypto opts proof delegated := by
  intro hclaim
  have hgrants : (wideGrants.map fun grants => grants.2.caps.all fun cap =>
      grants.1.caps.any fun proofCap =>
        assertCapWithin "d" wideOptions.scopeEvaluator [proofCap] cap = .ok ()) = .ok true := by
    decide +kernel
  have hrejected : (parseAndVerifyCapabilityToken wideCrypto wideOptions wideToken.encode).map
      (fun _ => ()) = .error "delegated capability root is outside proof scope" := by
    decide +kernel
  obtain ⟨⟨proof, delegated⟩, hrun, hcontained⟩ := except_map_ok hgrants
  obtain ⟨proof, hproof, hrun⟩ := except_bind_ok hrun
  obtain ⟨payload, hsigned, hrun⟩ := except_bind_ok hrun
  obtain ⟨delegated, hclaims, hrun⟩ := except_bind_ok hrun
  obtain ⟨hexp, hrun⟩ := except_check_ok_iff.mp hrun
  obtain ⟨hnbf, hrun⟩ := except_check_ok_iff.mp hrun
  cases hrun
  have htoken : Delegated wideCrypto wideOptions wideToken.encode proof delegated :=
    { issuers := rfl
      tokenId := by decide +kernel
      issuer := by decide +kernel
      chain := ⟨narrowFirstProof.encode, by decide +kernel, hproof⟩
      claims := ⟨payload, hsigned, hclaims⟩
      exp := hexp
      nbf := hnbf }
  have hall : AllContained wideOptions proof.caps delegated.caps := fun cap hcap => by
    obtain ⟨proofCap, hmem, hone⟩ := List.any_eq_true.mp (List.all_eq_true.mp hcontained cap hcap)
    obtain ⟨found, hfound, hcontains⟩ := assertCapWithin_ok_iff.mp (of_decide_eq_true hone)
    cases List.mem_singleton.mp (List.mem_of_find?_eq_some hfound)
    exact ⟨proofCap, hmem, hcontains⟩
  obtain ⟨grant, hgrant⟩ := (hclaim wideCrypto wideOptions wideToken.encode proof delegated
    ⟨_, rfl, fun _ _ _ => .inr rfl⟩ htoken wideToken.encode proof delegated htoken
    (List.Perm.refl _) (List.Perm.refl _)).mpr hall
  rw [hgrant] at hrejected
  cases hrejected

end Auth

end Treecrdt
