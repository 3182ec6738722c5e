import TreecrdtLean.Auth.Capability

/-!
# Delegation gives no more than the proof has

`ProofChain` is the list of grants from a token up to one that an issuer signed. In an accepted
chain every grant was compared with the next one (`accepted_chain`). Over a tree that the scope
evaluator knows exactly, such a grant permits what the next one permits, unless a limit of it is
`NaN` (`attenuates_iff_not_nanSlip`): every comparison with `NaN` is false, also the ones that
reject.
-/

namespace Treecrdt

namespace Auth

variable {crypto : Crypto} {opts : TokenOptions}

/-! ## What a verified token passed -/

/-- The checks on the claims of one token. -/
structure Verified (crypto : Crypto) (nowSec : Rat) (tokenBytes : Bytes)
    (grant : CapabilityGrant) : Prop where
  tokenId : grant.tokenId = deriveTokenIdV1 crypto tokenBytes
  keyId : grant.keyId = deriveKeyIdV1 crypto grant.publicKey
  caps : grant.caps ≠ []
  exp : expiredAt grant.exp nowSec = false
  nbf : notYetValidAt grant.nbf nowSec = false

theorem parseKeyId_ok {derivedKeyId keyId : Bytes} {kid : Cbor}
    (h : parseKeyId derivedKeyId kid = .ok keyId) : keyId = derivedKeyId := by
  unfold parseKeyId at h
  split at h
  · exact (Except.ok.inj h).symm
  · exact (Except.ok.inj h).symm
  · obtain ⟨_, hk, h⟩ := except_bind_ok h
    rw [← Except.ok.inj h]
    exact not_not.mp (throwIf_ok hk)
  · cases h

theorem parseCapabilityGrantFromClaims_ok {docId : String} {nowSec : Rat}
    {tokenBytes claimsBytes : Bytes} {grant : CapabilityGrant}
    (h : parseCapabilityGrantFromClaims crypto docId nowSec tokenBytes claimsBytes = .ok grant) :
    Verified crypto nowSec tokenBytes grant := by
  unfold parseCapabilityGrantFromClaims at h
  obtain ⟨_, -, h⟩ := except_bind_ok h
  split at h
  · obtain ⟨_, -, h⟩ := except_bind_ok h
    obtain ⟨exp, -, h⟩ := except_bind_ok h
    obtain ⟨nbf, -, h⟩ := except_bind_ok h
    obtain ⟨_, hexp, h⟩ := except_bind_ok h
    obtain ⟨_, hnbf, h⟩ := except_bind_ok h
    split at h
    · split at h
      · obtain ⟨keyId, hkey, h⟩ := except_bind_ok h
        split at h
        · cases h
          exact ⟨rfl, parseKeyId_ok hkey, by simp, by simpa using throwIf_ok hexp,
            by simpa using throwIf_ok hnbf⟩
        · cases h
      · cases h
    · cases h
  · cases h

/-- The grants of a token and of the proofs up to the one that an issuer signed. -/
inductive ProofChain (crypto : Crypto) (opts : TokenOptions) :
    Bytes → List CapabilityGrant → Prop
  | issued {tokenBytes payload : Bytes} {grant : CapabilityGrant}
      (issuer : verifyWithIssuers crypto tokenBytes opts.issuerPublicKeys = some payload)
      (claims : parseCapabilityGrantFromClaims crypto opts.docId opts.nowSec tokenBytes payload =
        .ok grant) :
      ProofChain crypto opts tokenBytes [grant]
  | delegated {tokenBytes proofBytes payload : Bytes} {grant proof : CapabilityGrant}
      {proofs : List CapabilityGrant}
      (issuer : verifyWithIssuers crypto tokenBytes opts.issuerPublicKeys = none)
      (header : delegationProof crypto tokenBytes = .ok proofBytes)
      (chain : ProofChain crypto opts proofBytes (proof :: proofs))
      (signed : coseVerifySign1Ed25519 crypto tokenBytes proof.publicKey = .ok payload)
      (claims : parseCapabilityGrantFromClaims crypto opts.docId opts.nowSec tokenBytes payload =
        .ok grant) :
      ProofChain crypto opts tokenBytes (grant :: proof :: proofs)

/-- A grant that stands and was compared with the next one. -/
structure Link (opts : TokenOptions) (delegated proof : CapabilityGrant) : Prop where
  within : assertDelegatedGrantWithinProof opts.docId opts.scopeEvaluator proof delegated = .ok ()
  caps : delegated.caps ≠ []
  exp : expiredAt delegated.exp opts.nowSec = false
  nbf : notYetValidAt delegated.nbf opts.nowSec = false
  proofExp : expiredAt proof.exp opts.nowSec = false
  proofNbf : notYetValidAt proof.nbf opts.nowSec = false

/-- The first grant of a chain is that of the token. -/
theorem ProofChain.verified {tokenBytes : Bytes} {grant : CapabilityGrant}
    {proofs : List CapabilityGrant} (h : ProofChain crypto opts tokenBytes (grant :: proofs)) :
    Verified crypto opts.nowSec tokenBytes grant := by
  cases h with
  | issued _ claims => exact parseCapabilityGrantFromClaims_ok claims
  | delegated _ _ _ _ claims => exact parseCapabilityGrantFromClaims_ok claims

/-- Every link of an accepted chain was checked. -/
theorem acceptedDepth_chain {left : ℕ} {tokenBytes : Bytes} {seenTokenIds : List Bytes}
    {grant : CapabilityGrant}
    (h : parseAndVerifyCapabilityTokenDepth crypto opts left tokenBytes seenTokenIds = .ok grant) :
    ∃ proofs, ProofChain crypto opts tokenBytes (grant :: proofs) ∧
      (grant :: proofs).IsChain (Link opts) := by
  induction left generalizing tokenBytes seenTokenIds grant with
  | zero =>
    obtain ⟨_, -, h⟩ := except_bind_ok h
    cases h
  | succ left ih =>
    obtain ⟨_, -, h⟩ := except_bind_ok h
    obtain ⟨_, -, h⟩ := except_bind_ok h
    split at h
    · rename_i payload issuer
      exact ⟨[], .issued issuer h, .singleton _⟩
    · rename_i issuer
      obtain ⟨proofBytes, header, h⟩ := except_bind_ok h
      obtain ⟨proof, hproof, h⟩ := except_bind_ok h
      obtain ⟨payload, signed, h⟩ := except_bind_ok h
      obtain ⟨delegated, claims, h⟩ := except_bind_ok h
      obtain ⟨_, within, h⟩ := except_bind_ok h
      cases h
      obtain ⟨proofs, chain, links⟩ := ih hproof
      have hp := chain.verified
      have hd := parseCapabilityGrantFromClaims_ok claims
      exact ⟨proof :: proofs, .delegated issuer header chain signed claims,
        .cons_cons ⟨within, hd.caps, hd.exp, hd.nbf, hp.exp, hp.nbf⟩ links⟩

theorem accepted_chain {tokenBytes : Bytes} {grant : CapabilityGrant}
    (h : parseAndVerifyCapabilityToken crypto opts tokenBytes = .ok grant) :
    ∃ proofs, ProofChain crypto opts tokenBytes (grant :: proofs) ∧
      (grant :: proofs).IsChain (Link opts) :=
  acceptedDepth_chain h

/-! ## What a grant permits -/

/-- Within the validity window. -/
def CapabilityGrant.validAt (grant : CapabilityGrant) (t : Rat) : Prop :=
  expiredAt grant.exp t = false ∧ notYetValidAt grant.nbf t = false

/-- One of the capabilities allows the action on the node. -/
def CapabilityGrant.allows (docId : String) (evaluate : ScopeEvaluator) (grant : CapabilityGrant)
    (action : String) (node : Bytes) : Prop :=
  ∃ cap ∈ grant.caps, capAllowsNode cap docId node [action] (some evaluate) = .ok .allow

def CapabilityGrant.Permits (docId : String) (evaluate : ScopeEvaluator)
    (grant : CapabilityGrant) (action : String) (node : Bytes) (t : Rat) : Prop :=
  grant.validAt t ∧ grant.allows docId evaluate action node

/-- `delegated` permits nothing that `proof` does not. -/
def Attenuates (docId : String) (evaluate : ScopeEvaluator)
    (delegated proof : CapabilityGrant) : Prop :=
  ∀ action node t, delegated.Permits docId evaluate action node t →
    proof.Permits docId evaluate action node t

/-- A limit that is `NaN` where the proof has one: a validity bound, or the depth of a capability
that reaches a node which no capability of the proof reaches. -/
inductive NaNSlip (docId : String) (evaluate : ScopeEvaluator)
    (delegated proof : CapabilityGrant) : Prop
  | exp (limit : Rat) (hd : delegated.exp = some .nan) (hp : proof.exp = some (.finite limit))
  | nbf (limit : Rat) (hd : delegated.nbf = some .nan) (hp : proof.nbf = some (.finite limit))
  | maxDepth (cap : Cbor) (hcap : cap ∈ delegated.caps) (scope : SubtreeScope)
      (hscope : parseScope (getField cap "res") = .ok scope) (hd : scope.maxDepth = some .nan)
      (action : String) (node : Bytes)
      (allowed : capAllowsNode cap docId node [action] (some evaluate) = .ok .allow)
      (hp : ¬ proof.allows docId evaluate action node)

/-! ## Windows -/

theorem expiredAt_mono {exp : Option JsNumber} {t u : Rat} (h : expiredAt exp u = false)
    (htu : t ≤ u) : expiredAt exp t = false := by
  cases exp with
  | none => rfl
  | some exp => cases exp <;> simp_all [expiredAt, JsNumber.lt]; grind

theorem notYetValidAt_mono {nbf : Option JsNumber} {t u : Rat}
    (h : notYetValidAt nbf t = false) (htu : t ≤ u) : notYetValidAt nbf u = false := by
  cases nbf with
  | none => rfl
  | some nbf => cases nbf <;> simp_all [notYetValidAt, JsNumber.lt]; grind

theorem exp_within {proof delegated : Option JsNumber} {nowSec t : Rat}
    (h : assertExpWithin proof delegated = .ok ()) (hnow : expiredAt proof nowSec = false)
    (hnan : ∀ limit, delegated = some .nan → proof ≠ some (.finite limit))
    (ht : expiredAt delegated t = false) : expiredAt proof t = false := by
  match proof, delegated with
  | none, _ => rfl
  | some _, none => cases h
  | some p, some d =>
    have hpd : p.lt d = false := by simpa using throwIf_ok h
    by_cases hd : d = .nan
    · subst hd
      -- The proof has no limit that a time can pass.
      cases p with
      | finite limit => exact absurd rfl (hnan limit rfl)
      | negInfinity => cases hnow
      | nan => rfl
      | infinity => rfl
    · by_contra hp
      have hpt : p.lt (.finite t) = true := by simpa [expiredAt] using hp
      have hpn : p ≠ .nan := fun e => by rw [e] at hpt; cases hpt
      have hdt : d.lt (.finite t) = true := JsNumber.lt_of_not_lt hpn hpd hd hpt
      simp [expiredAt, hdt] at ht

theorem nbf_within {proof delegated : Option JsNumber} {nowSec t : Rat}
    (h : assertNbfWithin proof delegated = .ok ()) (hnow : notYetValidAt proof nowSec = false)
    (hnan : ∀ limit, delegated = some .nan → proof ≠ some (.finite limit))
    (ht : notYetValidAt delegated t = false) : notYetValidAt proof t = false := by
  match proof, delegated with
  | none, _ => rfl
  | some _, none => cases h
  | some p, some d =>
    have hdp : d.lt p = false := by simpa using throwIf_ok h
    by_cases hd : d = .nan
    · subst hd
      cases p with
      | finite limit => exact absurd rfl (hnan limit rfl)
      | infinity => cases hnow
      | nan => rfl
      | negInfinity => rfl
    · by_contra hp
      have htp : (JsNumber.finite t).lt p = true := by simpa [notYetValidAt] using hp
      have hpn : p ≠ .nan := fun e => by rw [e, JsNumber.lt_nan] at htp; cases htp
      have htd : (JsNumber.finite t).lt d = true := JsNumber.lt_of_lt_of_not_lt hpn htp hdp hd
      simp [notYetValidAt, htd] at ht

/-! ## Scopes -/

variable {up : Bytes → Option Bytes} {docId : String} {evaluate : ScopeEvaluator}

theorem capAllowsNode_allow_iff (hexact : ExactOn up docId evaluate) {cap : Cbor} {node : Bytes}
    {actions : List String} :
    capAllowsNode cap docId node actions (some evaluate) = .ok .allow ↔
      ∃ res scope, capActions cap docId actions = some res ∧ parseScope res = .ok scope ∧
        Covers up scope node := by
  refine ⟨capAllowsNode_allow fun _ _ => hexact.inScope, ?_⟩
  rintro ⟨res, scope, hres, hscope, hc⟩
  unfold capAllowsNode
  rw [hres]
  simp only [hscope]
  change (if node = scope.root then Except.ok .allow
    else if isDocWideScope scope = true then Except.ok .allow
    else evaluate docId node scope) = .ok .allow
  split
  · rfl
  · split
    · rfl
    · obtain h | h | h := hc
      · contradiction
      · contradiction
      · exact hexact.allow h

theorem isDocWideScope_iff {scope : SubtreeScope} :
    isDocWideScope scope = true ↔
      scope.root = ROOT_NODE_ID ∧ scope.maxDepth = none ∧ scope.excluded = [] := by
  simp [isDocWideScope, and_assoc]

theorem mem_of_exclude_within {proof delegated : SubtreeScope}
    (h : throwIf (!proof.excluded.all (· ∈ delegated.excluded))
      "delegated capability must preserve proof exclude list" = .ok ()) {node : Bytes}
    (hn : node ∈ proof.excluded) : node ∈ delegated.excluded := by
  have := throwIf_ok h
  simp at this
  exact this node hn

theorem assertRootWithin_ok (hexact : ExactOn up docId evaluate) {proof delegated : SubtreeScope}
    (h : assertRootWithin docId (some evaluate) proof delegated = .ok ()) :
    delegated.root = proof.root ∨
      delegated.root ≠ proof.root ∧ proof.maxDepth = none ∧ InScope up proof delegated.root := by
  unfold assertRootWithin at h
  split at h
  · exact Or.inl ‹_›
  · rename_i hne
    obtain ⟨_, hm, h⟩ := except_bind_ok h
    obtain ⟨tri, hev, h⟩ := except_bind_ok h
    refine Or.inr ⟨hne, by simpa using throwIf_ok hm, ?_⟩
    cases tri with
    | allow => exact hexact.inScope hev
    | deny => cases h
    | unknown => cases h

/-- The region of a delegated scope lies in that of the proof, unless its depth is `NaN`. -/
theorem Covers.within (hexact : ExactOn up docId evaluate) (hroot : up ROOT_NODE_ID = none)
    {proof delegated : SubtreeScope}
    (h : assertScopeWithin docId (some evaluate) proof delegated = .ok ())
    (hnan : delegated.maxDepth ≠ some .nan) {node : Bytes} (hc : Covers up delegated node) :
    Covers up proof node := by
  unfold assertScopeWithin at h
  split at h
  · exact Or.inr (Or.inl ‹_›)
  rename_i hwide
  obtain ⟨_, hr, h⟩ := except_bind_ok h
  obtain ⟨_, hm, hx⟩ := except_bind_ok h
  have hsub : ∀ x, x ∉ delegated.excluded → x ∉ proof.excluded := fun x hx' hp =>
    hx' (mem_of_exclude_within hx hp)
  obtain heq | ⟨hne, hmax, hops, hclimb, -⟩ := assertRootWithin_ok hexact hr
  · -- The same root: a walk that the delegated depth admits, the proof's admits.
    obtain rfl | hw | ⟨hops, hclimb, hdepth⟩ := hc
    · exact Or.inl heq
    · obtain ⟨hroot', hdm, hde⟩ := isDocWideScope_iff.mp hw
      refine absurd (isDocWideScope_iff.mpr ⟨heq ▸ hroot', ?_, ?_⟩) hwide
      · cases hpm : proof.maxDepth with
        | none => rfl
        | some m => rw [hpm, hdm] at hm; cases hm
      · refine List.eq_nil_iff_forall_not_mem.mpr fun x hp => ?_
        have := mem_of_exclude_within hx hp
        rw [hde] at this
        cases this
    · refine Or.inr (Or.inr ⟨hops, heq ▸ hclimb.imp hsub, fun m hpm => ?_⟩)
      rw [Option.mem_def.mp hpm] at hm
      cases hdm : delegated.maxDepth with
      | none => rw [hdm] at hm; cases hm
      | some d =>
        rw [hdm] at hm hnan
        have hmd : m.lt d = false := by simpa using throwIf_ok hm
        have hd := hdepth d hdm
        by_contra hlt
        have hlt' : m.lt (JsNumber.ofInt hops) = true := by simpa using hlt
        have hmn : m ≠ .nan := fun e => by rw [e] at hlt'; cases hlt'
        rw [JsNumber.lt_of_not_lt hmn hmd (fun e => hnan (congrArg some e)) hlt'] at hd
        cases hd
  · -- Another root, which lies in the proof's region: the walks follow each other.
    have hany : ∀ m ∈ proof.maxDepth, m.lt (JsNumber.ofInt hops) = false := by simp [hmax]
    obtain rfl | hw | ⟨hops', hclimb', -⟩ := hc
    · exact Or.inr (Or.inr ⟨hops, hclimb, hany⟩)
    · obtain ⟨hroot', -, -⟩ := isDocWideScope_iff.mp hw
      rw [hroot'] at hclimb hne
      exact absurd (hclimb.eq_of_none hroot) hne
    · exact Or.inr (Or.inr ⟨hops' + hops, (hclimb'.imp hsub).trans hclimb, by simp [hmax]⟩)

/-! ## Capabilities -/

theorem capActions_of {cap : Cbor} {action : String} {actions : List Cbor}
    (hres : (getField cap "res").isObject = true) (hactions : getField cap "actions" = .array actions)
    (hdoc : (getField (getField cap "res") "doc_id").isText docId = true)
    (ha : action ∈ expandCapabilityActions actions) :
    capActions cap docId [action] = some (getField cap "res") := by
  simp [capActions, hres, hactions, hdoc, ha]

/-- The fields of a capability from which the actions may be delegated. -/
theorem delegableRes_eq_some {delegatedActions : List Cbor} {proofCap proofRes : Cbor}
    (h : delegableRes docId delegatedActions proofCap = some proofRes) {action : String}
    (ha : action ∈ expandCapabilityActions delegatedActions) :
    capActions proofCap docId [action] = some proofRes := by
  unfold delegableRes at h
  simp only at h
  split at h
  · cases h
  rename_i hobj
  split at h
  · rename_i proofActions hactions
    split at h
    · cases h
    split at h
    · cases h
    rename_i hdoc
    split at h
    · cases h
    split at h
    · rename_i hall
      rw [← Option.some.inj h]
      refine capActions_of (by simpa using hobj) hactions (by simpa using hdoc) ?_
      simpa using List.all_eq_true.mp hall action ha
    · cases h
  · cases h

/-- The capability of the proof that a delegated one was matched with. -/
theorem matchProofCap_true {scopeEvaluator : Option ScopeEvaluator}
    {delegatedActions proofCaps : List Cbor} {delegatedRes : Cbor}
    (h : matchProofCap docId scopeEvaluator delegatedActions delegatedRes proofCaps = .ok true) :
    ∃ proofCap ∈ proofCaps, ∃ proofRes proofScope delegatedScope,
      delegableRes docId delegatedActions proofCap = some proofRes ∧
      parseScope proofRes = .ok proofScope ∧ parseScope delegatedRes = .ok delegatedScope ∧
      assertScopeWithin docId scopeEvaluator proofScope delegatedScope = .ok () := by
  induction proofCaps with
  | nil => cases h
  | cons proofCap proofCaps ih =>
    unfold matchProofCap at h
    split at h
    · obtain ⟨cap, hmem, rest⟩ := ih h
      exact ⟨cap, List.mem_cons_of_mem _ hmem, rest⟩
    · rename_i proofRes hres
      obtain ⟨proofScope, hps, h⟩ := except_bind_ok h
      obtain ⟨delegatedScope, hds, h⟩ := except_bind_ok h
      obtain ⟨_, hwithin, -⟩ := except_bind_ok h
      exact ⟨proofCap, List.mem_cons_self, proofRes, proofScope, delegatedScope, hres, hps, hds,
        hwithin⟩

/-- What the check of one delegated capability leaves. -/
structure CapWithin (docId : String) (scopeEvaluator : Option ScopeEvaluator)
    (proofCaps : List Cbor) (cap : Cbor) : Prop where
  isObject : (getField cap "res").isObject = true
  isDoc : (getField (getField cap "res") "doc_id").isText docId = true
  matched : ∃ actions scope, getField cap "actions" = .array actions ∧ actions ≠ [] ∧
    parseScope (getField cap "res") = .ok scope ∧
    ∃ proofCap ∈ proofCaps, ∃ proofRes proofScope,
      delegableRes docId actions proofCap = some proofRes ∧
      parseScope proofRes = .ok proofScope ∧
      assertScopeWithin docId scopeEvaluator proofScope scope = .ok ()

theorem assertCapWithin_ok {scopeEvaluator : Option ScopeEvaluator} {proofCaps : List Cbor}
    {cap : Cbor} (h : assertCapWithin docId scopeEvaluator proofCaps cap = .ok ()) :
    CapWithin docId scopeEvaluator proofCaps cap := by
  obtain ⟨_, hobj, h⟩ := except_bind_ok h
  split at h
  · rename_i action actions hactions
    obtain ⟨_, hdoc, h⟩ := except_bind_ok h
    obtain ⟨found, hfound, h⟩ := except_bind_ok h
    have hmatched : found = true := by simpa using throwIf_ok h
    obtain ⟨proofCap, hmem, proofRes, proofScope, scope, hres, hps, hs, hwithin⟩ :=
      matchProofCap_true (hmatched ▸ hfound)
    exact ⟨by simpa using throwIf_ok hobj, by simpa using throwIf_ok hdoc,
      action :: actions, scope, hactions, by simp, hs, proofCap, hmem, proofRes, proofScope, hres,
      hps, hwithin⟩
  · cases h

theorem forM_ok {α : Type} {f : α → Except String Unit} {l : List α}
    (h : l.forM f = .ok ()) : ∀ a ∈ l, f a = .ok () := by
  induction l with
  | nil => simp
  | cons a l ih =>
    obtain ⟨_, ha, hl⟩ := except_bind_ok h
    exact List.forall_mem_cons.mpr ⟨ha, ih hl⟩

theorem Link.capWithin {delegated proof : CapabilityGrant} (h : Link opts delegated proof)
    {cap : Cbor} (hcap : cap ∈ delegated.caps) :
    CapWithin opts.docId opts.scopeEvaluator proof.caps cap := by
  obtain ⟨_, -, hw⟩ := except_bind_ok h.within
  obtain ⟨_, -, hw⟩ := except_bind_ok hw
  exact assertCapWithin_ok (forM_ok hw cap hcap)

/-- The actions themselves are among the expanded ones. -/
theorem mem_expandCapabilityActions {actions : List Cbor} {action : Cbor} (h : action ∈ actions) :
    action.jsString ∈ expandCapabilityActions actions := by
  have hmem : action.jsString ∈ actions.map Cbor.jsString := List.mem_map_of_mem h
  unfold expandCapabilityActions
  simp only
  split <;> split <;> simp [hmem]

/-- A delegated capability allows something: its first action on its root. -/
theorem CapWithin.allows (hexact : ExactOn up docId evaluate) {proofCaps : List Cbor} {cap : Cbor}
    (h : CapWithin docId (some evaluate) proofCaps cap) :
    ∃ action node, capAllowsNode cap docId node [action] (some evaluate) = .ok .allow := by
  obtain ⟨hobj, hdoc, actions, scope, hactions, hne, hscope, -⟩ := h
  obtain ⟨action, rest, rfl⟩ := List.exists_cons_of_ne_nil hne
  exact ⟨action.jsString, scope.root, (capAllowsNode_allow_iff hexact).mpr
    ⟨_, scope, capActions_of hobj hactions hdoc (mem_expandCapabilityActions List.mem_cons_self),
      hscope, Or.inl rfl⟩⟩

/-- Where its depth is no `NaN`, a delegated capability allows what the proof allows. -/
theorem CapWithin.within (hexact : ExactOn up docId evaluate) (hroot : up ROOT_NODE_ID = none)
    {delegated proof : CapabilityGrant} {cap : Cbor}
    (h : CapWithin docId (some evaluate) proof.caps cap) (hcap : cap ∈ delegated.caps)
    {action : String} {node : Bytes}
    (ha : capAllowsNode cap docId node [action] (some evaluate) = .ok .allow)
    (hslip : ¬ NaNSlip docId evaluate delegated proof) :
    proof.allows docId evaluate action node := by
  obtain ⟨res, scope, hact, hscope, hcovers⟩ := (capAllowsNode_allow_iff hexact).mp ha
  obtain ⟨rfl, -, actions, hactions, hall⟩ := capActions_eq_some hact
  have haction := hall action List.mem_cons_self
  obtain ⟨-, -, actions', scope', hactions', -, hscope', proofCap, hmem, proofRes, proofScope,
    hres, hps, hwithin⟩ := h
  obtain rfl : actions = actions' := by rw [hactions] at hactions'; exact Cbor.array.inj hactions'
  obtain rfl : scope = scope' := Except.ok.inj (hscope.symm.trans hscope')
  by_contra hnot
  refine hslip (.maxDepth cap hcap scope hscope ?_ action node ha hnot)
  by_contra hnan
  exact hnot ⟨proofCap, hmem, (capAllowsNode_allow_iff hexact).mpr
    ⟨proofRes, proofScope, delegableRes_eq_some hres haction, hps,
      Covers.within hexact hroot hwithin hnan hcovers⟩⟩

/-! ## Links and chains -/

theorem Attenuates.trans {a b c : CapabilityGrant} (hab : Attenuates docId evaluate a b)
    (hbc : Attenuates docId evaluate b c) : Attenuates docId evaluate a c :=
  fun action node t h => hbc action node t (hab action node t h)

/-- A link attenuates when no limit of it slips by as `NaN`. -/
theorem Link.attenuates {opts : TokenOptions} (hexact : ExactOn up opts.docId evaluate)
    (hev : opts.scopeEvaluator = some evaluate) (hroot : up ROOT_NODE_ID = none)
    {delegated proof : CapabilityGrant} (h : Link opts delegated proof)
    (hslip : ¬ NaNSlip opts.docId evaluate delegated proof) :
    Attenuates opts.docId evaluate delegated proof := by
  rintro action node t ⟨⟨hexp, hnbf⟩, cap, hcap, ha⟩
  obtain ⟨_, hwexp, hw⟩ := except_bind_ok h.within
  obtain ⟨_, hwnbf, -⟩ := except_bind_ok hw
  refine ⟨⟨exp_within hwexp h.proofExp ?_ hexp, nbf_within hwnbf h.proofNbf ?_ hnbf⟩, ?_⟩
  · exact fun limit hd hp => hslip (.exp limit hd hp)
  · exact fun limit hd hp => hslip (.nbf limit hd hp)
  · exact (hev ▸ h.capWithin hcap).within hexact hroot hcap ha hslip

/-- A slip lets the delegated grant permit something beyond the proof. -/
theorem Link.not_attenuates {opts : TokenOptions} (hexact : ExactOn up opts.docId evaluate)
    (hev : opts.scopeEvaluator = some evaluate) {delegated proof : CapabilityGrant}
    (h : Link opts delegated proof) (hslip : NaNSlip opts.docId evaluate delegated proof) :
    ¬ Attenuates opts.docId evaluate delegated proof := by
  intro hatt
  obtain ⟨cap, hcap⟩ := List.exists_mem_of_ne_nil _ h.caps
  obtain ⟨action, node, hallow⟩ := CapWithin.allows hexact (hev ▸ h.capWithin hcap)
  cases hslip with
  | exp limit hd hp =>
    -- A time after both the limit of the proof and the time of the check.
    obtain ⟨t, hnow, hlt⟩ : ∃ t : Rat, opts.nowSec ≤ t ∧ limit < t := by
      by_cases hle : opts.nowSec ≤ limit
      · exact ⟨limit + 1, by grind, by grind⟩
      · exact ⟨opts.nowSec, by grind, by grind⟩
    have hvalid : delegated.validAt t := ⟨by rw [hd]; rfl, notYetValidAt_mono h.nbf hnow⟩
    have hpast := (hatt action node t ⟨hvalid, cap, hcap, hallow⟩).1.1
    simp [hp, expiredAt, JsNumber.lt] at hpast
    grind
  | nbf limit hd hp =>
    obtain ⟨t, hnow, hlt⟩ : ∃ t : Rat, t ≤ opts.nowSec ∧ t < limit := by
      by_cases hle : limit ≤ opts.nowSec
      · exact ⟨limit - 1, by grind, by grind⟩
      · exact ⟨opts.nowSec, by grind, by grind⟩
    have hvalid : delegated.validAt t := ⟨expiredAt_mono h.exp hnow, by rw [hd]; rfl⟩
    have hpast := (hatt action node t ⟨hvalid, cap, hcap, hallow⟩).1.2
    simp [hp, notYetValidAt, JsNumber.lt] at hpast
    grind
  | maxDepth cap hcap scope hscope hd action node ha hp =>
    exact hp (hatt action node opts.nowSec ⟨⟨h.exp, h.nbf⟩, cap, hcap, ha⟩).2

/-- Along an accepted chain every grant permits no more than those after it, exactly when no limit
of a link slips by as `NaN`. -/
theorem attenuates_iff_not_nanSlip (crypto : Crypto) (opts : TokenOptions)
    (up : Bytes → Option Bytes) (evaluate : ScopeEvaluator)
    (hexact : ExactOn up opts.docId evaluate) (hev : opts.scopeEvaluator = some evaluate)
    (hroot : up ROOT_NODE_ID = none) (tokenBytes : Bytes) (grant : CapabilityGrant)
    (h : parseAndVerifyCapabilityToken crypto opts tokenBytes = .ok grant) :
    ∃ proofs, ProofChain crypto opts tokenBytes (grant :: proofs) ∧
      ((grant :: proofs).Pairwise (Attenuates opts.docId evaluate) ↔
        (grant :: proofs).IsChain fun delegated proof =>
          ¬ NaNSlip opts.docId evaluate delegated proof) := by
  obtain ⟨proofs, hchain, hlinks⟩ := accepted_chain h
  have : IsTrans CapabilityGrant (Attenuates opts.docId evaluate) :=
    ⟨fun _ _ _ => Attenuates.trans⟩
  refine ⟨proofs, hchain, ?_⟩
  have hiff : ∀ d p, Link opts d p →
      (Attenuates opts.docId evaluate d p ↔ ¬ NaNSlip opts.docId evaluate d p) := fun d p hl =>
    ⟨fun ha hs => hl.not_attenuates hexact hev hs ha, hl.attenuates hexact hev hroot⟩
  rw [← List.isChain_iff_pairwise, List.isChain_iff_forall_rel_of_append_cons_cons,
    List.isChain_iff_forall_rel_of_append_cons_cons]
  rw [List.isChain_iff_forall_rel_of_append_cons_cons] at hlinks
  exact ⟨fun ha _ _ _ _ e => (hiff _ _ (hlinks e)).mp (ha e),
    fun hs _ _ _ _ e => (hiff _ _ (hlinks e)).mpr (hs e)⟩

/-! A proof that expires at 50, and a token delegated from it whose `exp` is `NaN`. -/

def proofClaims : Cbor := sampleClaims [2] (.ofInt 50) ["write_payload", "grant"]

def proofToken : Cbor := sampleToken [] proofClaims [1]

def nanClaims : Cbor := sampleClaims [3] .nan ["write_payload"]

def nanToken : Cbor :=
  sampleToken [(.text "treecrdt.delegation_proof_v1", .bytes proofToken.encode)] nanClaims [2]

def nanCrypto : Crypto := sampleCrypto [proofClaims, proofToken, nanClaims, nanToken]

noncomputable def nanOptions : TokenOptions where
  issuerPublicKeys := [[1]]
  docId := "d"
  nowSec := 10
  scopeEvaluator := some (exactEvaluator fun _ => none)
  revokedCapabilityTokenIds := none
  isCapabilityTokenRevoked := none

private theorem nanToken_accepted :
    (parseAndVerifyCapabilityToken nanCrypto nanOptions nanToken.encode).map (·.exp) =
      .ok (some .nan) := by decide +kernel

private theorem nanToken_proof :
    delegationProof nanCrypto nanToken.encode = .ok proofToken.encode := by decide +kernel

private theorem nanToken_issuer : verifyWithIssuers nanCrypto nanToken.encode [[1]] = none := by
  decide +kernel

private theorem proofToken_issuer :
    verifyWithIssuers nanCrypto proofToken.encode [[1]] = some proofClaims.encode := by
  decide +kernel

private theorem proofToken_exp :
    (parseCapabilityGrantFromClaims nanCrypto "d" 10 proofToken.encode proofClaims.encode).map
      (·.exp) = .ok (some (.finite 50)) := by decide +kernel

/-- The token is accepted, and permits its action when its proof has expired. -/
theorem nanToken_not_attenuates : ∃ grant proofs,
    parseAndVerifyCapabilityToken nanCrypto nanOptions nanToken.encode = .ok grant ∧
      ProofChain nanCrypto nanOptions nanToken.encode (grant :: proofs) ∧
      ¬ (grant :: proofs).Pairwise (Attenuates "d" (exactEvaluator fun _ => none)) := by
  obtain ⟨grant, hgrant, hexp⟩ := except_map_ok nanToken_accepted
  obtain ⟨proofs, hchain, hlinks⟩ := accepted_chain hgrant
  refine ⟨grant, proofs, hgrant, hchain, fun hpair => ?_⟩
  cases hchain with
  | issued issuer _ => cases nanToken_issuer.symm.trans issuer
  | @delegated _ proofBytes _ _ proof _ _ header chain _ _ =>
    obtain rfl : proofToken.encode = proofBytes :=
      Except.ok.inj (nanToken_proof.symm.trans header)
    have hproof : proof.exp = some (.finite 50) := by
      cases chain with
      | issued issuer claims =>
        obtain rfl := Option.some.inj (proofToken_issuer.symm.trans issuer)
        obtain ⟨g, hg, hgexp⟩ := except_map_ok proofToken_exp
        rw [← Except.ok.inj (hg.symm.trans claims), hgexp]
      | delegated issuer _ _ _ _ => cases proofToken_issuer.symm.trans issuer
    cases hlinks with
    | cons_cons link _ =>
      exact link.not_attenuates (exactEvaluator_exactOn _ _) rfl (.exp 50 hexp hproof)
        (List.rel_of_pairwise_cons hpair List.mem_cons_self)

/-- The witness: the chain above is one that the theorem speaks of. -/
theorem attenuates_iff_not_nanSlip_nanToken : ∃ grant proofs,
    ProofChain nanCrypto nanOptions nanToken.encode (grant :: proofs) ∧
      ((grant :: proofs).Pairwise (Attenuates "d" (exactEvaluator fun _ => none)) ↔
        (grant :: proofs).IsChain fun delegated proof =>
          ¬ NaNSlip "d" (exactEvaluator fun _ => none) delegated proof) := by
  obtain ⟨grant, hgrant, -⟩ := except_map_ok nanToken_accepted
  exact ⟨grant, attenuates_iff_not_nanSlip nanCrypto nanOptions (fun _ => none)
    (exactEvaluator fun _ => none) (exactEvaluator_exactOn _ _) rfl rfl nanToken.encode grant
    hgrant⟩

end Auth

end Treecrdt
