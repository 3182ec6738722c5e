import TreecrdtLean.Sync.Handlers
import TreecrdtLean.Auth.OpSig

/-!
# A relay and the auth entries of its operations (`replay-only.ts`)

A relay takes every batch, files the auth entry of every operation under its op ref, and forwards
what is filed. The file keeps the last entry of an op ref and the operation log its first content.
An operation goes out with the entry that its content came with, in every run whose batches file no
other entry for it (`forwards_own`), and with another's where one does (`conflict_forwarded`).

Operations carry the entry that they came with as a mark (`Arrival`). No function of the relay
looks at it.
-/

namespace Treecrdt

namespace Sync

open Auth

/-! ## Op refs (`opref.ts`) -/

def OPREF_V0_DOMAIN : Bytes := utf8ToBytes "treecrdt/opref/v0"

def encodeOperationIdV0 (id : Interface.OperationId) : Bytes :=
  beBytes 4 id.replica.length ++ (id.replica ++ beBytes 8 id.counter.toNat)

def deriveOpRefV0 (crypto : Crypto) (docId : String) (id : Interface.OperationId) : Bytes :=
  (crypto.blake3 (OPREF_V0_DOMAIN ++ (utf8ToBytes docId ++ encodeOperationIdV0 id))).take 16

/-- With the checks of the TypeScript side. -/
def opRefForOp (crypto : Crypto) (docId : String) (op : Interface.Operation) :
    Except String Bytes := do
  let replica ← Interface.replicaIdToBytes op.metadata.id.replica
  let counter := op.metadata.id.counter
  throwIf (counter < 0 ∨ counter > MAX_SAFE_INTEGER)
    ("u64 must be a safe non-negative integer, got: " ++ toString counter)
  return deriveOpRefV0 crypto docId ⟨replica, counter⟩

/-! ## The relay -/

/-- An operation with the auth entry that it came with. -/
structure Arrival where
  op : Interface.Operation
  auth : Option OpAuth
  deriving DecidableEq

abbrev OpAuthStore := OrderedMap Bytes OpAuth

abbrev OpLog := OrderedMap Bytes Arrival

variable (crypto : Crypto) (docId : String)

/-- The op ref column of the log. -/
def opRefOf (x : Arrival) : Bytes := deriveOpRefV0 crypto docId x.op.metadata.id

/-- The entries of a batch, under their op refs. -/
def authEntries (ops : List Arrival) (auth : List OpAuth) :
    Except String (List (Bytes × OpAuth)) := do
  let refs ← ops.mapM fun x => opRefForOp crypto docId x.op
  return refs.zip auth

/-- `ON CONFLICT DO NOTHING`: the first content of an op ref stays. -/
def appendOps (log : OpLog) (ops : List Arrival) : OpLog :=
  log.addAll (ops.map fun x => (opRefOf crypto docId x, x))

/-- `storeOpAuth` replaces: the last entry of an op ref stays. -/
def storeOpAuth (store : OpAuthStore) (entries : List (Bytes × OpAuth)) : OpAuthStore :=
  store.setAll entries

/-- `createReplayOnlySyncAuth` over a backend and an op-auth store. -/
def relayHooks : Hooks Arrival OpAuth Bytes OpAuthStore OpLog where
  verifyOps _ _ _ _ := .ok none
  onVerifiedOps store ops auth :=
    if ops.isEmpty || auth.isEmpty then .ok store
    else do return storeOpAuth store (← authEntries crypto docId ops auth)
  applyOps := appendOps crypto docId
  opRef := opRefOf crypto docId

def getOpsByOpRefs (log : OpLog) (opRefs : List Bytes) : Except String (List Arrival) :=
  opRefs.mapM fun ref =>
    match log.get? ref with
    | some x => .ok x
    | none => .error "opRef missing locally"

/-- `signOps` of the relay: the entries on file. -/
def signOps (store : OpAuthStore) (ops : List Arrival) : Except String (List OpAuth) :=
  ops.mapM fun x => do
    let ref ← opRefForOp crypto docId x.op
    match store.get? ref with
    | some auth => .ok auth
    | none => .error "missing op auth for non-local replica; cannot forward unsigned op"

/-! ## What goes out -/

variable {FilterId : Type}

/-- Whatever the peer forwards carries the entry that its content came with. -/
def ForwardsOwn (s : Peer FilterId Arrival OpAuth Bytes OpAuthStore OpLog) : Prop :=
  ∀ opRefs ops auths, getOpsByOpRefs s.applied opRefs = .ok ops →
    signOps crypto docId s.auth ops = .ok auths →
    ∀ sent ∈ ops.zip auths, sent.1.auth = some sent.2

/-- The marks of a batch are its auth entries, if it has one for every operation. -/
def OpsBatch.marked (batch : OpsBatch FilterId Arrival OpAuth) : Bool :=
  match batch.auth with
  | none => batch.ops.all fun x => x.auth = none
  | some entries => entries.length ≠ batch.ops.length || batch.ops.map (·.auth) = entries.map some

/-- The entries that a batch leaves on file are those that stored contents came with. -/
def filesOwnEntries (log : OpLog) (batch : OpsBatch FilterId Arrival OpAuth) : Bool :=
  match authEntries crypto docId batch.ops (batch.auth.getD []) with
  | .error _ => true
  | .ok entries => entries.all fun e =>
    (log.get? e.1).all fun x => x.auth = OrderedMap.last entries e.1

/-- The contents that a batch adds came with the entries on file. -/
def addsFiled (store : OpAuthStore) (log : OpLog) (ops : List Arrival) : Bool :=
  ops.all fun y => (log.get? (opRefOf crypto docId y)).isSome ||
    (store.get? (opRefOf crypto docId y)).all fun auth =>
      (OrderedMap.first (ops.map fun x => (opRefOf crypto docId x, x))
        (opRefOf crypto docId y)).all fun x => x.auth = some auth

/-- No batch files another entry than the one that a stored content came with, and none adds a
content that came with another entry than the one on file. -/
def filesOwn (s : Peer FilterId Arrival OpAuth Bytes OpAuthStore OpLog) :
    Action FilterId Arrival OpAuth → Bool
  | .receive batch => batch.marked
  | .onVerified filterId =>
    match s.handlers filterId with
    | some (.verified batch _) => filesOwnEntries crypto docId s.applied batch
    | _ => true
  | .apply filterId =>
    match s.handlers filterId with
    | some (.applying allowed) => addsFiled crypto docId s.auth s.applied allowed
    | _ => true
  | _ => true

/-! ## The invariant -/

/-- Nothing of a relay is ever pending. -/
def Handler.Plain : Handler FilterId Arrival OpAuth → Prop
  | verified _ dispositions => dispositions = none
  | storing pending _ => pending = []
  | _ => True

structure RelayInv (s : Peer FilterId Arrival OpAuth Bytes OpAuthStore OpLog) : Prop where
  keyed : ∀ ref x, s.applied.get? ref = some x → opRefOf crypto docId x = ref
  paired : ∀ ref x auth, s.applied.get? ref = some x → s.auth.get? ref = some auth →
    x.auth = some auth
  pending : s.pending.values = []
  plain : ∀ filterId, ∀ handler ∈ s.handlers filterId, handler.Plain
  pass : ∀ pass ∈ s.pass, ∃ round, pass = .listing round

variable {crypto docId} {s s' : Peer FilterId Arrival OpAuth Bytes OpAuthStore OpLog}
variable {action : Action FilterId Arrival OpAuth}

theorem opRefForOp_ok {x : Arrival} {ref : Bytes} (h : opRefForOp crypto docId x.op = .ok ref) :
    ref = opRefOf crypto docId x := by
  obtain ⟨replica, hreplica, h⟩ := except_bind_ok h
  obtain ⟨_, -, h⟩ := except_bind_ok h
  unfold Interface.replicaIdToBytes at hreplica
  split at hreplica
  · cases hreplica
  · obtain rfl := Except.ok.inj hreplica
    exact (Except.ok.inj h).symm

/-- What is filed under the op ref of a stored operation goes out with it. -/
theorem RelayInv.forwardsOwn (h : RelayInv crypto docId s) : ForwardsOwn crypto docId s := by
  intro opRefs ops auths hops hauths
  induction opRefs generalizing ops auths with
  | nil =>
    cases hops
    simp
  | cons ref opRefs ih =>
    obtain ⟨x, ops, rfl, hx, hops⟩ := except_mapM_cons_ok hops
    obtain ⟨auth, auths, rfl, hauth, hauths⟩ := except_mapM_cons_ok hauths
    rw [List.zip_cons_cons, List.forall_mem_cons]
    refine ⟨?_, ih ops auths hops hauths⟩
    have hlog : s.applied.get? ref = some x := by
      split at hx
      · rename_i y hy
        rw [hy, Except.ok.inj hx]
      · cases hx
    obtain ⟨ref', href', hauth⟩ := except_bind_ok hauth
    have hstore : s.auth.get? ref = some auth := by
      split at hauth
      · rename_i found hfound
        rw [opRefForOp_ok href', h.keyed ref x hlog] at hfound
        rw [hfound, Except.ok.inj hauth]
      · cases hauth
    exact h.paired ref x auth hlog hstore

/-- Everything in a batch without dispositions is allowed. -/
theorem splitEntries_allow {entries : List (Arrival × Option OpAuth × Disposition)}
    {pending : List (PendingOp Arrival OpAuth)} {allowed : List Arrival}
    (hallow : ∀ entry ∈ entries, entry.2.2 = .allow)
    (h : splitEntries entries = .ok (pending, allowed)) : pending = [] := by
  induction entries generalizing pending allowed with
  | nil => cases h; rfl
  | cons entry rest ih =>
    rw [List.forall_mem_cons] at hallow
    obtain ⟨op, auth, disposition⟩ := entry
    obtain rfl : disposition = .allow := hallow.1
    obtain ⟨split, hsplit, h⟩ := except_bind_ok h
    cases h
    exact ih hallow.2 hsplit

theorem batchEntries_none {batch : OpsBatch FilterId Arrival OpAuth} :
    ∀ entry ∈ batchEntries batch none, entry.2.2 = .allow := by
  intro entry hentry
  obtain ⟨op, auth, disposition⟩ := entry
  have hmem := (List.of_mem_zip (List.of_mem_zip hentry).2).2
  simpa using (List.mem_map.mp hmem).choose_spec.2.symm

theorem verifyBatch_relay {store : OpAuthStore} {log : OpLog}
    {batch : OpsBatch FilterId Arrival OpAuth} {dispositions : Option (List Disposition)}
    (h : verifyBatch (relayHooks crypto docId) store log batch = .ok dispositions) :
    dispositions = none := by
  unfold verifyBatch at h
  split at h
  · obtain ⟨_, -, h⟩ := except_bind_ok h
    exact (Except.ok.inj h).symm
  · exact (Except.ok.inj h).symm

/-- What is on file behind a batch. -/
theorem fileAuth_relay {store store' : OpAuthStore} {batch : OpsBatch FilterId Arrival OpAuth}
    (h : fileAuth (relayHooks crypto docId) store batch = .ok store') :
    store' = store ∨ ∃ entries, authEntries crypto docId batch.ops (batch.auth.getD []) =
      .ok entries ∧ store' = storeOpAuth store entries := by
  unfold fileAuth at h
  split at h
  · rename_i entry rest hauth
    simp only [relayHooks] at h
    split at h
    · exact Or.inl (Except.ok.inj h).symm
    · obtain ⟨entries, hentries, h⟩ := except_bind_ok h
      exact Or.inr ⟨entries, by rw [hauth]; exact hentries, (Except.ok.inj h).symm⟩
  · exact Or.inl (Except.ok.inj h).symm

/-- Filing entries that stored contents came with. -/
theorem RelayInv.file (h : RelayInv crypto docId s) {batch : OpsBatch FilterId Arrival OpAuth}
    {store : OpAuthStore} (hown : filesOwnEntries crypto docId s.applied batch)
    (hfile : fileAuth (relayHooks crypto docId) s.auth batch = .ok store) :
    RelayInv crypto docId { s with auth := store } := by
  obtain rfl | ⟨entries, hentries, rfl⟩ := fileAuth_relay hfile
  · exact h
  refine { h with paired := fun ref x auth hlog hstore => ?_ }
  simp only [storeOpAuth, OrderedMap.get?_setAll, Option.or_eq_some_iff] at hstore
  obtain hlast | ⟨-, hold⟩ := hstore
  · rw [filesOwnEntries, hentries] at hown
    have hx := List.all_eq_true.mp hown _ (OrderedMap.mem_of_last hlast)
    simp only [hlog, hlast, Option.all_some, decide_eq_true_eq] at hx
    exact hx
  · exact h.paired ref x auth hlog hold

/-- Adding contents that came with the entries on file. -/
theorem RelayInv.append (h : RelayInv crypto docId s) {ops : List Arrival}
    (hadds : addsFiled crypto docId s.auth s.applied ops) :
    RelayInv crypto docId { s with applied := appendOps crypto docId s.applied ops } := by
  -- A content of the new log was there, or is the first of its op ref in the batch.
  have hnew : ∀ ref x, (appendOps crypto docId s.applied ops).get? ref = some x →
      s.applied.get? ref = some x ∨ s.applied.get? ref = none ∧ x ∈ ops ∧
        opRefOf crypto docId x = ref ∧
        OrderedMap.first (ops.map fun x => (opRefOf crypto docId x, x)) ref = some x := by
    intro ref x hx
    rw [appendOps, OrderedMap.get?_addAll, Option.or_eq_some_iff] at hx
    obtain hold | ⟨hnone, hfirst⟩ := hx
    · exact Or.inl hold
    · obtain ⟨y, hy, heq⟩ := List.mem_map.mp (OrderedMap.mem_of_first hfirst)
      obtain ⟨hkey, rfl⟩ := Prod.mk.inj heq
      exact Or.inr ⟨hnone, hy, hkey, hfirst⟩
  refine { h with keyed := fun ref x hx => ?_, paired := fun ref x auth hx hstore => ?_ }
  · obtain hold | ⟨-, -, hkey, -⟩ := hnew ref x hx
    · exact h.keyed ref x hold
    · exact hkey
  · obtain hold | ⟨hnone, hmem, hkey, hfirst⟩ := hnew ref x hx
    · exact h.paired ref x auth hold hstore
    · have hall := List.all_eq_true.mp hadds x hmem
      change s.auth.get? ref = some auth at hstore
      simpa [hkey, hnone, hstore, hfirst] using hall

variable [DecidableEq FilterId]

theorem RelayInv.setHandler (h : RelayInv crypto docId s) {filterId : FilterId}
    {handler : Option (Handler FilterId Arrival OpAuth)} (hplain : ∀ x ∈ handler, x.Plain) :
    RelayInv crypto docId (s.setHandler filterId handler) where
  keyed := h.keyed
  paired := h.paired
  pending := h.pending
  plain := by
    intro other x hx
    by_cases hne : other = filterId
    · subst hne
      exact hplain x (by simpa [Peer.setHandler] using hx)
    · exact h.plain other x (by simpa [Peer.setHandler, hne] using hx)
  pass := h.pass

/-- A handler goes on. -/
theorem RelayInv.handle (h : RelayInv crypto docId s) {filterId : FilterId}
    {handler : Handler FilterId Arrival OpAuth} (hhandler : s.handlers filterId = some handler)
    (hown : ∀ other batch dispositions, action = .onVerified other →
      handler = .verified batch dispositions → filesOwnEntries crypto docId s.applied batch)
    (hadds : ∀ other allowed, action = .apply other → handler = .applying allowed →
      addsFiled crypto docId s.auth s.applied allowed)
    (hstep : s.handle (relayHooks crypto docId) filterId action handler = some s') :
    RelayInv crypto docId s' := by
  have hplain := h.plain filterId handler hhandler
  cases handler with
  | verifying batch =>
    cases action <;> try cases hstep
    simp only [Peer.handle] at hstep
    split at hstep <;> cases hstep
    · exact h.setHandler (by simp)
    · rename_i hverify
      obtain rfl := verifyBatch_relay hverify
      exact h.setHandler (by simp [Handler.Plain])
  | verified batch dispositions =>
    obtain rfl : dispositions = none := hplain
    cases action <;> try cases hstep
    · have hbatch := hown _ batch none rfl rfl
      simp only [Peer.handle] at hstep
      split at hstep
      · cases hstep
        exact h.setHandler (by simp)
      · rename_i hfile _
        cases hstep
        exact (h.file hbatch hfile).setHandler (by simp)
      · rename_i hfile hsplit
        cases hstep
        obtain rfl := splitEntries_allow batchEntries_none hsplit
        exact (h.file hbatch hfile).setHandler (by simp [Handler.Plain])
    · exact h.setHandler (by simp)
  | storing pending allowed =>
    obtain rfl : pending = [] := hplain
    cases action <;> try cases hstep
    · exact h.setHandler (by simp [Handler.Plain])
    · exact h.setHandler (by simp)
  | applying allowed =>
    cases action <;> try cases hstep
    · exact (h.append (hadds _ allowed rfl rfl)).setHandler (by simp [Handler.Plain])
    · exact h.setHandler (by simp)
  | entering =>
    cases action <;> try cases hstep
    simp only [Peer.handle] at hstep
    split at hstep <;> cases hstep
    · exact h.setHandler (by simp [Handler.Plain])
    · have hlisting : RelayInv crypto docId (s.setPass (.listing 0)) :=
        { h with pass := fun pass hpass => ⟨0, (Option.some.inj hpass).symm⟩ }
      exact hlisting.setHandler (by simp [Handler.Plain])
  | waiting pass =>
    cases action <;> try cases hstep
    simp only [Peer.handle] at hstep
    split at hstep <;> cases hstep
    exact h.setHandler (by simp)

omit [DecidableEq FilterId] in
/-- A pass finds nothing. -/
theorem RelayInv.retryPending (h : RelayInv crypto docId s) {pass : Pass Arrival OpAuth}
    (hpass : s.pass = some pass)
    (hstep : s.retryPending (relayHooks crypto docId) action pass = some s') :
    RelayInv crypto docId s' := by
  have hend : RelayInv crypto docId s.endPass := { h with pass := fun _ hnone => nomatch hnone }
  obtain ⟨round, rfl⟩ := h.pass pass hpass
  cases action <;> try cases hstep
  · rw [Peer.retryPending, h.pending] at hstep
    cases hstep
    exact hend
  · exact hend

theorem RelayInv.step (h : RelayInv crypto docId s) (hok : filesOwn crypto docId s action)
    (hstep : s.step (relayHooks crypto docId) action = some s') : RelayInv crypto docId s' := by
  have hhandler : ∀ filterId,
      (∀ other batch dispositions, action = .onVerified other →
        s.handlers filterId = some (.verified batch dispositions) →
        filesOwnEntries crypto docId s.applied batch) →
      (∀ other allowed, action = .apply other → s.handlers filterId = some (.applying allowed) →
        addsFiled crypto docId s.auth s.applied allowed) →
      (s.handlers filterId).bind (s.handle (relayHooks crypto docId) filterId action) = some s' →
      RelayInv crypto docId s' := by
    intro filterId hown hadds hbind
    obtain ⟨handler, hsome, hstep⟩ := Option.bind_eq_some_iff.mp hbind
    exact h.handle hsome (fun _ _ _ haction hh => hown _ _ _ haction (hh ▸ hsome))
      (fun _ _ haction hh => hadds _ _ haction (hh ▸ hsome)) hstep
  have hpass : s.pass.bind (s.retryPending (relayHooks crypto docId) action) = some s' →
      RelayInv crypto docId s' := by
    intro hbind
    obtain ⟨pass, hsome, hstep⟩ := Option.bind_eq_some_iff.mp hbind
    exact h.retryPending hsome hstep
  cases action with
  | receive batch =>
    cases hstep
    exact { h with }
  | begin filterId =>
    simp only [Peer.step] at hstep
    split at hstep
    · rename_i batch queue _ _
      cases hstep
      have hqueue : RelayInv crypto docId
          { s with queues := Function.update s.queues filterId queue } := { h with }
      exact hqueue.setHandler fun x hx => Option.some.inj hx ▸ trivial
    · cases hstep
  | onVerified filterId =>
    refine hhandler filterId (fun _ batch dispositions _ hverified => ?_) (fun _ _ e => nomatch e)
      hstep
    rwa [filesOwn, hverified] at hok
  | apply filterId =>
    refine hhandler filterId (fun _ _ _ e => nomatch e) (fun _ allowed _ happlying => ?_) hstep
    rwa [filesOwn, happlying] at hok
  | verify filterId | store filterId | enter filterId | resume filterId | fail filterId =>
    exact hhandler filterId (fun _ _ _ e => nomatch e) (fun _ _ e => nomatch e) hstep
  | list | check | applyPending | deletePending | failPass => exact hpass hstep

/-- In every run whose batches file and add only what belongs together, whatever the relay
forwards carries the auth entry that its content came with. -/
theorem forwards_own (crypto : Crypto) (docId : String)
    (s₀ s : Peer FilterId Arrival OpAuth Bytes OpAuthStore OpLog) (hstart : RelayInv crypto docId s₀)
    (hrun : Peer.Run (relayHooks crypto docId) (fun s action => filesOwn crypto docId s action)
      s₀ s) : ForwardsOwn crypto docId s := by
  have hinv : RelayInv crypto docId s := by
    induction hrun with
    | start => exact hstart
    | step _ hok hstep ih => exact ih.step hok hstep
  exact hinv.forwardsOwn

/-! Two batches with one operation id: the first has the content and the entry of the author, the
second another content and an entry that somebody else made. -/

def authorKey : Bytes := List.replicate 32 7

def relayedOp (payload : Bytes) : Interface.Operation where
  metadata := ⟨⟨authorKey, 1⟩, 1, none⟩
  kind := .payload "5" (some payload)

def authorBatch : OpsBatch String Arrival OpAuth where
  filterId := "a"
  ops := [⟨relayedOp [1], some ⟨[1], none⟩⟩]
  auth := some [⟨[1], none⟩]

def conflictBatch : OpsBatch String Arrival OpAuth where
  filterId := "b"
  ops := [⟨relayedOp [2], some ⟨[2], none⟩⟩]
  auth := some [⟨[2], none⟩]

/-- A relay that was just made. -/
def emptyRelay : Peer String Arrival OpAuth Bytes OpAuthStore OpLog where
  auth := .empty
  applied := .empty
  pending := .empty
  queues := fun _ => []
  handlers := fun _ => none
  pass := none
  passes := 0

theorem emptyRelay_inv : RelayInv crypto docId emptyRelay where
  keyed _ _ h := nomatch h
  paired _ _ _ h := nomatch h
  pending := rfl
  plain _ _ h := nomatch h
  pass _ h := nomatch h

def handled (batch : OpsBatch String Arrival OpAuth) : List (Action String Arrival OpAuth) :=
  [.receive batch, .begin batch.filterId, .verify batch.filterId, .onVerified batch.filterId,
    .store batch.filterId, .apply batch.filterId, .enter batch.filterId, .list,
    .resume batch.filterId]

/-- Every batch carries its entries. -/
def allMarked (_ : Peer String Arrival OpAuth Bytes OpAuthStore OpLog) :
    Action String Arrival OpAuth → Bool
  | .receive batch => batch.marked
  | _ => true

/-- What the peer sends for the op ref of the operation. -/
def sentFor (crypto : Crypto) (s : Peer String Arrival OpAuth Bytes OpAuthStore OpLog) :
    Except String (List (Arrival × OpAuth)) := do
  let ops ← getOpsByOpRefs s.applied [deriveOpRefV0 crypto "d" ⟨authorKey, 1⟩]
  return ops.zip (← signOps crypto "d" s.auth ops)

/-- The relay forwards the content of the author with the entry of the second batch. -/
theorem conflict_forwarded : ∃ s, Peer.Run (relayHooks (sampleCrypto []) "d")
    (fun s action => allMarked s action) emptyRelay s ∧ ¬ ForwardsOwn (sampleCrypto []) "d" s := by
  have hrun : (Peer.steps (relayHooks (sampleCrypto []) "d") allMarked emptyRelay
      (handled authorBatch ++ handled conflictBatch)).any (fun s =>
        (sentFor (sampleCrypto []) s).toOption =
          some [(⟨relayedOp [1], some ⟨[1], none⟩⟩, ⟨[2], none⟩)]) = true := by
    decide +kernel
  obtain ⟨s, hsteps, hs⟩ := Option.any_eq_true _ _ |>.mp hrun
  refine ⟨s, Peer.Run.steps .start hsteps, fun hown => ?_⟩
  have hsent : sentFor (sampleCrypto []) s =
      .ok [(⟨relayedOp [1], some ⟨[1], none⟩⟩, ⟨[2], none⟩)] := by
    cases h : sentFor (sampleCrypto []) s <;> simp_all [Except.toOption]
  obtain ⟨ops, hops, hrest⟩ := except_bind_ok hsent
  obtain ⟨auths, hauths, hzip⟩ := except_bind_ok hrest
  have hentry := hown _ ops auths hops hauths (⟨relayedOp [1], some ⟨[1], none⟩⟩, ⟨[2], none⟩) (by
    rw [Except.ok.inj hzip]
    exact List.mem_singleton_self _)
  exact absurd hentry (by decide)

/-- The witness: the batch of the author twice. -/
theorem forwards_own_twice : ∃ s, (sentFor (sampleCrypto []) s).toOption =
      some [(⟨relayedOp [1], some ⟨[1], none⟩⟩, ⟨[1], none⟩)] ∧
    ForwardsOwn (sampleCrypto []) "d" s := by
  have hrun : (Peer.steps (relayHooks (sampleCrypto []) "d") (filesOwn (sampleCrypto []) "d")
      emptyRelay (handled authorBatch ++ handled authorBatch)).any (fun s =>
        (sentFor (sampleCrypto []) s).toOption =
          some [(⟨relayedOp [1], some ⟨[1], none⟩⟩, ⟨[1], none⟩)]) = true := by
    decide +kernel
  obtain ⟨s, hsteps, hs⟩ := Option.any_eq_true _ _ |>.mp hrun
  exact ⟨s, by simpa using hs, forwards_own (sampleCrypto []) "d" emptyRelay s emptyRelay_inv
    (Peer.Run.steps .start hsteps)⟩

end Sync

end Treecrdt
