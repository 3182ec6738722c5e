import TreecrdtLean.Sync.PushInvariant

/-!
# What subscriptions get (`SyncPeer`, `sync.ts`)

Where no push loop runs and no one is yet to call `notifyLocalUpdate`, a subscription has what its
filter lists: from the snapshot, or sent. With a policy, what was denied when the loop came to it is
not tried again (`listed_decided`): a ref that is allowed later is not sent
(`allowed_later_not_sent`).
-/

namespace Treecrdt

namespace Sync

namespace Push

variable {W T C Ref : Type} {source : Source W C Ref} {s : State W T C Ref}

/-- Nothing is to come: every ref that is listed counts as sent. -/
theorem State.Kept.counted (h : s.Kept source) (hidle : s.Idle) (howed : s.owed = [])
    {entry : Entry} (hentry : entry ∈ s.responderSubscriptions)
    (hacked : .acking entry.sub ∉ s.handlers) {ref : Ref}
    (href : ref ∈ source.listOpRefs s.world (s.subs entry.sub).filter) :
    ref ∈ (s.subs entry.sub).sentOpRefs := by
  obtain (hcounted | ⟨hscheduled, -⟩ | ⟨ops, hops, -⟩ | hacking) | ⟨loop, hloop, -⟩ :=
    h.covered entry hentry ref href
  · exact hcounted
  · cases hidle.pushScheduled.symm.trans hscheduled
  · rw [howed] at hops
    cases hops
  · exact absurd hacking hacked
  · cases hidle.loop.symm.trans hloop

theorem State.Kept.ledger_idle (h : s.Kept source) (hidle : s.Idle) {sub : ℕ}
    (hsub : sub < s.fresh) :
    (s.subs sub).Ledger source [] := by
  have hledger := h.booked.ledger sub hsub
  rwa [State.inFlight, hidle.loop] at hledger

variable [DecidableEq Ref] [DecidableEq T]

/-- Nothing is sent or denied twice. Where no push loop runs or is scheduled, no write is yet to
call `notifyLocalUpdate` and the subscription's `onSubscribe` is through, a ref that its filter
lists was in the snapshot, was sent, or was denied, once and for all. -/
theorem listed_decided (source : Source W C Ref) (s : State W T C Ref) (hs : Reachable source s) :
    (∀ sub < s.fresh, (s.subs sub).decided.Nodup) ∧
    (s.Idle → s.owed = [] → ∀ entry ∈ s.responderSubscriptions, .acking entry.sub ∉ s.handlers →
      ∀ ref ∈ source.listOpRefs s.world (s.subs entry.sub).filter,
        ref ∈ (s.subs entry.sub).snapshot ∨ ref ∈ (s.subs entry.sub).sent ∨
          ∃ d ∈ (s.subs entry.sub).denied, d.ref = ref ∧
            source.allows d.world d.capabilities (s.subs entry.sub).filter ref = false) := by
  have hkept := hs.kept
  refine ⟨fun sub hsub => (List.nodup_append.mp (hkept.booked.ledger sub hsub).once).1,
    fun hidle howed entry hentry hacked ref href => ?_⟩
  have hledger := hkept.ledger_idle hidle (hkept.placed.entries entry hentry).2
  refine (hledger.known ref (hkept.counted hidle howed hentry hacked href)).imp_right ?_
  rw [List.append_nil, Subscription.decided, List.mem_append]
  refine Or.imp_right fun hdenied => ?_
  obtain ⟨d, hd, rfl⟩ := List.mem_map.mp hdenied
  exact ⟨d, hd, rfl, hledger.refused d hd⟩

/-- Without a policy, such a ref was in the snapshot or was sent. -/
theorem listed_sent (source : Source W C Ref) (s : State W T C Ref)
    (hpolicy : source.filterOutgoingOps = none) (hs : Reachable source s) :
    (∀ sub < s.fresh, (s.subs sub).sent.Nodup) ∧
    (s.Idle → s.owed = [] → ∀ entry ∈ s.responderSubscriptions, .acking entry.sub ∉ s.handlers →
      ∀ ref ∈ source.listOpRefs s.world (s.subs entry.sub).filter,
        ref ∈ (s.subs entry.sub).snapshot ∨ ref ∈ (s.subs entry.sub).sent) := by
  have hkept := hs.kept
  refine ⟨fun sub hsub => ?_, fun hidle howed entry hentry hacked ref href => ?_⟩
  · have honce := (List.nodup_append.mp (hkept.booked.ledger sub hsub).once).1
    exact (List.nodup_append.mp honce).1
  · have hledger := hkept.ledger_idle hidle (hkept.placed.entries entry hentry).2
    refine (hledger.known ref (hkept.counted hidle howed hentry hacked href)).imp_right ?_
    rw [List.append_nil, Subscription.decided, List.mem_append]
    refine fun hdecided => hdecided.resolve_right fun hdenied => ?_
    obtain ⟨d, hd, -⟩ := List.mem_map.mp hdenied
    have hrefused := hledger.refused d hd
    rw [Source.allows, hpolicy] at hrefused
    cases hrefused

/-! A log of ops, which every filter lists. -/

def logSource (policy : Option (List ℕ → Unit → V0.Filter → ℕ → Bool)) :
    Source (List ℕ) Unit ℕ where
  listOpRefs log _ := log.dedup
  nodup _ _ := List.nodup_dedup _
  filterOutgoingOps := policy
  derivesOpRef := true
  maxOpsPerBatch := 2

/-- A peer without subscriptions. -/
def quietPushes : State (List ℕ) Unit Unit ℕ :=
  .start [] (fun _ => ()) { filter := .all, transport := (), sentOpRefs := [], snapshot := [] }

/-- Nothing is under way, and one subscription is there. -/
structure State.QuietOne (s : State (List ℕ) Unit Unit ℕ) : Prop where
  idle : s.Idle
  owed : s.owed = []
  handlers : s.handlers = []
  entries : s.responderSubscriptions = [⟨0, "s", 0⟩]

theorem exists_quietOne (source : Source (List ℕ) Unit ℕ)
    (events : List (Event (List ℕ) Unit Unit ℕ)) {P : State (List ℕ) Unit Unit ℕ → Prop}
    [DecidablePred P]
    (hrun : (quietPushes.steps source events).any (fun s =>
      decide (s.loop = none ∧ s.pushScheduled = false ∧ s.owed = [] ∧ s.handlers = [] ∧
        s.responderSubscriptions = [⟨0, "s", 0⟩] ∧ P s)) = true) :
    ∃ s, Reachable source s ∧ s.QuietOne ∧ P s := by
  obtain ⟨s, hsteps, hs⟩ := Option.any_eq_true _ _ |>.mp hrun
  obtain ⟨hloop, hscheduled, howed, hhandlers, hentries, hp⟩ := of_decide_eq_true hs
  exact ⟨s, .steps (.start _ _ _) hsteps, ⟨⟨hloop, hscheduled⟩, howed, hhandlers, hentries⟩, hp⟩

/-- A peer subscribes, three ops are written, and the loop runs until it is idle. -/
def pushRun : List (Event (List ℕ) Unit Unit ℕ) :=
  [.onSubscribe "s" .all (), .register 0, .acked 0, .push, .push, .push,
    .write [1, 2, 3] (some [1, 2, 3]), .notifyLocalUpdate 0, .push, .push, .push, .push, .push,
    .push, .push, .push]

/-- The witness: the three ops are sent, in two batches. -/
theorem listed_sent_three : ∃ s : State (List ℕ) Unit Unit ℕ, Reachable (logSource none) s ∧
    s.QuietOne ∧ (s.subs 0).snapshot = [] ∧
    ∀ ref ∈ [1, 2, 3], ref ∈ (s.subs 0).snapshot ∨ ref ∈ (s.subs 0).sent := by
  obtain ⟨s, hreach, hquiet, hworld, hsnapshot⟩ := exists_quietOne (logSource none) pushRun
    (P := fun s => s.world = [1, 2, 3] ∧ (s.subs 0).snapshot = []) (by decide +kernel)
  refine ⟨s, hreach, hquiet, hsnapshot, fun ref href => ?_⟩
  refine (listed_sent (logSource none) s rfl hreach).2 hquiet.idle hquiet.owed
    ⟨0, "s", 0⟩ ?_ ?_ ref ?_
  · rw [hquiet.entries]
    exact List.mem_singleton_self _
  · rw [hquiet.handlers]
    exact List.not_mem_nil
  · rw [hworld]
    exact List.mem_dedup.mpr href

/-- A write between the listing and the registration tells no one; until the `subscribeAck` is sent,
nothing is running or scheduled, and the op was neither in the snapshot nor sent. -/
theorem unacked_subscription_lags : ∃ s : State (List ℕ) Unit Unit ℕ, Reachable (logSource none) s ∧
    s.Idle ∧ s.owed = [] ∧ ∃ entry ∈ s.responderSubscriptions,
      ∃ ref ∈ (logSource none).listOpRefs s.world (s.subs entry.sub).filter,
        ref ∉ (s.subs entry.sub).snapshot ∧ ref ∉ (s.subs entry.sub).sent := by
  have hrun : (quietPushes.steps (logSource none) [.onSubscribe "s" .all (),
      .write [1] (some [1]), .notifyLocalUpdate 0, .register 0]).any (fun s =>
        decide (s.loop = none ∧ s.pushScheduled = false ∧ s.owed = [] ∧
          ∃ entry ∈ s.responderSubscriptions,
            ∃ ref ∈ (logSource none).listOpRefs s.world (s.subs entry.sub).filter,
              ref ∉ (s.subs entry.sub).snapshot ∧ ref ∉ (s.subs entry.sub).sent)) = true := by
    decide +kernel
  obtain ⟨s, hsteps, hs⟩ := Option.any_eq_true _ _ |>.mp hrun
  obtain ⟨hloop, hscheduled, howed, hlags⟩ := of_decide_eq_true hs
  exact ⟨s, .steps (.start _ _ _) hsteps, ⟨hloop, hscheduled⟩, howed, hlags⟩

/-! Op `1` is on a node that op `2` moves into the scope of the peer. -/

def movedIntoScope (log : List ℕ) (_ : Unit) (_ : V0.Filter) (ref : ℕ) : Bool :=
  ref ≠ 1 || 2 ∈ log

/-- Op `1` is denied, then op `2` moves its node, and each time the loop runs until it is idle. -/
def scopeRun : List (Event (List ℕ) Unit Unit ℕ) :=
  [.onSubscribe "s" .all (), .register 0, .acked 0, .push, .push, .push,
    .write [1] none, .notifyLocalUpdate 0, .push, .push, .push, .push, .push, .push, .push,
    .write [2, 1] none, .notifyLocalUpdate 0, .push, .push, .push, .push, .push, .push, .push,
    .push]

/-- The peer may see op `1`, and the loop is idle, but op `1` is never sent. -/
theorem allowed_later_not_sent : ∃ s : State (List ℕ) Unit Unit ℕ,
    Reachable (logSource (some movedIntoScope)) s ∧ s.QuietOne ∧
    1 ∈ (logSource (some movedIntoScope)).listOpRefs s.world (s.subs 0).filter ∧
    (logSource (some movedIntoScope)).allows s.world () (s.subs 0).filter 1 = true ∧
    (s.subs 0).denied = [⟨[1], (), 1⟩] ∧ 1 ∉ (s.subs 0).snapshot ∧ (s.subs 0).sent = [2] :=
  exists_quietOne (logSource (some movedIntoScope)) scopeRun (by decide +kernel)

/-- The witness: op `1` was denied, and op `2` is sent. -/
theorem listed_decided_scope : ∃ s : State (List ℕ) Unit Unit ℕ,
    Reachable (logSource (some movedIntoScope)) s ∧ s.QuietOne ∧
    ∀ ref ∈ [2, 1], ref ∈ (s.subs 0).snapshot ∨ ref ∈ (s.subs 0).sent ∨
      ∃ d ∈ (s.subs 0).denied, d.ref = ref ∧
        movedIntoScope d.world d.capabilities (s.subs 0).filter ref = false := by
  obtain ⟨s, hreach, hquiet, hworld⟩ := exists_quietOne
    (logSource (some movedIntoScope)) scopeRun
    (P := fun s => s.world = [2, 1]) (by decide +kernel)
  refine ⟨s, hreach, hquiet, fun ref href => ?_⟩
  refine (listed_decided (logSource (some movedIntoScope)) s hreach).2 hquiet.idle hquiet.owed
    ⟨0, "s", 0⟩ ?_ ?_ ref ?_
  · rw [hquiet.entries]
    exact List.mem_singleton_self _
  · rw [hquiet.handlers]
    exact List.not_mem_nil
  · rw [hworld]
    exact List.mem_dedup.mpr href

end Push

end Sync

end Treecrdt
