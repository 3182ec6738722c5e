import TreecrdtLean.Sync.Push

/-!
# Invariants of the push loop (`SyncPeer`, `sync.ts`)

A ref that a subscription's filter lists is in `sentOpRefs`, or
something is still to bring the loop to it (`State.Covered`): the notes for the next pass, a write
or an `onSubscribe` that has yet to call `notifyLocalUpdate`, or the pass that runs. And what is in
`sentOpRefs` was in the snapshot of the registration, was sent, was denied, or is under way
(`Subscription.Ledger`).
-/

namespace Treecrdt

namespace Sync

namespace Push

variable {W T C Ref : Type} {source : Source W C Ref} {s s' : State W T C Ref}

/-! ## The books of a subscription -/

/-- The refs that were sent or denied. -/
def Subscription.decided (x : Subscription W T C Ref) : List Ref :=
  x.sent ++ x.denied.map (·.ref)

/-- What `sentOpRefs` stands for, where `inFlight` is under way. -/
structure Subscription.Ledger (source : Source W C Ref) (x : Subscription W T C Ref)
    (inFlight : List Ref) : Prop where
  known : ∀ ref ∈ x.sentOpRefs, ref ∈ x.snapshot ∨ ref ∈ x.decided ++ inFlight
  kept : ∀ ref ∈ x.decided, ref ∈ x.sentOpRefs
  once : (x.decided ++ inFlight).Nodup
  refused : ∀ d ∈ x.denied, source.allows d.world d.capabilities x.filter d.ref = false

variable {x : Subscription W T C Ref} {chunk rest : List Ref}

theorem Subscription.Ledger.new {filter : V0.Filter} {transport : T} {opRefs : List Ref} :
    Subscription.Ledger source
      { filter := filter, transport := transport, sentOpRefs := opRefs, snapshot := opRefs }
      [] where
  known _ href := Or.inl href
  kept _ href := (nomatch href)
  once := .nil
  refused _ hd := (nomatch hd)

/-- New refs are taken up. -/
theorem Subscription.Ledger.take {refs : List Ref} (h : x.Ledger source []) (hnodup : refs.Nodup)
    (hnew : ∀ ref ∈ refs, ref ∉ x.sentOpRefs) : x.Ledger source refs where
  known ref href := by
    refine (h.known ref href).imp_right fun hdecided => ?_
    rw [List.append_nil] at hdecided
    exact List.mem_append_left _ hdecided
  kept := h.kept
  once := by
    refine List.nodup_append.mpr ⟨?_, hnodup, ?_⟩
    · simpa using h.once
    · rintro ref hdecided _ href rfl
      exact hnew ref href (h.kept ref hdecided)
  refused := h.refused

/-- A chunk counts as sent, and what is under way is regrouped. -/
theorem Subscription.Ledger.regroup {y : Subscription W T C Ref} {inFlight : List Ref}
    (h : x.Ledger source (chunk ++ rest)) (hsnapshot : y.snapshot = x.snapshot)
    (hsent : y.sentOpRefs = x.sentOpRefs ++ chunk)
    (hperm : (x.decided ++ (chunk ++ rest)).Perm (y.decided ++ inFlight))
    (hdecided : ∀ ref ∈ y.decided, ref ∈ x.decided ∨ ref ∈ chunk)
    (hrefused : ∀ d ∈ y.denied, source.allows d.world d.capabilities y.filter d.ref = false) :
    y.Ledger source inFlight where
  known ref href := by
    rw [hsent] at href
    rw [hsnapshot, ← hperm.mem_iff]
    obtain href | href := List.mem_append.mp href
    · exact h.known ref href
    · exact Or.inr (List.mem_append_right _ (List.mem_append_left _ href))
  kept ref href := by
    rw [hsent]
    exact List.mem_append.mpr ((hdecided ref href).imp_left (h.kept ref))
  once := hperm.nodup_iff.mp h.once
  refused := hrefused

theorem Subscription.decided_filtered (world : W) (asked : C) :
    (x.filtered source world asked chunk).decided = x.sent ++ (x.denied.map (·.ref) ++
      chunk.filter fun ref => !source.allows world asked x.filter ref) := by
  simp only [Subscription.decided, Subscription.filtered, List.map_append, List.map_map]
  rw [Function.comp_def, List.map_id']

theorem Subscription.Ledger.filtered (h : x.Ledger source (chunk ++ rest)) (world : W) (asked : C) :
    (x.filtered source world asked chunk).Ledger source
      (chunk.filter (source.allows world asked x.filter) ++ rest) := by
  classical
  refine h.regroup rfl rfl ?_ ?_ ?_
  · have hsplit : (chunk.filter (source.allows world asked x.filter) ++
        chunk.filter fun ref => !source.allows world asked x.filter ref).Perm chunk :=
      List.filter_append_perm _ _
    refine (((hsplit.symm.append_right rest).append_left x.decided).trans ?_)
    rw [Subscription.decided_filtered, List.perm_iff_count]
    intro ref
    simp only [Subscription.decided, List.count_append]
    omega
  · intro ref href
    rw [Subscription.decided_filtered, ← List.append_assoc] at href
    exact (List.mem_append.mp href).imp_right List.mem_of_mem_filter
  · intro d hd
    obtain hd | hd := List.mem_append.mp hd
    · exact h.refused d hd
    · obtain ⟨ref, href, rfl⟩ := List.mem_map.mp hd
      show source.allows world asked x.filter ref = false
      simpa using (List.mem_filter.mp href).2

theorem Subscription.Ledger.push (h : x.Ledger source (chunk ++ rest)) :
    (x.push chunk).Ledger source rest := by
  classical
  refine h.regroup rfl rfl ?_ ?_ h.refused
  · rw [List.perm_iff_count]
    intro ref
    simp only [Subscription.decided, Subscription.push, List.count_append]
    omega
  · intro ref href
    obtain href | href := List.mem_append.mp href
    · exact (List.mem_append.mp href).imp_left (List.mem_append_left _)
    · exact Or.inl (List.mem_append_right _ href)

/-! ## The map of subscriptions and the notes -/

theorem setEntry_stamps {entries : List Entry} {new : Entry}
    (h : entries.Pairwise (·.stamp < ·.stamp)) (hnew : ∀ entry ∈ entries, entry.stamp < new.stamp) :
    (setEntry entries new).Pairwise (·.stamp < ·.stamp) := by
  rw [setEntry]
  split
  · refine List.pairwise_map.mpr (h.imp fun {a b} hab => ?_)
    split <;> split <;> exact hab
  · refine List.pairwise_append.mpr ⟨h, List.pairwise_singleton _ _, fun a ha b hb => ?_⟩
    rw [List.mem_singleton.mp hb]
    exact hnew a ha

/-- An entry is as before, or has the new object. -/
theorem mem_setEntry {entries : List Entry} {new entry : Entry}
    (h : entry ∈ setEntry entries new) :
    entry ∈ entries ∨
      entry.sub = new.sub ∧ (entry = new ∨ ∃ old ∈ entries, entry.stamp = old.stamp) := by
  rw [setEntry] at h
  split at h
  · obtain ⟨old, hold, rfl⟩ := List.mem_map.mp h
    split
    · exact Or.inr ⟨rfl, Or.inr ⟨old, hold, rfl⟩⟩
    · exact Or.inl hold
  · obtain h | h := List.mem_append.mp h
    · exact Or.inl h
    · obtain rfl := List.mem_singleton.mp h
      exact Or.inr ⟨rfl, Or.inl rfl⟩

/-- The iterator comes to the next entry, and to no one else before it. -/
theorem find?_stamp {entries : List Entry} {last : ℕ} {entry : Entry}
    (h : entries.Pairwise (·.stamp < ·.stamp))
    (hfind : entries.find? (last < ·.stamp) = some entry) :
    entry ∈ entries ∧ ∀ other ∈ entries, last < other.stamp →
      other = entry ∨ entry.stamp < other.stamp := by
  obtain ⟨-, before, after, rfl, hbefore⟩ := List.find?_eq_some_iff_append.mp hfind
  refine ⟨by simp, fun other hother hlast => ?_⟩
  obtain hother | hother := List.mem_append.mp hother
  · have hnot := hbefore other hother
    simp at hnot
    omega
  · obtain rfl | hother := List.mem_cons.mp hother
    · exact Or.inl rfl
    · have hpair := (List.pairwise_append.mp h).2.1
      exact Or.inr (List.rel_of_pairwise_cons hpair hother)

section

variable [DecidableEq Ref] {pending refs : List Ref}

theorem mem_addRefs {ref : Ref} : ref ∈ addRefs pending refs ↔ ref ∈ pending ∨ ref ∈ refs := by
  induction refs generalizing pending with
  | nil => simp [addRefs]
  | cons new refs ih =>
    rw [addRefs, List.foldl_cons, ← addRefs, ih]
    split <;> grind

theorem nodup_addRefs (h : pending.Nodup) : (addRefs pending refs).Nodup := by
  induction refs generalizing pending with
  | nil => exact h
  | cons new refs ih =>
    rw [addRefs, List.foldl_cons, ← addRefs]
    split
    · exact ih h
    · rename_i hnew
      exact ih (List.nodup_append.mpr ⟨h, List.nodup_singleton new, by grind⟩)

end

/-! ## The invariant -/

def Doing.refs : Doing C Ref → List Ref
  | .listing => []
  | .refreshing _ refs => refs
  | .pushing _ refs => refs
  | .filtering _ _ chunk rest => chunk ++ rest
  | .sending _ chunk rest => chunk ++ rest

def Loop.pass : Loop C Ref → Option (Pass Ref)
  | .starting => none
  | .visiting pass _ => some pass
  | .serving pass _ _ _ => some pass

/-- What the loop is about to send to a subscription. -/
def Loop.inFlight (sub : ℕ) : Loop C Ref → List Ref
  | .serving _ _ served doing => if served = sub then doing.refs else []
  | _ => []

def State.inFlight (s : State W T C Ref) (sub : ℕ) : List Ref :=
  (s.loop.map (·.inFlight sub)).getD []

/-- Objects are at addresses below `fresh`, and the map goes by stamp. -/
structure State.Placed (s : State W T C Ref) : Prop where
  entries : ∀ entry ∈ s.responderSubscriptions, entry.stamp < s.fresh ∧ entry.sub < s.fresh
  sorted : s.responderSubscriptions.Pairwise (·.stamp < ·.stamp)
  served : ∀ pass stamp sub doing, s.loop = some (.serving pass stamp sub doing) → sub < s.fresh

/-- The books of every subscription are right, and no op is noted twice. -/
structure State.Booked (source : Source W C Ref) (s : State W T C Ref) : Prop where
  ledger : ∀ sub < s.fresh, (s.subs sub).Ledger source (s.inFlight sub)
  pending : s.pendingPushOps.Nodup
  pass : ∀ loop ∈ s.loop, ∀ pass ∈ loop.pass, pass.deltaOps.Nodup

/-- A pass that comes to a subscription with this filter takes the ref up. -/
def Pass.Reaches (pass : Pass Ref) (filter : V0.Filter) (ref : Ref) : Prop :=
  pass.Exact filter → ref ∈ pass.deltaOps

/-- The loop is still to come to the entry with the ref, or is at it. -/
def Loop.Covers (filter : V0.Filter) (entry : Entry) (ref : Ref) : Loop C Ref → Prop
  | .starting => False
  | .visiting pass last => last < entry.stamp ∧ pass.Reaches filter ref
  | .serving pass stamp sub doing =>
    (stamp < entry.stamp ∧ pass.Reaches filter ref) ∨
      sub = entry.sub ∧ (doing = .listing ∨ ref ∈ doing.refs)

/-- The notes for the next pass have the ref. -/
def State.Noted (s : State W T C Ref) (filter : V0.Filter) (ref : Ref) : Prop :=
  s.pushScheduled = true ∧
    (s.pushNeedsFullScan = false → filter = .all → ref ∈ s.pendingPushOps)

/-- Something other than the loop has the ref. -/
inductive State.Waits (s : State W T C Ref) (entry : Entry) (ref : Ref) : Prop
  | counted (h : ref ∈ (s.subs entry.sub).sentOpRefs)
  | noted (h : s.Noted (s.subs entry.sub).filter ref)
  | owed (ops : Option (List Ref)) (h : ops ∈ s.owed)
      (has : ∀ refs ∈ ops, (s.subs entry.sub).filter = .all → ref ∈ refs)
  | acking (h : .acking entry.sub ∈ s.handlers)

/-- The ref is not forgotten. -/
def State.Covered (s : State W T C Ref) (entry : Entry) (ref : Ref) : Prop :=
  s.Waits entry ref ∨ ∃ loop ∈ s.loop, loop.Covers (s.subs entry.sub).filter entry ref

/-- The invariant. -/
structure State.Kept (source : Source W C Ref) (s : State W T C Ref) : Prop where
  placed : s.Placed
  booked : s.Booked source
  covered : ∀ entry ∈ s.responderSubscriptions,
    ∀ ref ∈ source.listOpRefs s.world (s.subs entry.sub).filter, s.Covered entry ref

variable [DecidableEq Ref]

/-! ## `notifyLocalUpdate` -/

omit [DecidableEq Ref] in
/-- Where the subscription and the notes are the same, and all that tells later is still there. -/
theorem State.Covered.mono {entry : Entry} {ref : Ref} (h : s.Covered entry ref)
    (hsub : s'.subs entry.sub = s.subs entry.sub) (hscheduled : s'.pushScheduled = s.pushScheduled)
    (hscan : s'.pushNeedsFullScan = s.pushNeedsFullScan)
    (hpending : s'.pendingPushOps = s.pendingPushOps) (hloop : s'.loop = s.loop)
    (howed : ∀ ops ∈ s.owed, ops ∈ s'.owed)
    (hacking : .acking entry.sub ∈ s.handlers → .acking entry.sub ∈ s'.handlers) :
    s'.Covered entry ref := by
  obtain (hcounted | hnoted | ⟨ops, hops, has⟩ | hack) | ⟨loop, hmem, hcovers⟩ := h
  · exact Or.inl (.counted (hsub ▸ hcounted))
  · refine Or.inl (.noted ?_)
    rw [State.Noted, hscheduled, hscan, hpending, hsub]
    exact hnoted
  · exact Or.inl (.owed ops (howed ops hops) (hsub ▸ has))
  · exact Or.inl (.acking (hacking hack))
  · exact Or.inr ⟨loop, hloop ▸ hmem, hsub ▸ hcovers⟩

/-- A note, or nothing where there are no subscriptions. -/
theorem State.notifyLocalUpdate_cases (source : Source W C Ref) (s : State W T C Ref)
    (ops : Option (List Ref)) :
    (s.responderSubscriptions = [] ∧ s.notifyLocalUpdate source ops = s) ∨
    (∃ refs ∈ ops, s.notifyLocalUpdate source ops = { s with
      pendingPushOps := addRefs s.pendingPushOps refs
      pushScheduled := true
      loop := s.loop.or (some .starting) }) ∨
    s.notifyLocalUpdate source ops = { s with
      pushNeedsFullScan := true
      pushScheduled := true
      loop := s.loop.or (some .starting) } := by
  unfold State.notifyLocalUpdate
  split
  · exact Or.inl ⟨‹_›, rfl⟩
  · split
    · exact Or.inr (Or.inl ⟨_, rfl, rfl⟩)
    · exact Or.inr (Or.inr rfl)

theorem State.Placed.notifyLocalUpdate (h : s.Placed) (ops : Option (List Ref)) :
    (s.notifyLocalUpdate source ops).Placed := by
  have hserved : ∀ pass stamp sub doing,
      s.loop.or (some .starting) = some (.serving pass stamp sub doing) → sub < s.fresh := by
    intro pass stamp sub doing hloop
    obtain hloop | ⟨-, hloop⟩ := Option.or_eq_some_iff.mp hloop
    · exact h.served pass stamp sub doing hloop
    · cases hloop
  obtain ⟨-, heq⟩ | ⟨refs, -, heq⟩ | heq := s.notifyLocalUpdate_cases source ops
  · rw [heq]
    exact h
  · rw [heq]
    exact ⟨h.entries, h.sorted, hserved⟩
  · rw [heq]
    exact ⟨h.entries, h.sorted, hserved⟩

omit [DecidableEq Ref] in
theorem inFlight_starting {loop : Option (Loop C Ref)} {sub : ℕ} :
    ((loop.or (some .starting)).map (·.inFlight sub)).getD [] =
      (loop.map (·.inFlight sub)).getD [] := by
  cases loop <;> rfl

theorem State.Booked.notifyLocalUpdate (h : s.Booked source) (ops : Option (List Ref)) :
    (s.notifyLocalUpdate source ops).Booked source := by
  have hpass : ∀ loop ∈ s.loop.or (some .starting), ∀ pass ∈ loop.pass, pass.deltaOps.Nodup := by
    intro loop hloop pass hpass
    obtain hloop | ⟨-, hloop⟩ := Option.or_eq_some_iff.mp hloop
    · exact h.pass loop hloop pass hpass
    · cases hloop
      cases hpass
  have hledger : ∀ sub < s.fresh, (s.subs sub).Ledger source
      (((s.loop.or (some .starting)).map (·.inFlight sub)).getD []) := by
    intro sub hsub
    rw [inFlight_starting]
    exact h.ledger sub hsub
  obtain ⟨-, heq⟩ | ⟨refs, -, heq⟩ | heq := s.notifyLocalUpdate_cases source ops
  · rw [heq]
    exact h
  · rw [heq]
    exact ⟨hledger, nodup_addRefs h.pending, hpass⟩
  · rw [heq]
    exact ⟨hledger, h.pending, hpass⟩

/-- What was not forgotten is not forgotten, and neither is what the call tells. -/
theorem State.Covered.notifyLocalUpdate {ops : Option (List Ref)} {entry : Entry} {ref : Ref}
    (hentry : entry ∈ s.responderSubscriptions)
    (h : s.Covered entry ref ∨ ∀ refs ∈ ops, (s.subs entry.sub).filter = .all → ref ∈ refs) :
    (s.notifyLocalUpdate source ops).Covered entry ref := by
  obtain ⟨hnone, -⟩ | ⟨refs, hrefs, heq⟩ | heq := s.notifyLocalUpdate_cases source ops
  · rw [hnone] at hentry
    cases hentry
  · rw [heq]
    obtain (hwaits | ⟨loop, hloop, hcovers⟩) | htells := h
    · refine Or.inl ?_
      cases hwaits with
      | counted h => exact .counted h
      | noted h =>
        exact .noted ⟨rfl, fun hscan hall => mem_addRefs.mpr (Or.inl (h.2 hscan hall))⟩
      | owed ops h has => exact .owed ops h has
      | acking h => exact .acking h
    · exact Or.inr ⟨loop, Option.or_eq_some_iff.mpr (Or.inl hloop), hcovers⟩
    · exact Or.inl (.noted ⟨rfl, fun _ hall => mem_addRefs.mpr (Or.inr (htells refs hrefs hall))⟩)
  · rw [heq]
    exact Or.inl (.noted ⟨rfl, fun hscan => nomatch hscan⟩)

theorem State.notifyLocalUpdate_frame (source : Source W C Ref) (s : State W T C Ref)
    (ops : Option (List Ref)) :
    (s.notifyLocalUpdate source ops).world = s.world ∧
      (s.notifyLocalUpdate source ops).subs = s.subs ∧
      (s.notifyLocalUpdate source ops).responderSubscriptions = s.responderSubscriptions := by
  obtain ⟨-, heq⟩ | ⟨refs, -, heq⟩ | heq := s.notifyLocalUpdate_cases source ops <;>
    rw [heq] <;> exact ⟨rfl, rfl, rfl⟩

theorem State.Kept.notifyLocalUpdate {ops : Option (List Ref)} (hplaced : s.Placed)
    (hbooked : s.Booked source)
    (hcovered : ∀ entry ∈ s.responderSubscriptions,
      ∀ ref ∈ source.listOpRefs s.world (s.subs entry.sub).filter, s.Covered entry ref ∨
        ∀ refs ∈ ops, (s.subs entry.sub).filter = .all → ref ∈ refs) :
    (s.notifyLocalUpdate source ops).Kept source where
  placed := hplaced.notifyLocalUpdate ops
  booked := hbooked.notifyLocalUpdate ops
  covered := by
    obtain ⟨hworld, hsubs, hentries⟩ := s.notifyLocalUpdate_frame source ops
    rw [hworld, hsubs, hentries]
    exact fun entry hentry ref href => .notifyLocalUpdate hentry (hcovered entry hentry ref href)

/-! ## The loop -/

omit [DecidableEq Ref] in
theorem State.Waits.setLoop {entry : Entry} {ref : Ref} (h : s.Waits entry ref)
    (loop : Option (Loop C Ref)) : ({ s with loop := loop } : State W T C Ref).Waits entry ref := by
  cases h with
  | counted h => exact .counted h
  | noted h => exact .noted h
  | owed ops h has => exact .owed ops h has
  | acking h => exact .acking h

omit [DecidableEq Ref] in
/-- The loop goes on from where the notes and the books are right. -/
theorem State.Kept.setLoop {loop : Loop C Ref}
    (hentries : ∀ entry ∈ s.responderSubscriptions, entry.stamp < s.fresh ∧ entry.sub < s.fresh)
    (hsorted : s.responderSubscriptions.Pairwise (·.stamp < ·.stamp))
    (hserved : ∀ pass stamp sub doing, loop = .serving pass stamp sub doing → sub < s.fresh)
    (hledger : ∀ sub < s.fresh, (s.subs sub).Ledger source (loop.inFlight sub))
    (hpending : s.pendingPushOps.Nodup)
    (hpass : ∀ pass ∈ loop.pass, pass.deltaOps.Nodup)
    (hcovered : ∀ entry ∈ s.responderSubscriptions,
      ∀ ref ∈ source.listOpRefs s.world (s.subs entry.sub).filter,
        s.Waits entry ref ∨ loop.Covers (s.subs entry.sub).filter entry ref) :
    ({ s with loop := some loop } : State W T C Ref).Kept source where
  placed := ⟨hentries, hsorted, fun _ _ _ _ hloop => hserved _ _ _ _ (Option.some.inj hloop)⟩
  booked := ⟨hledger, hpending, fun _ hloop => Option.some.inj hloop ▸ hpass⟩
  covered entry hentry ref href :=
    (hcovered entry hentry ref href).imp (·.setLoop _) fun hcovers => ⟨loop, rfl, hcovers⟩

/-- What `pushSubscription` begins with: nothing is new, its refs, or the listing. -/
theorem State.visit_cases (s : State W T C Ref) (pass : Pass Ref) (entry : Entry) :
    (pass.Exact (s.subs entry.sub).filter ∧
      (∀ ref ∈ pass.deltaOps, ref ∈ (s.subs entry.sub).sentOpRefs) ∧
      s.visit pass entry = { s with loop := some (.visiting pass entry.stamp) }) ∨
    (pass.Exact (s.subs entry.sub).filter ∧
      s.visit pass entry = { s with loop := some (.serving pass entry.stamp entry.sub
        (.refreshing true (pass.deltaOps.filter (· ∉ (s.subs entry.sub).sentOpRefs)))) }) ∨
    s.visit pass entry =
      { s with loop := some (.serving pass entry.stamp entry.sub .listing) } := by
  by_cases hexact : pass.Exact (s.subs entry.sub).filter
  · by_cases hunsent : pass.deltaOps.filter (· ∉ (s.subs entry.sub).sentOpRefs) = []
    · refine Or.inl ⟨hexact, fun ref href => ?_, by rw [State.visit, if_pos hexact, if_pos hunsent]⟩
      simpa using List.filter_eq_nil_iff.mp hunsent ref href
    · exact Or.inr (Or.inl ⟨hexact, by rw [State.visit, if_pos hexact, if_neg hunsent]⟩)
  · exact Or.inr (Or.inr (by rw [State.visit, if_neg hexact]))

omit [DecidableEq Ref] in
/-- New refs for one subscription are under way, and nothing for the others. -/
theorem ledger_serving {pass : Pass Ref} {stamp served : ℕ} {doing : Doing C Ref}
    (h : ∀ sub < s.fresh, (s.subs sub).Ledger source [])
    (hnodup : doing.refs.Nodup) (hnew : ∀ ref ∈ doing.refs, ref ∉ (s.subs served).sentOpRefs) :
    ∀ sub < s.fresh, (s.subs sub).Ledger source
      (Loop.inFlight sub (.serving pass stamp served doing)) := by
  intro sub hsub
  rw [Loop.inFlight]
  split
  · rename_i heq
    subst heq
    exact (h served hsub).take hnodup hnew
  · exact h sub hsub

/-- The loop comes to an entry: what the pass has for it is taken up or was sent already. -/
theorem State.Kept.visit {pass : Pass Ref} {entry : Entry} (hplaced : s.Placed)
    (hledger : ∀ sub < s.fresh, (s.subs sub).Ledger source []) (hpending : s.pendingPushOps.Nodup)
    (hpass : pass.deltaOps.Nodup) (hentry : entry ∈ s.responderSubscriptions)
    (hcovered : ∀ other ∈ s.responderSubscriptions,
      ∀ ref ∈ source.listOpRefs s.world (s.subs other.sub).filter, s.Waits other ref ∨
        (other = entry ∨ entry.stamp < other.stamp) ∧ pass.Reaches (s.subs other.sub).filter ref) :
    (s.visit pass entry).Kept source := by
  have hone : ∀ p ∈ some pass, p.deltaOps.Nodup := fun p hp => Option.some.inj hp ▸ hpass
  have hserved : ∀ doing p stamp sub doing',
      (.serving pass entry.stamp entry.sub doing : Loop C Ref) = .serving p stamp sub doing' →
        sub < s.fresh := by
    rintro _ _ _ _ _ ⟨⟩
    exact (hplaced.entries entry hentry).2
  obtain ⟨hexact, hsent, heq⟩ | ⟨hexact, heq⟩ | heq := s.visit_cases pass entry
  · rw [heq]
    refine .setLoop hplaced.entries hplaced.sorted (fun _ _ _ _ hloop => nomatch hloop) hledger
      hpending hone fun other hother ref href => ?_
    obtain hwaits | ⟨rfl | hstamp, hreaches⟩ := hcovered other hother ref href
    · exact Or.inl hwaits
    · exact Or.inl (.counted (hsent ref (hreaches hexact)))
    · exact Or.inr ⟨hstamp, hreaches⟩
  · rw [heq]
    refine .setLoop hplaced.entries hplaced.sorted (hserved _)
      (ledger_serving hledger (hpass.filter _) fun ref href => by
        simpa using (List.mem_filter.mp href).2)
      hpending hone fun other hother ref href => ?_
    obtain hwaits | ⟨rfl | hstamp, hreaches⟩ := hcovered other hother ref href
    · exact Or.inl hwaits
    · by_cases hcounted : ref ∈ (s.subs other.sub).sentOpRefs
      · exact Or.inl (.counted hcounted)
      · refine Or.inr (Or.inr ⟨rfl, Or.inr ?_⟩)
        exact List.mem_filter.mpr ⟨hreaches hexact, by simpa using hcounted⟩
    · exact Or.inr (Or.inl ⟨hstamp, hreaches⟩)
  · rw [heq]
    refine .setLoop hplaced.entries hplaced.sorted (hserved _)
      (ledger_serving hledger .nil fun _ href => nomatch href)
      hpending hone fun other hother ref href => ?_
    obtain hwaits | ⟨rfl | hstamp, hreaches⟩ := hcovered other hother ref href
    · exact Or.inl hwaits
    · exact Or.inr (Or.inr ⟨rfl, Or.inl rfl⟩)
    · exact Or.inr (Or.inl ⟨hstamp, hreaches⟩)

omit [DecidableEq Ref] in
/-- The notes are taken: what waited is with the pass, or waits for something else. -/
theorem State.Waits.takeNotes {entry : Entry} {ref : Ref} (h : s.Waits entry ref) :
    ({ s with pushScheduled := false, pushNeedsFullScan := false, pendingPushOps := [] } :
      State W T C Ref).Waits entry ref ∨
    Pass.Reaches ⟨if s.pushNeedsFullScan then [] else s.pendingPushOps, s.pushNeedsFullScan⟩
      (s.subs entry.sub).filter ref := by
  cases h with
  | counted h => exact Or.inl (.counted h)
  | noted h =>
    refine Or.inr fun hexact => ?_
    obtain ⟨hscan, hall, -⟩ := hexact
    simp only at hscan
    rw [if_neg (by simp [hscan])]
    exact h.2 hscan hall
  | owed ops h has => exact Or.inl (.owed ops h has)
  | acking h => exact Or.inl (.acking h)

theorem State.beginPass_cases (s : State W T C Ref) :
    (s.pushScheduled = false ∧ s.beginPass = { s with loop := none }) ∨
    (s.responderSubscriptions = [] ∧ s.beginPass = { s with
      pushScheduled := false, pushNeedsFullScan := false, pendingPushOps := [], loop := none }) ∨
    ∃ entry rest, s.responderSubscriptions = entry :: rest ∧ s.beginPass =
      ({ s with pushScheduled := false, pushNeedsFullScan := false, pendingPushOps := [] } :
        State W T C Ref).visit
          ⟨if s.pushNeedsFullScan then [] else s.pendingPushOps, s.pushNeedsFullScan⟩ entry := by
  by_cases hscheduled : s.pushScheduled = true
  · cases hentries : s.responderSubscriptions with
    | nil =>
      exact Or.inr (Or.inl ⟨rfl, by simp only [State.beginPass, if_pos hscheduled, hentries]⟩)
    | cons entry rest =>
      exact Or.inr (Or.inr ⟨entry, rest, rfl,
        by simp only [State.beginPass, if_pos hscheduled, hentries]⟩)
  · exact Or.inl ⟨Bool.eq_false_iff.mpr hscheduled, by rw [State.beginPass, if_neg hscheduled]⟩

/-- A pass begins, or the loop ends with nothing to do. -/
theorem State.Kept.beginPass (hplaced : s.Placed)
    (hledger : ∀ sub < s.fresh, (s.subs sub).Ledger source []) (hpending : s.pendingPushOps.Nodup)
    (hwaits : ∀ entry ∈ s.responderSubscriptions,
      ∀ ref ∈ source.listOpRefs s.world (s.subs entry.sub).filter, s.Waits entry ref) :
    s.beginPass.Kept source := by
  obtain ⟨-, heq⟩ | ⟨hentries, heq⟩ | ⟨entry, rest, hentries, heq⟩ := s.beginPass_cases
  · rw [heq]
    exact ⟨⟨hplaced.entries, hplaced.sorted, fun _ _ _ _ hloop => nomatch hloop⟩,
      ⟨hledger, hpending, fun _ hloop => nomatch hloop⟩,
      fun entry hentry ref href => Or.inl ((hwaits entry hentry ref href).setLoop none)⟩
  · rw [heq]
    refine ⟨⟨hplaced.entries, hplaced.sorted, fun _ _ _ _ hloop => nomatch hloop⟩,
      ⟨hledger, .nil, fun _ hloop => nomatch hloop⟩, fun entry hentry => ?_⟩
    rw [hentries] at hentry
    cases hentry
  · rw [heq]
    refine .visit ⟨hplaced.entries, hplaced.sorted, hplaced.served⟩ hledger .nil ?_ ?_ ?_
    · simp only
      split
      · exact .nil
      · exact hpending
    · rw [hentries]
      exact List.mem_cons_self
    · intro other hother ref href
      refine (hwaits other hother ref href).takeNotes.imp_right fun hreaches => ⟨?_, hreaches⟩
      have hsorted := hplaced.sorted
      rw [hentries] at hother hsorted
      exact (List.mem_cons.mp hother).imp_right (List.rel_of_pairwise_cons hsorted)

theorem State.Kept.next (h : s.Kept source) {pass : Pass Ref} {last : ℕ}
    (hloop : s.loop = some (.visiting pass last)) : (s.next pass last).Kept source := by
  have hledger : ∀ sub < s.fresh, (s.subs sub).Ledger source [] := by
    intro sub hsub
    have hledger := h.booked.ledger sub hsub
    rwa [State.inFlight, hloop] at hledger
  have hcovered : ∀ entry ∈ s.responderSubscriptions,
      ∀ ref ∈ source.listOpRefs s.world (s.subs entry.sub).filter, s.Waits entry ref ∨
        last < entry.stamp ∧ pass.Reaches (s.subs entry.sub).filter ref := by
    intro entry hentry ref href
    refine (h.covered entry hentry ref href).imp_right ?_
    rintro ⟨_, hsome, hcovers⟩
    obtain rfl := Option.some.inj (hloop.symm.trans hsome)
    exact hcovers
  rw [State.next]
  split
  · rename_i entry hfind
    obtain ⟨hentry, hnext⟩ := find?_stamp h.placed.sorted hfind
    refine .visit h.placed hledger h.booked.pending (h.booked.pass _ hloop _ rfl) hentry ?_
    intro other hother ref href
    exact (hcovered other hother ref href).imp_right fun ⟨hlast, hreaches⟩ =>
      ⟨hnext other hother hlast, hreaches⟩
  · rename_i hfind
    refine .beginPass h.placed hledger h.booked.pending fun entry hentry ref href => ?_
    obtain hwaits | ⟨hlast, -⟩ := hcovered entry hentry ref href
    · exact hwaits
    · have hnot := List.find?_eq_none.mp hfind entry hentry
      exact absurd (decide_eq_true hlast) hnot

section

variable {pass : Pass Ref} {stamp sub : ℕ} {doing doing' : Doing C Ref}

omit [DecidableEq Ref]

theorem State.Kept.ledger_serving (h : s.Kept source)
    (hloop : s.loop = some (.serving pass stamp sub doing)) :
    (s.subs sub).Ledger source doing.refs ∧
      ∀ other < s.fresh, other ≠ sub → (s.subs other).Ledger source [] := by
  refine ⟨?_, fun other hother hne => ?_⟩
  · have hledger := h.booked.ledger sub (h.placed.served _ _ _ _ hloop)
    rwa [State.inFlight, hloop, Option.map_some, Option.getD_some, Loop.inFlight, if_pos rfl]
      at hledger
  · have hledger := h.booked.ledger other hother
    rwa [State.inFlight, hloop, Option.map_some, Option.getD_some, Loop.inFlight,
      if_neg (Ne.symm hne)] at hledger

/-- The refs of a subscription are as the loop has them. -/
theorem State.Kept.covered_serving (h : s.Kept source)
    (hloop : s.loop = some (.serving pass stamp sub doing)) {entry : Entry}
    (hentry : entry ∈ s.responderSubscriptions) {ref : Ref}
    (href : ref ∈ source.listOpRefs s.world (s.subs entry.sub).filter) :
    s.Waits entry ref ∨ (stamp < entry.stamp ∧ pass.Reaches (s.subs entry.sub).filter ref) ∨
      sub = entry.sub ∧ (doing = .listing ∨ ref ∈ doing.refs) := by
  refine (h.covered entry hentry ref href).imp_right ?_
  rintro ⟨_, hsome, hcovers⟩
  obtain rfl := Option.some.inj (hloop.symm.trans hsome)
  exact hcovers

/-- The loop leaves the subscription: all it had is counted. -/
theorem State.Kept.leave (h : s.Kept source)
    (hloop : s.loop = some (.serving pass stamp sub doing))
    (hledger : (s.subs sub).Ledger source [])
    (hcounted : ∀ ref ∈ source.listOpRefs s.world (s.subs sub).filter,
      doing = .listing ∨ ref ∈ doing.refs → ref ∈ (s.subs sub).sentOpRefs) :
    ({ s with loop := some (.visiting pass stamp) } : State W T C Ref).Kept source := by
  refine .setLoop h.placed.entries h.placed.sorted (fun _ _ _ _ hvisit => nomatch hvisit)
    (fun other hother => ?_) h.booked.pending (h.booked.pass (.serving pass stamp sub doing) hloop)
    fun entry hentry ref href => ?_
  · by_cases hne : other = sub
    · rw [hne]
      exact hledger
    · exact (h.ledger_serving hloop).2 other hother hne
  · obtain hwaits | hreaches | ⟨rfl, hdoing⟩ := h.covered_serving hloop hentry href
    · exact Or.inl hwaits
    · exact Or.inr hreaches
    · exact Or.inl (.counted (hcounted ref href hdoing))

/-- The loop goes on with the subscription. -/
theorem State.Kept.goOn (h : s.Kept source)
    (hloop : s.loop = some (.serving pass stamp sub doing))
    (hledger : (s.subs sub).Ledger source doing'.refs)
    (hrefs : ∀ ref ∈ source.listOpRefs s.world (s.subs sub).filter,
      doing = .listing ∨ ref ∈ doing.refs → ref ∈ (s.subs sub).sentOpRefs ∨ ref ∈ doing'.refs) :
    ({ s with loop := some (.serving pass stamp sub doing') } : State W T C Ref).Kept source := by
  refine .setLoop h.placed.entries h.placed.sorted ?_ (fun other hother => ?_) h.booked.pending
    (h.booked.pass (.serving pass stamp sub doing) hloop) fun entry hentry ref href => ?_
  · rintro _ _ _ _ ⟨⟩
    exact h.placed.served _ _ _ _ hloop
  · rw [Loop.inFlight]
    split
    · rename_i heq
      rw [← heq]
      exact hledger
    · exact (h.ledger_serving hloop).2 other hother (Ne.symm ‹_›)
  · obtain hwaits | hreaches | ⟨rfl, hdoing⟩ := h.covered_serving hloop hentry href
    · exact Or.inl hwaits
    · exact Or.inr (Or.inl hreaches)
    · exact (hrefs ref href hdoing).imp .counted fun hdoing' => Or.inr ⟨rfl, Or.inr hdoing'⟩

/-- A subscription that keeps its filter counts a chunk of what was under way. -/
theorem State.Kept.count {f : Subscription W T C Ref → Subscription W T C Ref}
    (h : s.Kept source) (hloop : s.loop = some (.serving pass stamp sub doing))
    (hdoing : doing ≠ .listing) (hrefs : doing.refs = chunk ++ rest)
    (hfilter : (f (s.subs sub)).filter = (s.subs sub).filter)
    (hsent : (f (s.subs sub)).sentOpRefs = (s.subs sub).sentOpRefs ++ chunk)
    (hledger : (f (s.subs sub)).Ledger source doing'.refs)
    (hrest : ∀ ref ∈ rest, ref ∈ doing'.refs) :
    ({ s.setSub sub f with loop := some (.serving pass stamp sub doing') } :
      State W T C Ref).Kept source := by
  have hsub : (s.setSub sub f).subs sub = f (s.subs sub) := Function.update_self _ _ _
  have hother : ∀ other, other ≠ sub → (s.setSub sub f).subs other = s.subs other :=
    fun other hne => Function.update_of_ne hne _ _
  have hfilters : ∀ n, ((s.setSub sub f).subs n).filter = (s.subs n).filter := by
    intro n
    by_cases hn : n = sub
    · rw [hn, hsub, hfilter]
    · rw [hother n hn]
  have hwaits : ∀ {entry ref}, s.Waits entry ref → (s.setSub sub f).Waits entry ref := by
    rintro entry ref (hcounted | hnoted | ⟨ops, hops, has⟩ | hacking)
    · refine .counted ?_
      by_cases hn : entry.sub = sub
      · rw [hn, hsub, hsent]
        exact List.mem_append_left _ (hn ▸ hcounted)
      · rw [hother _ hn]
        exact hcounted
    · exact .noted (by rw [hfilters]; exact hnoted)
    · exact .owed ops hops (by rw [hfilters]; exact has)
    · exact .acking hacking
  refine .setLoop h.placed.entries h.placed.sorted ?_ (fun other hlt => ?_) h.booked.pending
    (h.booked.pass (.serving pass stamp sub doing) hloop) fun entry hentry ref href => ?_
  · rintro _ _ _ _ ⟨⟩
    exact h.placed.served _ _ _ _ hloop
  · rw [Loop.inFlight]
    split
    · rename_i heq
      rw [← heq, hsub]
      exact hledger
    · rename_i hne
      rw [hother other (Ne.symm hne)]
      exact (h.ledger_serving hloop).2 other hlt (Ne.symm hne)
  · rw [hfilters] at href ⊢
    obtain hw | hreaches | ⟨heq, hlisting | hmem⟩ := h.covered_serving hloop hentry href
    · exact Or.inl (hwaits hw)
    · exact Or.inr (Or.inl hreaches)
    · exact absurd hlisting hdoing
    · rw [hrefs] at hmem
      obtain hchunk | hmem := List.mem_append.mp hmem
      · refine Or.inl (.counted ?_)
        rw [← heq, hsub, hsent]
        exact List.mem_append_right _ hchunk
      · exact Or.inr (Or.inr ⟨heq, Or.inr (hrest ref hmem)⟩)

end

theorem State.Kept.serve (h : s.Kept source) {pass : Pass Ref} {stamp sub : ℕ}
    {doing : Doing C Ref} (hloop : s.loop = some (.serving pass stamp sub doing)) :
    (s.serve source pass stamp sub doing).Kept source := by
  have hledger := (h.ledger_serving hloop).1
  cases doing with
  | listing =>
    have hnew : ∀ ref ∈ source.listOpRefs s.world (s.subs sub).filter,
        ref ∈ (s.subs sub).sentOpRefs ∨
          ref ∈ (source.listOpRefs s.world (s.subs sub).filter).filter
            (· ∉ (s.subs sub).sentOpRefs) := by
      intro ref href
      by_cases hsent : ref ∈ (s.subs sub).sentOpRefs
      · exact Or.inl hsent
      · exact Or.inr (List.mem_filter.mpr ⟨href, by simpa using hsent⟩)
    rw [State.serve]
    split
    · rename_i hnone
      refine h.leave hloop hledger fun ref href _ => (hnew ref href).resolve_right ?_
      rw [hnone]
      exact List.not_mem_nil
    · refine h.goOn hloop (hledger.take ((source.nodup _ _).filter _) fun ref href => ?_)
        fun ref href _ => hnew ref href
      simpa using (List.mem_filter.mp href).2
  | refreshing exact refs =>
    exact h.goOn hloop hledger fun ref _ hmem => Or.inr (hmem.resolve_left (by simp))
  | pushing peerCaps refs =>
    rw [State.serve]
    split
    · rename_i hnone
      rw [hnone] at hloop hledger
      exact h.leave hloop hledger fun ref _ hmem => by
        obtain hmem | hmem := hmem <;> cases hmem
    · have hsplit : refs.take source.maxOpsPerBatch ++ refs.drop source.maxOpsPerBatch = refs :=
        List.take_append_drop _ _
      dsimp only
      split
      · refine h.goOn hloop (by rw [Doing.refs, hsplit]; exact hledger) fun ref _ hmem => ?_
        rw [Doing.refs, hsplit]
        exact Or.inr (hmem.resolve_left (by simp))
      · refine h.goOn hloop (by rw [Doing.refs, hsplit]; exact hledger) fun ref _ hmem => ?_
        rw [Doing.refs, hsplit]
        exact Or.inr (hmem.resolve_left (by simp))
  | filtering peerCaps asked chunk rest =>
    have hfiltered := hledger.filtered s.world asked
    rw [State.serve]
    split
    · rename_i hnone
      rw [hnone] at hfiltered
      exact h.count hloop (by simp) rfl rfl rfl hfiltered fun ref href => href
    · exact h.count hloop (by simp) rfl rfl rfl hfiltered
        fun ref href => List.mem_append_right _ href
  | sending peerCaps chunk rest =>
    exact h.count hloop (by simp) rfl rfl rfl hledger.push fun ref href => href

/-! ## The events -/

omit [DecidableEq Ref] in
/-- Covered as before, or a write or an `onSubscribe` is to tell: such an event keeps the rest. -/
theorem State.Kept.event (h : s.Kept source) (hsubs : s'.subs = s.subs)
    (hfresh : s'.fresh = s.fresh)
    (hentries : s'.responderSubscriptions = s.responderSubscriptions)
    (hpending : s'.pendingPushOps = s.pendingPushOps) (hloop : s'.loop = s.loop)
    (hcovered : ∀ entry ∈ s.responderSubscriptions,
      ∀ ref ∈ source.listOpRefs s'.world (s.subs entry.sub).filter, s'.Covered entry ref) :
    s'.Kept source where
  placed := by
    refine ⟨?_, ?_, ?_⟩
    · rw [hentries, hfresh]
      exact h.placed.entries
    · rw [hentries]
      exact h.placed.sorted
    · rw [hloop, hfresh]
      exact h.placed.served
  booked := by
    refine ⟨?_, ?_, ?_⟩
    · rw [hfresh, hsubs]
      simp only [State.inFlight, hloop]
      exact h.booked.ledger
    · rw [hpending]
      exact h.booked.pending
    · rw [hloop]
      exact h.booked.pass
  covered := by
    rw [hentries, hsubs]
    exact hcovered

theorem State.Kept.write (h : s.Kept source) {world : W} {ops : Option (List Ref)}
    (htells : source.Tells s.world world ops) :
    ({ s with world := world, owed := s.owed ++ [ops] } : State W T C Ref).Kept source := by
  refine h.event rfl rfl rfl rfl rfl fun entry hentry ref href => ?_
  by_cases hold : ref ∈ source.listOpRefs s.world (s.subs entry.sub).filter
  · exact (h.covered entry hentry ref hold).mono rfl rfl rfl rfl rfl
      (fun _ hops => List.mem_append_left _ hops) id
  · refine Or.inl (.owed ops (List.mem_append_right _ (List.mem_singleton_self _)) ?_)
    intro refs hrefs hall
    simp only at hall
    rw [hall] at href hold
    exact htells refs hrefs ref href hold

theorem State.Kept.told (h : s.Kept source) {write : ℕ} {ops : Option (List Ref)}
    (hops : s.owed[write]? = some ops) :
    (({ s with owed := s.owed.eraseIdx write } : State W T C Ref).notifyLocalUpdate source ops).Kept
      source := by
  refine .notifyLocalUpdate ⟨h.placed.entries, h.placed.sorted, h.placed.served⟩
    ⟨h.booked.ledger, h.booked.pending, h.booked.pass⟩ fun entry hentry ref href => ?_
  obtain (hcounted | hnoted | ⟨other, hother, has⟩ | hacking) | hcovers :=
    h.covered entry hentry ref href
  · exact Or.inl (Or.inl (.counted hcounted))
  · exact Or.inl (Or.inl (.noted hnoted))
  · obtain ⟨i, hi⟩ := List.mem_iff_getElem?.mp hother
    by_cases heq : i = write
    · rw [heq, hops] at hi
      obtain rfl := Option.some.inj hi
      exact Or.inr has
    · exact Or.inl (Or.inl
        (.owed other (List.mem_eraseIdx_iff_getElem?.mpr ⟨i, heq, hi⟩) has))
  · exact Or.inl (Or.inl (.acking hacking))
  · exact Or.inl (Or.inr hcovers)

omit [DecidableEq Ref] in
/-- A new object waits for its own `onSubscribe` to tell. -/
theorem State.Kept.register (h : s.Kept source) {handler : ℕ} {subscriptionId : String}
    {filter : V0.Filter} {transport : T} {opRefs : List Ref}
    (hhandler : s.handlers[handler]? = some (.reading subscriptionId filter transport opRefs)) :
    ({ s with
        subs := Function.update s.subs s.fresh
          { filter := filter, transport := transport, sentOpRefs := opRefs, snapshot := opRefs }
        fresh := s.fresh + 1
        responderSubscriptions :=
          setEntry s.responderSubscriptions ⟨s.fresh, subscriptionId, s.fresh⟩
        handlers := s.handlers.set handler (.acking s.fresh) } : State W T C Ref).Kept source := by
  obtain ⟨hlt, hget⟩ := List.getElem?_eq_some_iff.mp hhandler
  refine ⟨⟨?_, ?_, ?_⟩, ⟨?_, h.booked.pending, h.booked.pass⟩, ?_⟩
  · intro entry hentry
    simp only
    obtain hold | ⟨hsub, rfl | ⟨old, hold, hstamp⟩⟩ := mem_setEntry hentry
    · have hbound := h.placed.entries entry hold
      omega
    · simp
    · have hbound := h.placed.entries old hold
      simp only at hsub
      omega
  · exact setEntry_stamps h.placed.sorted fun entry hentry => (h.placed.entries entry hentry).1
  · intro pass stamp sub doing hloop
    exact Nat.lt_succ_of_lt (h.placed.served pass stamp sub doing hloop)
  · intro sub hsub
    simp only
    by_cases heq : sub = s.fresh
    · rw [heq, Function.update_self]
      have hnone : s.inFlight s.fresh = [] := by
        rw [State.inFlight]
        cases hloop : s.loop with
        | none => rfl
        | some loop =>
          cases loop with
          | serving pass stamp served doing =>
            exact if_neg (h.placed.served _ _ _ _ hloop).ne
          | starting => rfl
          | visiting => rfl
      rw [State.inFlight] at hnone ⊢
      rw [hnone]
      exact .new
    · rw [Function.update_of_ne heq]
      exact h.booked.ledger sub (by simp only at hsub; omega)
  · intro entry hentry ref href
    simp only at href
    obtain hold | ⟨hsub, -⟩ := mem_setEntry hentry
    · have hne := (h.placed.entries entry hold).2.ne
      rw [Function.update_of_ne hne] at href
      refine (h.covered entry hold ref href).mono (Function.update_of_ne hne _ _) rfl rfl rfl rfl
        (fun _ hops => hops) fun hacking => ?_
      obtain ⟨i, hi⟩ := List.mem_iff_getElem?.mp hacking
      refine List.mem_iff_getElem?.mpr ⟨i, ?_⟩
      have hi' : handler ≠ i := by
        rintro rfl
        cases hhandler.symm.trans hi
      rw [List.getElem?_set_ne hi']
      exact hi
    · refine Or.inl (.acking ?_)
      rw [hsub]
      exact List.mem_set hlt _

theorem State.Kept.step [DecidableEq T] (h : s.Kept source) {event : Event W T C Ref}
    (hstep : s.step source event = some s') : s'.Kept source := by
  cases event with
  | write world ops =>
    rw [State.step] at hstep
    split at hstep
    · cases hstep
      exact h.write ‹_›
    · cases hstep
  | hello transport capabilities =>
    cases hstep
    exact h.event rfl rfl rfl rfl rfl fun entry hentry ref href =>
      (h.covered entry hentry ref href).mono rfl rfl rfl rfl rfl (fun _ hops => hops) id
  | notifyLocalUpdate write =>
    obtain ⟨ops, hops, heq⟩ := Option.bind_eq_some_iff.mp hstep
    cases heq
    exact h.told hops
  | onSubscribe subscriptionId filter transport =>
    cases hstep
    exact h.event rfl rfl rfl rfl rfl fun entry hentry ref href =>
      (h.covered entry hentry ref href).mono rfl rfl rfl rfl rfl (fun _ hops => hops)
        (List.mem_append_left _)
  | register handler =>
    rw [State.step] at hstep
    split at hstep
    · cases hstep
      exact h.register ‹_›
    · cases hstep
  | acked handler =>
    rw [State.step] at hstep
    split at hstep
    · cases hstep
      exact .notifyLocalUpdate ⟨h.placed.entries, h.placed.sorted, h.placed.served⟩
        ⟨h.booked.ledger, h.booked.pending, h.booked.pass⟩
        fun _ _ _ _ => Or.inr fun _ hrefs => nomatch hrefs
    · cases hstep
  | onUnsubscribe subscriptionId =>
    cases hstep
    exact ⟨⟨fun entry hentry => h.placed.entries entry (List.mem_of_mem_filter hentry),
      h.placed.sorted.filter _, h.placed.served⟩,
      ⟨h.booked.ledger, h.booked.pending, h.booked.pass⟩,
      fun entry hentry ref href => (h.covered entry (List.mem_of_mem_filter hentry) ref href).mono
        rfl rfl rfl rfl rfl (fun _ hops => hops) id⟩
  | push =>
    rw [State.step] at hstep
    split at hstep
    · cases hstep
    · rename_i hloop
      cases hstep
      refine .beginPass h.placed (fun sub hsub => ?_) h.booked.pending
        fun entry hentry ref href => ?_
      · have hledger := h.booked.ledger sub hsub
        rwa [State.inFlight, hloop] at hledger
      · obtain hwaits | ⟨_, hsome, hcovers⟩ := h.covered entry hentry ref href
        · exact hwaits
        · obtain rfl := Option.some.inj (hloop.symm.trans hsome)
          cases hcovers
    · cases hstep
      exact h.next ‹_›
    · cases hstep
      exact h.serve ‹_›

theorem Reachable.kept [DecidableEq T] (h : Reachable source s) : s.Kept source := by
  induction h with
  | start world capabilities sub =>
    exact ⟨⟨fun _ hentry => (nomatch hentry), .nil, fun _ _ _ _ hloop => (nomatch hloop)⟩,
      ⟨fun _ hsub => (nomatch hsub), .nil, fun _ hloop => (nomatch hloop)⟩,
      fun _ hentry => (nomatch hentry)⟩
  | step before next ih => exact ih.step next

end Push

end Sync

end Treecrdt
