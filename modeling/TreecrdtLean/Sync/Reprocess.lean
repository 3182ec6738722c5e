import Mathlib.Logic.Function.Iterate
import TreecrdtLean.Lib.Unlock
import TreecrdtLean.Sync.Batches

/-!
# A pass over the pending operations

What `verifyOps` allows depends on what is applied: an operation that it leaves pending may be
allowed, or rejected, when more is applied, and what it allows or rejects it goes on to allow or
reject. Then a pass that nothing disturbs applies operations of the least fixed point only, deletes
what it applies and what is rejected, and reaches all of the fixed point unless a hundred rounds in
a row have something to do (`reprocessPendingOps_fixpoint`). A hundred operations, each
behind the one that it waits for, are a hundred such rounds (`chain_exceeds_rounds`).
-/

namespace Treecrdt

namespace Sync

open Auth

variable {Op OpAuth Ref AuthSt : Type} [DecidableEq Ref]

/-! ## The store -/

/-- The pending operations, in the order of the storage, one for an op ref. -/
@[ext] structure PendingTable (opRef : Op → Ref) (OpAuth : Type) where
  rows : List (PendingOp Op OpAuth)
  nodup : (rows.map fun p => opRef p.op).Nodup

namespace PendingTable

variable {opRef : Op → Ref}

def delete (t : PendingTable opRef OpAuth) (ops : List Op) : PendingTable opRef OpAuth where
  rows := t.rows.filter fun p => opRef p.op ∉ ops.map opRef
  nodup := t.nodup.sublist (List.filter_sublist.map _)

/-- `INSERT OR REPLACE`. -/
def insert (t : PendingTable opRef OpAuth) (p : PendingOp Op OpAuth) :
    PendingTable opRef OpAuth where
  rows := (t.delete [p.op]).rows ++ [p]
  nodup := by
    rw [List.map_append, List.map_singleton, List.nodup_append]
    refine ⟨(t.delete [p.op]).nodup, List.nodup_singleton _, ?_⟩
    rintro ref href _ hp rfl
    obtain ⟨q, hq, hqp⟩ := List.mem_map.mp href
    have hne := (List.mem_filter.mp hq).2
    simp [hqp, List.mem_singleton.mp hp] at hne

variable {t : PendingTable opRef OpAuth}

theorem delete_sublist (ops : List Op) : (t.delete ops).rows.Sublist t.rows := List.filter_sublist

theorem mem_delete_singleton {p q : PendingOp Op OpAuth} :
    q ∈ (t.delete [p.op]).rows ↔ q ∈ t.rows ∧ opRef q.op ≠ opRef p.op := by
  rw [delete, List.mem_filter, decide_eq_true_eq, List.map_singleton, List.mem_singleton]

omit [DecidableEq Ref] in
theorem eq_of_opRef_eq {p q : PendingOp Op OpAuth} (hp : p ∈ t.rows) (hq : q ∈ t.rows)
    (h : opRef q.op = opRef p.op) : q = p :=
  List.inj_on_of_nodup_map t.nodup hq hp h

end PendingTable

@[ext] structure Store (hooks : Hooks Op OpAuth Ref AuthSt (List Op)) where
  auth : AuthSt
  applied : List Op
  pending : PendingTable hooks.opRef OpAuth

namespace Store

variable (hooks : Hooks Op OpAuth Ref AuthSt (List Op))

def verifyOps (ops : List Op) (auth : Option (List OpAuth)) (_ : SyncOpContext) :
    Exec String (Store hooks) (Option (List Disposition)) :=
  Exec.getsE fun s => hooks.verifyOps s.auth s.applied ops auth

def listPendingOps : Exec String (Store hooks) (List (PendingOp Op OpAuth)) :=
  Exec.gets fun s => s.pending.rows

def deletePendingOps (ops : List Op) : Exec String (Store hooks) Unit :=
  Exec.modify fun s => { s with pending := s.pending.delete ops }

def applyOps (ops : List Op) : Exec String (Store hooks) Unit :=
  Exec.modify fun s => { s with applied := hooks.applyOps s.applied ops }

/-- The callbacks of a peer that stores its operations. -/
def callbacks : Callbacks (Store hooks) Op OpAuth where
  verifyOps := some (verifyOps hooks)
  onVerifiedOps := some fun ops entries _ => do
    let auth ← Exec.getsE fun s => hooks.onVerifiedOps s.auth ops entries
    Exec.modify fun s => { s with auth }
  storePendingOps := some fun pending =>
    Exec.modify fun s => { s with pending := pending.foldl .insert s.pending }
  listPendingOps := some (listPendingOps hooks)
  deletePendingOps := some (deletePendingOps hooks)
  applyOps := applyOps hooks

end Store

/-! ## The fixed point -/

/-- Applied operations stay, and what `verifyOps` makes of an operation is final unless it is
pending. -/
structure Hooks.Unlocks (hooks : Hooks Op OpAuth Ref AuthSt (List Op)) : Prop where
  mem_applyOps : ∀ applied ops x, x ∈ hooks.applyOps applied ops ↔ x ∈ applied ∨ x ∈ ops
  retry_eq : ∀ auth {applied more : List Op} p, applied ⊆ more →
    retry hooks auth applied p ≠ .keep → retry hooks auth more p = retry hooks auth applied p

/-- The operation is allowed with some of what is applied. -/
def Allows (hooks : Hooks Op OpAuth Ref AuthSt (List Op)) (auth : AuthSt) (applied : Set Op)
    (p : PendingOp Op OpAuth) : Prop :=
  ∃ some : List Op, (∀ x ∈ some, x ∈ applied) ∧ retry hooks auth some p = .apply

omit [DecidableEq Ref] in
theorem Allows.mono (hooks : Hooks Op OpAuth Ref AuthSt (List Op)) (auth : AuthSt)
    (p : PendingOp Op OpAuth) : Monotone fun applied => Allows hooks auth applied p := by
  rintro A B hle ⟨some, hmem, hretry⟩
  exact ⟨some, fun x hx => hle (hmem x hx), hretry⟩

namespace Store

variable {hooks : Hooks Op OpAuth Ref AuthSt (List Op)}

/-- What can be applied: the least fixed point of applying all that is allowed. -/
def fixpoint (s : Store hooks) : Set Op :=
  (unlocking (Allows hooks s.auth) (Allows.mono hooks s.auth) PendingOp.op {x | x ∈ s.applied}
    {p | p ∈ s.pending.rows}).lfp

/-- A part of the fixed point was applied, and what was deleted was applied or is rejected. -/
structure Partial (s₀ s : Store hooks) : Prop where
  auth : s.auth = s₀.auth
  grows : s₀.applied ⊆ s.applied
  sound : ∀ x ∈ s.applied, x ∈ s₀.fixpoint
  rows : s.pending.rows.Sublist s₀.pending.rows
  decided : ∀ p ∈ s₀.pending.rows, p ∈ s.pending.rows ∨
    retry hooks s₀.auth s.applied p = .drop ∨
      (retry hooks s₀.auth s.applied p = .apply ∧ p.op ∈ s.applied)

/-- All of the fixed point was applied, and what stays is pending still. -/
structure Complete (s₀ s : Store hooks) : Prop where
  applied : ∀ x, x ∈ s.applied ↔ x ∈ s₀.fixpoint
  rows : ∀ p, p ∈ s.pending.rows ↔
    p ∈ s₀.pending.rows ∧ retry hooks s₀.auth s.applied p = .keep

/-! ## A round -/

/-- What a round makes of one operation. -/
def visit (s : Store hooks) (p : PendingOp Op OpAuth) : Store hooks :=
  match retry hooks s.auth s.applied p with
  | .drop => { s with pending := s.pending.delete [p.op] }
  | .keep => s
  | .apply =>
    { s with applied := hooks.applyOps s.applied [p.op], pending := s.pending.delete [p.op] }

def round (s : Store hooks) : Store hooks := s.pending.rows.foldl visit s

/-- Nothing of the list can be decided. -/
def Quiet (s : Store hooks) (ps : List (PendingOp Op OpAuth)) : Prop :=
  ∀ p ∈ ps, retry hooks s.auth s.applied p = .keep

variable {s s₀ : Store hooks} {p : PendingOp Op OpAuth} {ps : List (PendingOp Op OpAuth)}

theorem visit_keep (h : retry hooks s.auth s.applied p = .keep) : s.visit p = s := by
  rw [visit, h]

theorem visit_rows (h : retry hooks s.auth s.applied p ≠ .keep) :
    (s.visit p).pending = s.pending.delete [p.op] := by
  rw [visit]
  split
  · rfl
  · exact absurd ‹_› h
  · rfl

theorem visit_sublist (s : Store hooks) (p : PendingOp Op OpAuth) :
    (s.visit p).pending.rows.Sublist s.pending.rows := by
  by_cases h : retry hooks s.auth s.applied p = .keep
  · rw [visit_keep h]
  · rw [visit_rows h]
    exact PendingTable.delete_sublist _

theorem foldl_visit_sublist (ps : List (PendingOp Op OpAuth)) (s : Store hooks) :
    (ps.foldl visit s).pending.rows.Sublist s.pending.rows := by
  induction ps generalizing s with
  | nil => exact .refl _
  | cons p ps ih => exact (ih (s.visit p)).trans (visit_sublist s p)

theorem foldl_visit_quiet (h : s.Quiet ps) : ps.foldl visit s = s := by
  induction ps with
  | nil => rfl
  | cons p ps ih =>
    obtain ⟨hp, hps⟩ := List.forall_mem_cons.mp h
    rw [List.foldl_cons, visit_keep hp, ih hps]

/-- A round that decides something leaves fewer rows. -/
theorem length_foldl_visit_lt (h : ¬ s.Quiet ps) (hps : ps ⊆ s.pending.rows) :
    (ps.foldl visit s).pending.rows.length < s.pending.rows.length := by
  induction ps with
  | nil => exact absurd (fun _ hp => nomatch hp) h
  | cons p ps ih =>
    obtain ⟨hp, hps⟩ := List.cons_subset.mp hps
    rw [List.foldl_cons]
    by_cases hkeep : retry hooks s.auth s.applied p = .keep
    · rw [visit_keep hkeep]
      refine ih (fun hquiet => h ?_) hps
      exact List.forall_mem_cons.mpr ⟨hkeep, hquiet⟩
    · refine (foldl_visit_sublist ps _).length_le.trans_lt ?_
      rw [visit_rows hkeep]
      refine List.length_filter_lt_length_iff_exists.mpr ⟨p, hp, ?_⟩
      simp

theorem round_eq_iff : s.round = s ↔ s.Quiet s.pending.rows := by
  refine ⟨fun h => ?_, foldl_visit_quiet⟩
  by_contra hquiet
  have hlt := length_foldl_visit_lt hquiet (List.Subset.refl _)
  rw [← round, h] at hlt
  exact lt_irrefl _ hlt

/-! ## What a round keeps -/

omit [DecidableEq Ref] in
theorem Partial.refl (s : Store hooks) : Partial s s where
  auth := rfl
  grows := List.Subset.refl _
  sound _ hx := base_subset_lfp_unlocking hx
  rows := .refl _
  decided _ hp := Or.inl hp

/-- An operation that is decided is deleted. -/
theorem Partial.delete {s' : Store hooks} (hunlocks : hooks.Unlocks) (h : Partial s₀ s)
    (hp : p ∈ s₀.pending.rows) (hauth : s'.auth = s.auth) (hgrows : s.applied ⊆ s'.applied)
    (hsound : ∀ x ∈ s'.applied, x ∈ s₀.fixpoint)
    (hrows : s'.pending = s.pending.delete [p.op])
    (hdecided : retry hooks s₀.auth s'.applied p = .drop ∨
      (retry hooks s₀.auth s'.applied p = .apply ∧ p.op ∈ s'.applied)) : Partial s₀ s' where
  auth := hauth.trans h.auth
  grows := List.Subset.trans h.grows hgrows
  sound := hsound
  rows := by
    rw [hrows]
    exact (PendingTable.delete_sublist _).trans h.rows
  decided q hq := by
    obtain hmem | hdrop | ⟨happly, hop⟩ := h.decided q hq
    · by_cases href : hooks.opRef q.op = hooks.opRef p.op
      · rw [PendingTable.eq_of_opRef_eq hp hq href]
        exact Or.inr hdecided
      · rw [hrows]
        exact Or.inl (PendingTable.mem_delete_singleton.mpr ⟨hmem, href⟩)
    · have hsame := hunlocks.retry_eq s₀.auth q hgrows (by simp [hdrop])
      exact Or.inr (Or.inl (hsame.trans hdrop))
    · have hsame := hunlocks.retry_eq s₀.auth q hgrows (by simp [happly])
      exact Or.inr (Or.inr ⟨hsame.trans happly, hgrows hop⟩)

theorem Partial.visit (hunlocks : hooks.Unlocks) (h : Partial s₀ s) (hp : p ∈ s₀.pending.rows) :
    Partial s₀ (s.visit p) := by
  rw [Store.visit]
  split
  · rename_i hdrop
    rw [h.auth] at hdrop
    exact h.delete hunlocks hp rfl (List.Subset.refl _) h.sound rfl (Or.inl hdrop)
  · exact h
  · rename_i happly
    rw [h.auth] at happly
    have hmem : ∀ x, x ∈ hooks.applyOps s.applied [p.op] ↔ x ∈ s.applied ∨ x = p.op := fun x => by
      rw [hunlocks.mem_applyOps, List.mem_singleton]
    have hgrows : s.applied ⊆ hooks.applyOps s.applied [p.op] := fun x hx =>
      (hmem x).mpr (Or.inl hx)
    refine h.delete hunlocks hp rfl hgrows (fun x hx => ?_) rfl (Or.inr ⟨?_, ?_⟩)
    · obtain hx | rfl := (hmem x).mp hx
      · exact h.sound x hx
      · exact mem_lfp_unlocking (A := {x | x ∈ s.applied}) hp h.sound
          ⟨s.applied, fun _ hx => hx, happly⟩
    · exact (hunlocks.retry_eq s₀.auth p hgrows (by simp [happly])).trans happly
    · exact (hmem _).mpr (Or.inr rfl)

theorem Partial.foldl_visit (hunlocks : hooks.Unlocks) (h : Partial s₀ s)
    (hps : ps ⊆ s₀.pending.rows) : Partial s₀ (ps.foldl Store.visit s) := by
  induction ps generalizing s with
  | nil => exact h
  | cons p ps ih =>
    obtain ⟨hp, hps⟩ := List.cons_subset.mp hps
    exact ih (h.visit hunlocks hp) hps

theorem Partial.rounds (hunlocks : hooks.Unlocks) (s : Store hooks) (n : ℕ) :
    Partial s (Store.round^[n] s) := by
  induction n with
  | zero => exact .refl s
  | succ n ih =>
    rw [Function.iterate_succ_apply']
    exact ih.foldl_visit hunlocks ih.rows.subset

omit [DecidableEq Ref] in
/-- Where nothing can be decided, all of the fixed point is applied. -/
theorem Partial.complete (hunlocks : hooks.Unlocks) (h : Partial s₀ s)
    (hquiet : s.Quiet s.pending.rows) : Complete s₀ s := by
  have hkeep : ∀ p ∈ s.pending.rows, retry hooks s₀.auth s.applied p = .keep := fun p hp =>
    h.auth ▸ hquiet p hp
  have hset : {x | x ∈ s.applied} = s₀.fixpoint := by
    refine eq_lfp_unlocking h.grows h.sound ?_
    rintro p hp ⟨some, hmem, hallows⟩
    have happly : retry hooks s₀.auth s.applied p = .apply :=
      (hunlocks.retry_eq s₀.auth p hmem (by simp [hallows])).trans hallows
    obtain hrow | hdrop | ⟨-, hop⟩ := h.decided p hp
    · cases (hkeep p hrow).symm.trans happly
    · cases hdrop.symm.trans happly
    · exact hop
  refine ⟨fun x => Set.ext_iff.mp hset x, fun p => ⟨fun hp => ⟨h.rows.subset hp, hkeep p hp⟩, ?_⟩⟩
  rintro ⟨hp, hpending⟩
  obtain hrow | hdrop | ⟨happly, -⟩ := h.decided p hp
  · exact hrow
  · cases hdrop.symm.trans hpending
  · cases happly.symm.trans hpending

/-! ## The pass -/

/-- The callbacks of a round do what `visit` says; there is progress unless nothing is decided. -/
theorem reprocessRound_run (ps : List (PendingOp Op OpAuth)) (s : Store hooks) (progress : Bool) :
    ∃ progress', reprocessRound (verifyOps hooks) (deletePendingOps hooks) (applyOps hooks) ps
        progress s = some (.ok progress', ps.foldl visit s) ∧
      (progress' = false ↔ progress = false ∧ s.Quiet ps) := by
  induction ps generalizing s progress with
  | nil => exact ⟨progress, rfl, by simp [Quiet]⟩
  | cons p ps ih =>
    rw [reprocessRound, List.foldl_cons]
    cases hverify : hooks.verifyOps s.auth s.applied [p.op] (some [p.auth]) with
    | error e =>
      have hdrop : retry hooks s.auth s.applied p = .drop := by rw [retry, hverify]
      obtain ⟨progress', hrun, hiff⟩ := ih (s.visit p) true
      refine ⟨progress', ?_, ?_⟩
      · rw [← hrun, visit, hdrop]
        simp [Exec.bind_run, Exec.orElse, verifyOps, deletePendingOps, hverify]
      · rw [hiff]
        simp [Quiet, hdrop]
    | ok dispositions =>
      by_cases hpending : dispositions.bind List.head? = some .pendingContext
      · have hkeep : retry hooks s.auth s.applied p = .keep := by
          rw [retry, hverify]
          exact if_pos hpending
        obtain ⟨progress', hrun, hiff⟩ := ih s progress
        refine ⟨progress', ?_, ?_⟩
        · rw [visit_keep hkeep, ← hrun]
          simp [Exec.bind_run, Exec.orElse, verifyOps, hverify, hpending]
        · rw [hiff]
          simp [Quiet, hkeep]
      · have happly : retry hooks s.auth s.applied p = .apply := by
          rw [retry, hverify]
          exact if_neg hpending
        obtain ⟨progress', hrun, hiff⟩ := ih (s.visit p) true
        refine ⟨progress', ?_, ?_⟩
        · rw [← hrun, visit, happly]
          simp [Exec.bind_run, Exec.orElse, verifyOps, deletePendingOps, applyOps, hverify,
            hpending]
        · rw [hiff]
          simp [Quiet, happly]

theorem reprocessRounds_quiet {n : ℕ} {s : Store hooks} (h : s.Quiet s.pending.rows) :
    reprocessRounds (verifyOps hooks) (listPendingOps hooks) (deletePendingOps hooks)
      (applyOps hooks) (n + 1) s = some (.ok (), s) := by
  obtain ⟨progress, hrun, hiff⟩ := reprocessRound_run s.pending.rows s false
  obtain rfl : progress = false := hiff.mpr ⟨rfl, h⟩
  rw [foldl_visit_quiet h] at hrun
  rw [reprocessRounds, Exec.bind_run, listPendingOps, Exec.gets_run]
  by_cases hempty : s.pending.rows.length = 0 <;> simp [hempty, Exec.bind_run, hrun]

theorem reprocessRounds_progress {n : ℕ} {s : Store hooks} (h : ¬ s.Quiet s.pending.rows) :
    reprocessRounds (verifyOps hooks) (listPendingOps hooks) (deletePendingOps hooks)
      (applyOps hooks) (n + 1) s =
        reprocessRounds (verifyOps hooks) (listPendingOps hooks) (deletePendingOps hooks)
          (applyOps hooks) n s.round := by
  obtain ⟨progress, hrun, hiff⟩ := reprocessRound_run s.pending.rows s false
  have hprogress : progress = true :=
    Bool.eq_true_of_not_eq_false fun hfalse => h (hiff.mp hfalse).2
  have hsome : s.pending.rows.length ≠ 0 := by
    intro hempty
    rw [List.length_eq_zero_iff.mp hempty] at h
    exact h fun _ hp => nomatch hp
  rw [reprocessRounds, Exec.bind_run, listPendingOps, Exec.gets_run]
  simp [hsome, Exec.bind_run, hrun, hprogress, round]

/-- The first round that has nothing to decide ends the pass. -/
theorem reprocessRounds_ok {n k : ℕ} {s : Store hooks} (hk : k < n)
    (hbefore : ∀ i < k, ¬ (round^[i] s).Quiet (round^[i] s).pending.rows)
    (hquiet : (round^[k] s).Quiet (round^[k] s).pending.rows) :
    reprocessRounds (verifyOps hooks) (listPendingOps hooks) (deletePendingOps hooks)
      (applyOps hooks) n s = some (.ok (), round^[k] s) := by
  induction k generalizing n s with
  | zero =>
    obtain ⟨n, rfl⟩ := Nat.exists_eq_succ_of_ne_zero hk.ne'
    exact reprocessRounds_quiet hquiet
  | succ k ih =>
    obtain ⟨n, rfl⟩ := Nat.exists_eq_succ_of_ne_zero (Nat.ne_zero_of_lt hk)
    have hfirst : ¬ s.Quiet s.pending.rows := hbefore 0 k.succ_pos
    exact (reprocessRounds_progress hfirst).trans (ih (Nat.lt_of_succ_lt_succ hk)
      (fun i hi => hbefore (i + 1) (Nat.succ_lt_succ hi)) hquiet)

/-- Where every round decides something, the pass throws behind the last one. -/
theorem reprocessRounds_error {n : ℕ} {s : Store hooks}
    (h : ∀ k < n, ¬ (round^[k] s).Quiet (round^[k] s).pending.rows) :
    reprocessRounds (verifyOps hooks) (listPendingOps hooks) (deletePendingOps hooks)
      (applyOps hooks) n s =
        some (.error "pending-op reprocessing exceeded max rounds", round^[n] s) := by
  induction n generalizing s with
  | zero => rfl
  | succ n ih =>
    have hfirst : ¬ s.Quiet s.pending.rows := h 0 n.succ_pos
    exact (reprocessRounds_progress hfirst).trans (ih fun k hk => h (k + 1) (Nat.succ_lt_succ hk))

/-- Every round that decides something takes a row. -/
theorem length_rounds {n : ℕ} {s : Store hooks}
    (h : ∀ k < n, ¬ (round^[k] s).Quiet (round^[k] s).pending.rows) :
    (round^[n] s).pending.rows.length + n ≤ s.pending.rows.length := by
  induction n generalizing s with
  | zero => exact le_rfl
  | succ n ih =>
    have hrest := ih (s := s.round) fun k hk => h (k + 1) (Nat.succ_lt_succ hk)
    have hfirst := length_foldl_visit_lt (h 0 n.succ_pos) (List.Subset.refl _)
    change s.round.pending.rows.length < s.pending.rows.length at hfirst
    rw [Function.iterate_succ_apply]
    omega

end Store

/-- A pass that nothing disturbs applies operations of the least fixed point, deletes what it
applies and what is rejected, and ends without an error, having reached all of the fixed point, if
and only if one of its rounds has nothing to decide; so it does with less pending operations than
rounds. -/
theorem reprocessPendingOps_fixpoint (hooks : Hooks Op OpAuth Ref AuthSt (List Op))
    (hunlocks : hooks.Unlocks) (s : Store hooks) :
    ∃ r t, reprocessPendingOps (Store.callbacks hooks) s = some (r, t) ∧ Store.Partial s t ∧
      (r = .ok () → Store.Complete s t) ∧
      (r = .ok () ↔ ∃ k < maxRounds, Store.round (Store.round^[k] s) = Store.round^[k] s) ∧
      (s.pending.rows.length < maxRounds → r = .ok ()) ∧
      ∀ message, r = .error message → message = "pending-op reprocessing exceeded max rounds" := by
  by_cases hends : ∃ k < maxRounds, (Store.round^[k] s).Quiet (Store.round^[k] s).pending.rows
  · classical
    have hfind := Nat.find_spec hends
    have hrun := Store.reprocessRounds_ok hfind.1
      (fun i hi hquiet => Nat.find_min hends hi ⟨hi.trans hfind.1, hquiet⟩) hfind.2
    have hpartial := Store.Partial.rounds hunlocks s (Nat.find hends)
    exact ⟨_, _, hrun, hpartial, fun _ => hpartial.complete hunlocks hfind.2,
      iff_of_true rfl ⟨_, hfind.1, Store.round_eq_iff.mpr hfind.2⟩, fun _ => rfl, nofun⟩
  · have hnever : ∀ k < maxRounds, ¬ (Store.round^[k] s).Quiet (Store.round^[k] s).pending.rows :=
      fun k hk hquiet => hends ⟨k, hk, hquiet⟩
    have hrun := Store.reprocessRounds_error hnever
    have hlength := Store.length_rounds hnever
    refine ⟨_, _, hrun, .rounds hunlocks s _, nofun, iff_of_false nofun ?_, fun hlt => by omega,
      fun _ h => (Except.error.inj h).symm⟩
    rintro ⟨k, hk, hround⟩
    exact hnever k hk (Store.round_eq_iff.mp hround)

/-! Operations that each wait for the one before. -/

def chainHooks : Hooks ℕ Unit ℕ Unit (List ℕ) where
  verifyOps _ applied ops _ :=
    .ok (some (ops.map fun op => if op = 0 ∨ op - 1 ∈ applied then .allow else .pendingContext))
  onVerifiedOps auth _ _ := .ok auth
  applyOps applied ops := applied ++ ops
  opRef := id

theorem retry_chainHooks (auth : Unit) (applied : List ℕ) (p : PendingOp ℕ Unit) :
    retry chainHooks auth applied p = if p.op = 0 ∨ p.op - 1 ∈ applied then .apply else .keep := by
  by_cases h : p.op = 0 ∨ p.op - 1 ∈ applied <;> simp [retry, chainHooks, h]

theorem chainHooks_unlocks : chainHooks.Unlocks where
  mem_applyOps _ _ _ := List.mem_append
  retry_eq auth applied more p hle hkeep := by
    rw [retry_chainHooks] at hkeep
    have hallowed : p.op = 0 ∨ p.op - 1 ∈ applied := by
      by_contra hnot
      exact hkeep (if_neg hnot)
    rw [retry_chainHooks, retry_chainHooks, if_pos hallowed, if_pos (hallowed.imp_right (@hle _))]

/-- A chain in its worst order, of which the first `k` are applied and `m` are pending. -/
def chain (k m : ℕ) : Store chainHooks where
  auth := ()
  applied := List.range k
  pending := {
    rows := (List.range' k m).reverse.map fun op => ⟨op, ()⟩
    nodup := by
      rw [List.map_map]
      exact (List.nodup_reverse.mpr List.nodup_range').map fun _ _ h => h }

/-- A round applies the last row alone. -/
theorem round_chain (k m : ℕ) : (chain k (m + 1)).round = chain (k + 1) m := by
  have hrows : (chain k (m + 1)).pending.rows = (chain (k + 1) m).pending.rows ++ [⟨k, ()⟩] := by
    simp [chain, List.range'_succ]
  have hquiet : (chain k (m + 1)).Quiet (chain (k + 1) m).pending.rows := by
    intro p hp
    obtain ⟨op, hop, rfl⟩ := List.mem_map.mp hp
    obtain ⟨hge, -⟩ := List.mem_range'_1.mp (List.mem_reverse.mp hop)
    rw [retry_chainHooks, if_neg]
    simp only [chain, List.mem_range, not_or]
    omega
  have happly : retry chainHooks (chain k (m + 1)).auth (chain k (m + 1)).applied ⟨k, ()⟩ =
      .apply := by
    rw [retry_chainHooks, if_pos]
    simp only [chain, List.mem_range]
    omega
  have hdelete : ((chain k (m + 1)).pending.delete [k]).rows = (chain (k + 1) m).pending.rows := by
    change (chain k (m + 1)).pending.rows.filter _ = _
    rw [hrows, List.filter_append, List.filter_cons_of_neg (by simp), List.filter_nil,
      List.append_nil, List.filter_eq_self]
    intro p hp
    obtain ⟨op, hop, rfl⟩ := List.mem_map.mp hp
    obtain ⟨hge, -⟩ := List.mem_range'_1.mp (List.mem_reverse.mp hop)
    simp only [chainHooks, List.map_singleton, List.mem_singleton, decide_eq_true_eq, id]
    omega
  rw [Store.round, hrows, List.foldl_append, Store.foldl_visit_quiet hquiet, List.foldl_cons,
    List.foldl_nil, Store.visit, happly]
  exact Store.ext rfl List.range_succ.symm (PendingTable.ext hdelete)

theorem rounds_chain (k j m : ℕ) : Store.round^[k] (chain j (k + m)) = chain (j + k) m := by
  induction k generalizing j with
  | zero => rw [Nat.zero_add]; rfl
  | succ k ih =>
    rw [Function.iterate_succ_apply, Nat.add_right_comm, round_chain, ih, Nat.add_right_comm,
      Nat.add_assoc]

/-- Three operations that come in the worst order are all applied. -/
theorem reprocessPendingOps_fixpoint_chain : ∃ t,
    reprocessPendingOps (Store.callbacks chainHooks) (chain 0 3) = some (.ok (), t) ∧
      Store.Complete (chain 0 3) t := by
  obtain ⟨r, t, hrun, -, hcomplete, -, hok, -⟩ :=
    reprocessPendingOps_fixpoint chainHooks chainHooks_unlocks (chain 0 3)
  obtain rfl := hok (by decide)
  exact ⟨t, hrun, hcomplete rfl⟩

/-- A hundred operations in the worst order are too many. -/
theorem chain_exceeds_rounds : ¬ ∀ s : Store chainHooks, ∃ t,
    reprocessPendingOps (Store.callbacks chainHooks) s = some (.ok (), t) ∧ Store.Complete s t := by
  intro h
  obtain ⟨t, hrun, -⟩ := h (chain 0 maxRounds)
  have hnever : ∀ k < maxRounds, ¬ (Store.round^[k] (chain 0 maxRounds)).Quiet
      (Store.round^[k] (chain 0 maxRounds)).pending.rows := fun k hk hq => by
    obtain ⟨m, hm⟩ := Nat.exists_eq_add_of_lt hk
    have hat : Store.round^[k] (chain 0 maxRounds) = chain k (m + 1) := by
      rw [hm, Nat.add_assoc, rounds_chain, Nat.zero_add]
    rw [hat, ← Store.round_eq_iff, round_chain] at hq
    have hlength := congrArg (fun s => s.pending.rows.length) hq
    simp [chain] at hlength
  cases hrun.symm.trans (Store.reprocessRounds_error hnever)

end Sync

end Treecrdt
