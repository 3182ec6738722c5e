import Mathlib.Data.List.Basic
import Mathlib.Tactic.Common

/-!
# Chains of promises

A queue of jobs as a chain of promises: each link reacts when the one before it has settled, and
runs its job. A chain of `then(job)` skips its jobs after a rejection, one of `then(job, job)` goes
on.

* `Chain.Sound`: each link has reacted to the one before it, and the log has what was done.
* `Chain.Sound.waiting`: behind a link that is not settled all links wait, so one job runs at a time
  (`Chain.Sound.one_running`).
* `Chain.Sound.log_of_ran`: a chain whose jobs have all settled has done them in order.
* `Chain.Sound.skipped`, `Chain.Sound.not_skipped`: what comes behind a rejection.
-/

namespace Treecrdt

namespace PromiseChain

variable {α ε : Type}

inductive LinkState (ε : Type) where
  | waiting
  /-- The job is pending. -/
  | running
  | fulfilled
  /-- The job has rejected. -/
  | rejected (e : ε)
  /-- The promise has rejected without its job. -/
  | skipped (e : ε)

structure Link (α ε : Type) where
  job : α
  state : LinkState ε

/-- What is done with the job at a place. -/
inductive Mark where
  | started (i : ℕ)
  | ended (i : ℕ)
  deriving DecidableEq

structure Chain (α ε : Type) where
  links : List (Link α ε) := []
  log : List Mark := []

def LinkState.IsSettled : LinkState ε → Prop
  | .waiting | .running => False
  | .fulfilled | .rejected _ | .skipped _ => True

instance (state : LinkState ε) : Decidable state.IsSettled :=
  match state with
  | .waiting | .running => isFalse id
  | .fulfilled | .rejected _ | .skipped _ => isTrue trivial

/-- The reaction to a promise. -/
def LinkState.react (skips : Bool) : LinkState ε → Option (LinkState ε)
  | .waiting | .running => none
  | .fulfilled => some .running
  | .rejected e | .skipped e => some (if skips then .skipped e else .running)

def LinkState.ofResult : Except ε Unit → LinkState ε
  | .ok () => .fulfilled
  | .error e => .rejected e

/-- What the log has of a link. -/
def LinkState.marks (i : ℕ) : LinkState ε → List Mark
  | .waiting | .skipped _ => []
  | .running => [.started i]
  | .fulfilled | .rejected _ => [.started i, .ended i]

namespace Chain

def add (job : α) (c : Chain α ε) : Chain α ε :=
  { c with links := c.links ++ [{ job, state := .waiting }] }

/-- The promise before a link. -/
def before (c : Chain α ε) : ℕ → LinkState ε
  | 0 => .fulfilled
  | i + 1 => c.links[i]?.elim .waiting Link.state

/-- A link reacts to the promise before it. -/
def goOn (skips : Bool) (i : ℕ) (c : Chain α ε) : Option (Chain α ε) :=
  match c.links[i]? with
  | some { job, state := .waiting } =>
    ((c.before i).react skips).map fun state =>
      { links := c.links.set i { job, state }, log := c.log ++ state.marks i }
  | _ => none

/-- The job of a link settles. -/
def settle (i : ℕ) (result : Except ε Unit) (c : Chain α ε) : Option (Chain α ε) :=
  match c.links[i]? with
  | some { job, state := .running } =>
    some {
      links := c.links.set i { job, state := .ofResult result }
      log := c.log ++ [.ended i] }
  | _ => none

/-- What a link can be behind a promise. -/
def Follows (skips : Bool) (before after : LinkState ε) : Prop :=
  match after with
  | .waiting => True
  | .running | .fulfilled | .rejected _ => before.react skips = some .running
  | .skipped e => before.react skips = some (.skipped e)

/-- Each link has reacted to the one before it, and the log has what was done. -/
structure Sound (skips : Bool) (c : Chain α ε) : Prop where
  follows : ∀ i link, c.links[i]? = some link → Follows skips (c.before i) link.state
  log_eq : c.log = c.links.zipIdx.flatMap fun p => p.1.state.marks p.2

variable {skips : Bool} {c c' : Chain α ε} {i j : ℕ} {link link' : Link α ε} {job : α}

theorem Sound.empty : Sound skips ({} : Chain α ε) := ⟨by simp, rfl⟩

theorem Follows.waiting_of_react {before after : LinkState ε} (h : Follows skips before after)
    (hreact : before.react skips = none) : after = .waiting := by
  cases after with
  | waiting => rfl
  | running | fulfilled | rejected e | skipped e => cases hreact.symm.trans h

theorem Follows.skipped_of_react {before after : LinkState ε} {e : ε}
    (h : Follows skips before after) (hreact : before.react skips = some (.skipped e)) :
    after = .waiting ∨ after = .skipped e := by
  cases after with
  | waiting => exact .inl rfl
  | running | fulfilled | rejected e' => cases hreact.symm.trans h
  | skipped e' =>
    cases hreact.symm.trans h
    exact .inr rfl

theorem of_react_eq_skipped {state : LinkState ε} {e : ε}
    (h : state.react skips = some (.skipped e)) : state = .rejected e ∨ state = .skipped e := by
  cases state with
  | waiting | running | fulfilled => cases h
  | rejected e' =>
    cases skips <;> cases h
    exact .inl rfl
  | skipped e' =>
    cases skips <;> cases h
    exact .inr rfl

theorem react_of_unsettled {state : LinkState ε} (h : ¬ state.IsSettled) :
    state.react skips = none := by
  cases state with
  | waiting | running => rfl
  | fulfilled | rejected e | skipped e => exact absurd trivial h

/-- Behind a link that is not settled all links wait. -/
theorem Sound.waiting (h : c.Sound skips) (hi : c.links[i]? = some link)
    (hlink : ¬ link.state.IsSettled) (hij : i < j) (hj : c.links[j]? = some link') :
    link'.state = .waiting := by
  induction j generalizing link' with
  | zero => cases hij
  | succ j ih =>
    refine (h.follows (j + 1) link' hj).waiting_of_react (react_of_unsettled ?_)
    rcases Nat.lt_succ_iff_lt_or_eq.mp hij with hlt | rfl
    · obtain ⟨between, hbetween⟩ : ∃ between, c.links[j]? = some between :=
        ⟨_, List.getElem?_eq_getElem (Nat.lt_of_succ_lt (List.getElem?_eq_some_iff.mp hj).1)⟩
      rw [before, hbetween, Option.elim_some, ih hlt hbetween]
      exact id
    · rwa [before, hi, Option.elim_some]

/-- One job runs at a time. -/
theorem Sound.one_running (h : c.Sound skips) (hi : c.links[i]? = some link)
    (hj : c.links[j]? = some link') (hrunning : link.state = .running)
    (hrunning' : link'.state = .running) : i = j := by
  have hlt : ∀ {i j : ℕ} {link link' : Link α ε}, c.links[i]? = some link →
      c.links[j]? = some link' → link.state = .running → link'.state = .running → ¬ i < j := by
    intro i j link link' hi hj hrunning hrunning' hlt
    cases hrunning'.symm.trans (h.waiting hi (by rw [hrunning]; exact id) hlt hj)
  exact Nat.le_antisymm (Nat.le_of_not_lt (hlt hj hi hrunning' hrunning))
    (Nat.le_of_not_lt (hlt hi hj hrunning hrunning'))

theorem marks_eq_nil {l : List (Link α ε)} {n : ℕ} (h : ∀ link ∈ l, link.state = .waiting) :
    ((l.zipIdx n).flatMap fun p => p.1.state.marks p.2) = [] := by
  rw [List.flatMap_eq_nil_iff]
  rintro ⟨link, i⟩ hmem
  rw [h link (List.fst_mem_of_mem_zipIdx hmem)]
  rfl

/-- A link changes that all behind it wait for. -/
theorem Sound.set (h : c.Sound skips) {state : LinkState ε} {marks : List Mark}
    (hi : c.links[i]? = some link) (hlink : ¬ link.state.IsSettled)
    (hfollows : Follows skips (c.before i) state)
    (hmarks : link.state.marks i ++ marks = state.marks i) :
    Sound skips {
      links := c.links.set i { job := link.job, state }
      log := c.log ++ marks } where
  follows j link' hj := by
    have hbefore : j ≠ i + 1 → before { c with
        links := c.links.set i { job := link.job, state } } j = c.before j := by
      intro hne
      cases j with
      | zero => rfl
      | succ j =>
        rw [before, before, List.getElem?_set_ne (fun heq => hne (by rw [heq]))]
    rw [List.getElem?_set] at hj
    split at hj
    · rename_i heq
      subst heq
      rw [if_pos (List.getElem?_eq_some_iff.mp hi).1] at hj
      cases hj
      exact (hbefore (Nat.ne_of_lt i.lt_succ_self)).symm ▸ hfollows
    · rcases eq_or_ne j (i + 1) with rfl | hne
      · rw [h.waiting hi hlink i.lt_succ_self hj]
        trivial
      · exact (hbefore hne).symm ▸ h.follows j link' hj
  log_eq := by
    obtain ⟨hlt, hget⟩ := List.getElem?_eq_some_iff.mp hi
    have hsplit : ∃ l later, c.links = l ++ c.links[i] :: later ∧ l.length = i ∧
        c.links.set i { job := link.job, state } = l ++ { job := link.job, state } :: later :=
      List.exists_of_set hlt
    obtain ⟨l, later, hlinks, hlength, hset⟩ := hsplit
    rw [hget] at hlinks
    have hwaiting : ∀ link ∈ later, link.state = .waiting := fun link' hmem => by
      obtain ⟨k, hk⟩ := List.getElem?_of_mem hmem
      refine h.waiting hi hlink (j := i + 1 + k) (by omega) ?_
      rw [hlinks, List.getElem?_append_right (by omega), hlength,
        show i + 1 + k - i = k + 1 by omega, List.getElem?_cons_succ, hk]
    dsimp only
    rw [hset, h.log_eq, hlinks]
    simp only [List.zipIdx_append, List.zipIdx_cons, List.flatMap_append, List.flatMap_cons,
      marks_eq_nil hwaiting, List.append_nil, Nat.zero_add, hlength, List.append_assoc, hmarks]

theorem goOn_links (hgoOn : c.goOn false i = some c') :
    ∃ job, c.links[i]? = some ⟨job, .waiting⟩ ∧ c'.links = c.links.set i ⟨job, .running⟩ := by
  unfold Chain.goOn at hgoOn
  split at hgoOn
  · rename_i job hi
    obtain ⟨state, hreact, rfl⟩ := Option.map_eq_some_iff.mp hgoOn
    refine ⟨job, hi, ?_⟩
    cases hbefore : c.before i with
    | waiting | running =>
      rw [hbefore] at hreact
      cases hreact
    | fulfilled | rejected e | skipped e =>
      rw [hbefore] at hreact
      cases hreact
      rfl
  · cases hgoOn

theorem settle_links {result : Except ε Unit} (hsettle : c.settle i result = some c') :
    ∃ job, c.links[i]? = some ⟨job, .running⟩ ∧
      c'.links = c.links.set i ⟨job, .ofResult result⟩ := by
  unfold Chain.settle at hsettle
  split at hsettle
  · rename_i job hi
    cases hsettle
    exact ⟨job, hi, rfl⟩
  · cases hsettle

theorem Sound.goOn (h : c.Sound skips) (hgoOn : c.goOn skips i = some c') : c'.Sound skips := by
  unfold Chain.goOn at hgoOn
  split at hgoOn
  · rename_i job hi
    obtain ⟨state, hreact, rfl⟩ := Option.map_eq_some_iff.mp hgoOn
    refine h.set hi id ?_ rfl
    cases hbefore : c.before i with
    | waiting | running =>
      rw [hbefore] at hreact
      cases hreact
    | fulfilled =>
      rw [hbefore] at hreact
      cases hreact
      rfl
    | rejected e | skipped e =>
      rw [hbefore] at hreact
      cases hreact
      cases skips <;> rfl
  · cases hgoOn

theorem Sound.settle {result : Except ε Unit} (h : c.Sound skips)
    (hsettle : c.settle i result = some c') : c'.Sound skips := by
  unfold Chain.settle at hsettle
  split at hsettle
  · rename_i job hi
    cases hsettle
    have hfollows : Follows skips (c.before i) .running := h.follows i _ hi
    cases result with
    | ok => exact h.set hi id hfollows rfl
    | error e => exact h.set hi id hfollows rfl
  · cases hsettle

theorem Sound.add (h : c.Sound skips) : (c.add job).Sound skips where
  follows j link hj := by
    rcases Nat.lt_or_ge j c.links.length with hlt | hge
    · have hbefore : (c.add job).before j = c.before j := by
        cases j with
        | zero => rfl
        | succ j => rw [before, before, Chain.add, List.getElem?_append_left (Nat.lt_of_succ_lt hlt)]
      rw [Chain.add, List.getElem?_append_left hlt] at hj
      exact hbefore.symm ▸ h.follows j link hj
    · rw [Chain.add, List.getElem?_append_right hge] at hj
      rw [List.mem_singleton.mp (List.mem_of_getElem? hj)]
      trivial
  log_eq := by
    rw [Chain.add, h.log_eq]
    simp [List.zipIdx_append, LinkState.marks]

/-! ## The jobs stay -/

theorem map_job_set {links : List (Link α ε)} {state : LinkState ε}
    (hi : links[i]? = some link) :
    (links.set i { job := link.job, state }).map Link.job = links.map Link.job := by
  refine List.ext_getElem? fun j => ?_
  rw [List.getElem?_map, List.getElem?_map, List.getElem?_set]
  split
  · rename_i heq
    rw [if_pos (List.getElem?_eq_some_iff.mp hi).1, ← heq, hi]
    rfl
  · rfl

theorem map_job_goOn (hgoOn : c.goOn skips i = some c') :
    c'.links.map Link.job = c.links.map Link.job := by
  unfold Chain.goOn at hgoOn
  split at hgoOn
  · rename_i job hi
    obtain ⟨state, -, rfl⟩ := Option.map_eq_some_iff.mp hgoOn
    exact map_job_set hi
  · cases hgoOn

theorem map_job_settle {result : Except ε Unit} (hsettle : c.settle i result = some c') :
    c'.links.map Link.job = c.links.map Link.job := by
  unfold Chain.settle at hsettle
  split at hsettle
  · rename_i job hi
    cases hsettle
    exact map_job_set hi
  · cases hsettle

/-! ## Chains that have settled -/

theorem Sound.log_of_ran (h : c.Sound skips)
    (hran : ∀ link ∈ c.links, link.state = .fulfilled ∨ ∃ e, link.state = .rejected e) :
    c.log = (List.range c.links.length).flatMap fun i => [.started i, .ended i] := by
  have hmarks : ∀ p ∈ c.links.zipIdx, p.1.state.marks p.2 = [.started p.2, .ended p.2] := by
    rintro ⟨link, i⟩ hmem
    rcases hran link (List.fst_mem_of_mem_zipIdx hmem) with hstate | ⟨e, hstate⟩
    · rw [hstate]
      rfl
    · rw [hstate]
      rfl
  rw [h.log_eq, List.flatMap_congr hmarks, List.range_eq_range', ← List.zipIdx_map_snd,
    List.flatMap_map]

theorem Sound.not_skipped (h : c.Sound false) (hi : c.links[i]? = some link) {e : ε} :
    link.state ≠ .skipped e := by
  intro hstate
  have hfollows := h.follows i link hi
  rw [hstate] at hfollows
  unfold Follows at hfollows
  cases hbefore : c.before i with
  | waiting | running | fulfilled | rejected | skipped =>
    rw [hbefore] at hfollows
    cases hfollows

/-- Behind a rejection jobs are skipped. -/
theorem Sound.skipped (h : c.Sound true) {e : ε} (hi : c.links[i]? = some link)
    (hlink : link.state = .rejected e ∨ link.state = .skipped e) (hij : i < j)
    (hj : c.links[j]? = some link') : link'.state = .waiting ∨ link'.state = .skipped e := by
  induction j generalizing link' with
  | zero => cases hij
  | succ j ih =>
    have hfollows := h.follows (j + 1) link' hj
    obtain ⟨between, hbetween⟩ : ∃ between, c.links[j]? = some between :=
      ⟨_, List.getElem?_eq_getElem (Nat.lt_of_succ_lt (List.getElem?_eq_some_iff.mp hj).1)⟩
    have hstate : between.state = .waiting ∨ between.state = .rejected e ∨
        between.state = .skipped e := by
      rcases Nat.lt_succ_iff_lt_or_eq.mp hij with hlt | rfl
      · exact (ih hlt hbetween).imp_right .inr
      · cases hi.symm.trans hbetween
        exact .inr hlink
    rw [before, hbetween, Option.elim_some] at hfollows
    rcases hstate with hstate | hstate | hstate
    · exact .inl (hfollows.waiting_of_react (by rw [hstate]; rfl))
    · exact hfollows.skipped_of_react (by rw [hstate]; rfl)
    · exact hfollows.skipped_of_react (by rw [hstate]; rfl)

/-- What is skipped is behind a rejection. -/
theorem Sound.rejected_before (h : c.Sound skips) {e : ε} (hj : c.links[j]? = some link)
    (hlink : link.state = .skipped e) :
    ∃ i < j, ∃ rejected, c.links[i]? = some rejected ∧ rejected.state = .rejected e := by
  induction j generalizing link with
  | zero =>
    have hfollows := h.follows 0 link hj
    rw [hlink] at hfollows
    cases hfollows
  | succ j ih =>
    have hfollows := h.follows (j + 1) link hj
    obtain ⟨between, hbetween⟩ : ∃ between, c.links[j]? = some between :=
      ⟨_, List.getElem?_eq_getElem (Nat.lt_of_succ_lt (List.getElem?_eq_some_iff.mp hj).1)⟩
    rw [hlink, before, hbetween, Option.elim_some] at hfollows
    rcases of_react_eq_skipped hfollows with hstate | hstate
    · exact ⟨j, j.lt_succ_self, between, hbetween, hstate⟩
    · obtain ⟨i, hij, rejected, hi, hrejected⟩ := ih hbetween hstate
      exact ⟨i, Nat.lt_succ_of_lt hij, rejected, hi, hrejected⟩

end Chain

end PromiseChain

end Treecrdt
