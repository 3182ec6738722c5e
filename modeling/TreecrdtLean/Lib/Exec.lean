import Mathlib.Tactic.Common

/-!
# Methods over a mutable state

`Exec ε σ α` is a method on a receiver `&mut σ` that returns a `Result`: it ends with a value or an
error, and the receiver keeps what the method wrote before an error. `none` is a call that never
returns (a loop that does not end, a recursion without a bottom).

* `zoom`: run a method on a part of the state (a field of the receiver).
* `orElse`, `atomically`: catch an error, with what was written kept or rolled back.
* `bind_of_ok`, `bind_ok`: what a sequence does from what its first part does, and back.
* `forEach`: a loop; `Reaches` are the states in which it comes to its elements.
* `Runs`: the method refines one step of a pure model of the state; `Runs.bind` chains the steps.
* `Gives`: the value that the method returns.
* `Keeps`: what holds after a method that may fail or never return.
* `Triple`: the same with a state before that is unlike the state after.

A function without a receiver returns `Except ε α`: `except_bind_ok` reads its steps off a result.
-/

namespace Treecrdt

/-- A sequence that ends well: so did its first part. -/
theorem except_bind_ok {ε α β : Type} {x : Except ε α} {f : α → Except ε β} {b : β}
    (h : x >>= f = .ok b) : ∃ a, x = .ok a ∧ f a = .ok b := by
  cases x with
  | error e => cases h
  | ok a => exact ⟨a, rfl, h⟩

/-- A mapped result that is a value: so is the result. -/
theorem except_map_ok {ε α β : Type} {x : Except ε α} {f : α → β} {b : β} (h : x.map f = .ok b) :
    ∃ a, x = .ok a ∧ f a = b := by
  cases x with
  | error e => cases h
  | ok a => exact ⟨a, rfl, Except.ok.inj h⟩

/-- A list that maps without an error. -/
theorem except_mapM_cons_ok {ε α β : Type} {f : α → Except ε β} {a : α} {l : List α} {bs : List β}
    (h : (a :: l).mapM f = .ok bs) : ∃ b rest, bs = b :: rest ∧ f a = .ok b ∧ l.mapM f = .ok rest := by
  rw [List.mapM_cons] at h
  obtain ⟨b, hb, h⟩ := except_bind_ok h
  obtain ⟨rest, hrest, h⟩ := except_bind_ok h
  exact ⟨b, rest, (Except.ok.inj h).symm, hb, hrest⟩

/-- A list that maps without an error, each element to what it can only map to. -/
theorem except_mapM_eq_map {ε α β : Type} {f : α → Except ε β} {g : α → β}
    (hf : ∀ a b, f a = .ok b → b = g a) {l : List α} {bs : List β} (h : l.mapM f = .ok bs) :
    bs = l.map g := by
  induction l generalizing bs with
  | nil => cases h; rfl
  | cons a l ih =>
    obtain ⟨b, rest, rfl, hb, hrest⟩ := except_mapM_cons_ok h
    rw [hf a b hb, ih hrest, List.map_cons]

/-- A list maps without an error if its elements do. -/
theorem except_mapM_ok_iff {ε α β : Type} {f : α → Except ε β} {l : List α} :
    (∃ bs, l.mapM f = .ok bs) ↔ ∀ a ∈ l, ∃ b, f a = .ok b := by
  induction l with
  | nil => exact ⟨fun _ _ h => (nomatch h), fun _ => ⟨[], rfl⟩⟩
  | cons a l ih =>
    rw [List.forall_mem_cons, ← ih]
    constructor
    · rintro ⟨bs, hbs⟩
      obtain ⟨b, rest, -, hb, hrest⟩ := except_mapM_cons_ok hbs
      exact ⟨⟨b, hb⟩, rest, hrest⟩
    · rintro ⟨⟨b, hb⟩, rest, hrest⟩
      exact ⟨b :: rest, by rw [List.mapM_cons, hb, hrest]; rfl⟩

/-- A list that maps there and back. -/
theorem except_mapM_inverse {ε α β γ : Type} {f : α → Except ε β} {g : β → Except ε γ} {h : α → γ}
    {l : List α} (hl : ∀ a ∈ l, ∃ b, f a = .ok b ∧ g b = .ok (h a)) :
    ∃ bs, l.mapM f = .ok bs ∧ bs.mapM g = .ok (l.map h) := by
  induction l with
  | nil => exact ⟨[], rfl, rfl⟩
  | cons a l ih =>
    rw [List.forall_mem_cons] at hl
    obtain ⟨⟨b, hf, hg⟩, hl⟩ := hl
    obtain ⟨bs, hfs, hgs⟩ := ih hl
    refine ⟨b :: bs, ?_, ?_⟩
    · rw [List.mapM_cons, hf, hfs]
      rfl
    · rw [List.mapM_cons, hg, hgs]
      rfl

/-- `if (failed) throw new Error(message)`. -/
def throwIf (failed : Prop) [Decidable failed] (message : String) : Except String Unit :=
  if failed then .error message else .ok ()

theorem throwIf_ok {failed : Prop} [Decidable failed] {message : String} {u : Unit}
    (h : throwIf failed message = .ok u) : ¬ failed := by
  intro hf
  rw [throwIf, if_pos hf] at h
  cases h

theorem throwIf_of_not {failed : Prop} [Decidable failed] (message : String) (h : ¬ failed) :
    throwIf failed message = .ok () := if_neg h

/-- A method over the state `σ` that fails with `ε`, or never returns. -/
def Exec (ε σ α : Type) : Type := σ → Option (Except ε α × σ)

namespace Exec

variable {ε σ τ α β : Type}

instance : Monad (Exec ε σ) where
  pure a := fun s => some (.ok a, s)
  bind c f := fun s =>
    match c s with
    | none => none
    | some (.error e, s') => some (.error e, s')
    | some (.ok a, s') => f a s'

/-- `Err(e)`. -/
def throw (e : ε) : Exec ε σ α := fun s => some (.error e, s)

/-- A call that never returns. -/
def diverge : Exec ε σ α := fun _ => none

/-- Read from the state. -/
def gets (f : σ → α) : Exec ε σ α := fun s => some (.ok (f s), s)

/-- Read a `Result` from the state. -/
def getsE (f : σ → Except ε α) : Exec ε σ α := fun s => some (f s, s)

/-- Write the state. -/
def modify (f : σ → σ) : Exec ε σ Unit := fun s => some (.ok (), f s)

/-- On an error, go on with `f`; what was written stays. -/
def orElse (c : Exec ε σ α) (f : ε → Exec ε σ α) : Exec ε σ α := fun s =>
  match c s with
  | some (.error e, s') => f e s'
  | r => r

/-- On an error, roll back. -/
def atomically (c : Exec ε σ α) : Exec ε σ α := fun s =>
  match c s with
  | some (.error e, _) => some (.error e, s)
  | r => r

/-- Run a method of a part of the state. -/
def zoom (get : σ → τ) (set : τ → σ → σ) (c : Exec ε τ α) : Exec ε σ α := fun s =>
  (c (get s)).map fun r => (r.1, set r.2 s)

/-! ## Runs of the primitives -/

@[simp] theorem pure_run (a : α) (s : σ) : (pure a : Exec ε σ α) s = some (.ok a, s) := rfl

@[simp] theorem throw_run (e : ε) (s : σ) :
    (throw e : Exec ε σ α) s = some (.error e, s) := rfl

@[simp] theorem diverge_run (s : σ) : (diverge : Exec ε σ α) s = none := rfl

@[simp] theorem gets_run (f : σ → α) (s : σ) :
    (gets f : Exec ε σ α) s = some (.ok (f s), s) := rfl

@[simp] theorem getsE_run (f : σ → Except ε α) (s : σ) : getsE f s = some (f s, s) := rfl

@[simp] theorem modify_run (f : σ → σ) (s : σ) :
    (modify f : Exec ε σ Unit) s = some (.ok (), f s) := rfl

theorem bind_run (c : Exec ε σ α) (f : α → Exec ε σ β) (s : σ) :
    (c >>= f) s =
      match c s with
      | none => none
      | some (.error e, s') => some (.error e, s')
      | some (.ok a, s') => f a s' := rfl

theorem bind_of_ok {c : Exec ε σ α} {f : α → Exec ε σ β} {s s' : σ} {a : α}
    (h : c s = some (.ok a, s')) : (c >>= f) s = f a s' := by
  rw [bind_run, h]

theorem bind_of_error {c : Exec ε σ α} {f : α → Exec ε σ β} {s s' : σ} {e : ε}
    (h : c s = some (.error e, s')) : (c >>= f) s = some (.error e, s') := by
  rw [bind_run, h]

/-- A sequence that returns: its first part returned, and the rest returned from there. -/
theorem bind_ok {c : Exec ε σ α} {f : α → Exec ε σ β} {s s'' : σ} {b : β}
    (h : (c >>= f) s = some (.ok b, s'')) :
    ∃ a s', c s = some (.ok a, s') ∧ f a s' = some (.ok b, s'') := by
  rw [bind_run] at h
  split at h
  · cases h
  · cases h
  · exact ⟨_, _, by assumption, h⟩

/-- A sequence that returns at all: its first part failed, or the rest ran from there. -/
theorem bind_some {c : Exec ε σ α} {f : α → Exec ε σ β} {s s'' : σ} {r : Except ε β}
    (h : (c >>= f) s = some (r, s'')) :
    (∃ e, c s = some (.error e, s'') ∧ r = .error e) ∨
      ∃ a s', c s = some (.ok a, s') ∧ f a s' = some (r, s'') := by
  rw [bind_run] at h
  split at h
  · cases h
  · rename_i e s' hc
    cases h
    exact Or.inl ⟨e, hc, rfl⟩
  · rename_i a s' hc
    exact Or.inr ⟨a, s', hc, h⟩

/-- A method whose value is dropped. -/
theorem bind_pure_some {c : Exec ε σ α} {b : β} {s s' : σ} {r : Except ε β}
    (h : (c >>= fun _ => pure b) s = some (r, s')) : ∃ r', c s = some (r', s') := by
  obtain ⟨e, hc, -⟩ | ⟨a, s₁, hc, hret⟩ := bind_some h
  · exact ⟨_, hc⟩
  · cases hret
    exact ⟨_, hc⟩

/-- Two sequences with the same first part, and the same rest behind it. -/
theorem bind_congr_ok {c c' : Exec ε σ α} {f f' : α → Exec ε σ β} {s : σ} (hc : c s = c' s)
    (hf : ∀ a s', c s = some (.ok a, s') → f a s' = f' a s') : (c >>= f) s = (c' >>= f') s := by
  rw [bind_run, bind_run, ← hc]
  split
  · rfl
  · rfl
  · rename_i a s' h
    exact hf a s' h

@[simp] theorem pure_bind (a : α) (f : α → Exec ε σ β) : (pure a >>= f) = f a := rfl

@[simp] theorem gets_bind_run (g : σ → α) (f : α → Exec ε σ β) (s : σ) :
    (gets g >>= f) s = f (g s) s := rfl

@[simp] theorem modify_bind_run (g : σ → σ) (f : Unit → Exec ε σ β) (s : σ) :
    (modify g >>= f) s = f () (g s) := rfl

theorem bind_assoc {γ : Type} (c : Exec ε σ α) (f : α → Exec ε σ β) (g : β → Exec ε σ γ) :
    (c >>= f) >>= g = c >>= fun a => f a >>= g := by
  funext s
  simp only [bind_run]
  rcases c s with _ | ⟨_ | a, s'⟩ <;> rfl

theorem orElse_of_ok {c : Exec ε σ α} {f : ε → Exec ε σ α} {s s' : σ} {a : α}
    (h : c s = some (.ok a, s')) : orElse c f s = some (.ok a, s') := by
  rw [orElse, h]

/-- What is rolled back has left nothing. -/
theorem atomically_some {c : Exec ε σ α} {s s' : σ} {r : Except ε α}
    (h : atomically c s = some (r, s')) :
    s' = s ∨ ∃ a, r = .ok a ∧ c s = some (.ok a, s') := by
  rw [atomically] at h
  split at h
  · cases h
    exact Or.inl rfl
  · rename_i hc
    cases r with
    | error e => exact absurd h (hc e s')
    | ok a => exact Or.inr ⟨a, rfl, h⟩

theorem atomically_ok {c : Exec ε σ α} {s s' : σ} {a : α}
    (h : atomically c s = some (.ok a, s')) : c s = some (.ok a, s') := by
  rw [atomically] at h
  split at h
  · cases h
  · exact h

theorem zoom_of_ok {get : σ → τ} {set : τ → σ → σ} {c : Exec ε τ α} {s : σ} {t : τ} {a : α}
    (h : c (get s) = some (.ok a, t)) : zoom get set c s = some (.ok a, set t s) := by
  simp [zoom, h]

theorem zoom_bind_pure {get : σ → τ} {set : τ → σ → σ} (c : Exec ε τ α) (b : β) :
    zoom get set (c >>= fun _ => pure b) = zoom get set c >>= fun _ => pure b := by
  funext s
  simp only [zoom, bind_run]
  rcases c (get s) with _ | ⟨_ | a, t⟩ <;> rfl

theorem zoom_some {get : σ → τ} {set : τ → σ → σ} {c : Exec ε τ α} {s s' : σ}
    {r : Except ε α} (h : zoom get set c s = some (r, s')) :
    ∃ t, c (get s) = some (r, t) ∧ s' = set t s := by
  simp only [zoom, Option.map_eq_some_iff, Prod.mk.injEq] at h
  obtain ⟨⟨r, t⟩, hc, rfl, rfl⟩ := h
  exact ⟨t, hc, rfl⟩

/-! ## Loops -/

/-- A loop over a list. -/
def forEach (body : α → Exec ε σ Unit) : List α → Exec ε σ Unit
  | [] => pure ()
  | a :: rest => do
    body a
    forEach body rest

theorem forEach_append (body : α → Exec ε σ Unit) (l l' : List α) :
    forEach body (l ++ l') = forEach body l >>= fun _ => forEach body l' := by
  induction l with
  | nil => rfl
  | cons a rest ih => rw [List.cons_append, forEach, forEach, ih, bind_assoc]

/-- The loop from `s` comes to the element `a` in the state `t`. -/
inductive Reaches (body : α → Exec ε σ Unit) : List α → σ → α → σ → Prop
  | here {a : α} {rest : List α} {s : σ} : Reaches body (a :: rest) s a s
  | next {a b : α} {rest : List α} {s s' t : σ} (turn : body b s = some (.ok (), s'))
      (later : Reaches body rest s' a t) : Reaches body (b :: rest) s a t

/-- Two bodies that agree wherever the loop comes to. -/
theorem forEach_congr {body body' : α → Exec ε σ Unit} {l : List α} {s : σ}
    (h : ∀ a t, Reaches body l s a t → body a t = body' a t) :
    forEach body l s = forEach body' l s := by
  induction l generalizing s with
  | nil => rfl
  | cons a rest ih =>
    rw [forEach, forEach, bind_run, bind_run, ← h a s .here]
    split
    · rfl
    · rfl
    · rename_i s' turn
      exact ih fun b t hb => h b t (.next turn hb)

theorem forEach_map {β : Type} (body : β → Exec ε σ Unit) (f : α → β) (l : List α) :
    forEach body (l.map f) = forEach (fun a => body (f a)) l := by
  induction l with
  | nil => rfl
  | cons a rest ih => rw [List.map_cons, forEach, forEach, ih]

theorem forEach_singleton (body : α → Exec ε σ Unit) (a : α) : forEach body [a] = body a := by
  funext s
  rw [forEach, bind_run]
  split <;> simp_all [forEach]

/-- What every turn keeps, the loop keeps, also where it fails. -/
theorem forEach_keeps {body : α → Exec ε σ Unit} {P : σ → Prop} {l : List α} {s s' : σ}
    {r : Except ε Unit} (hturn : ∀ a ∈ l, ∀ t r t', body a t = some (r, t') → P t → P t')
    (h : forEach body l s = some (r, s')) (hs : P s) : P s' := by
  induction l generalizing s with
  | nil => cases h; exact hs
  | cons a rest ih =>
    rw [List.forall_mem_cons] at hturn
    obtain ⟨_, hc, -⟩ | ⟨_, s₁, hc, h⟩ := bind_some h
    · exact hturn.1 s _ _ hc hs
    · exact ih hturn.2 h (hturn.1 s _ _ hc hs)

/-- What a turn makes and every turn keeps holds at the end of the loop. -/
theorem Reaches.keeps {body : α → Exec ε σ Unit} {P : σ → Prop} {l : List α} {s s' t : σ} {a : α}
    {r : Except ε Unit} (hturn : ∀ a t r t', body a t = some (r, t') → P t → P t')
    (hmake : ∀ r t', body a t = some (r, t') → P t')
    (hreach : Reaches body l s a t) (h : forEach body l s = some (r, s')) : P s' := by
  induction hreach with
  | here =>
    obtain ⟨_, hc, -⟩ | ⟨_, s₁, hc, h⟩ := bind_some h
    · exact hmake _ _ hc
    · exact forEach_keeps (fun a _ => hturn a) h (hmake _ _ hc)
  | next turn _ ih =>
    rw [forEach, bind_of_ok turn] at h
    exact ih hmake h

/-! ## Refinement -/

section

variable {A B : Type} {R : σ → A → Prop} {a a' a'' : A}

/-- From every state that models `a`, the method returns a value in `Q` and leaves a state that
models `a'`. -/
def Runs (R : σ → A → Prop) (a : A) (c : Exec ε σ α) (Q : α → Prop) (a' : A) : Prop :=
  ∀ s, R s a → ∃ x s', c s = some (.ok x, s') ∧ Q x ∧ R s' a'

theorem Runs.pure {x : α} {Q : α → Prop} (h : Q x) :
    Runs R a (pure x : Exec ε σ α) Q a := fun s hs => ⟨x, s, rfl, h, hs⟩

theorem Runs.bind {c : Exec ε σ α} {f : α → Exec ε σ β} {Q : α → Prop} {Q' : β → Prop}
    (hc : Runs R a c Q a') (hf : ∀ x, Q x → Runs R a' (f x) Q' a'') :
    Runs R a (c >>= f) Q' a'' := by
  intro s hs
  obtain ⟨x, s', hr, hx, hs'⟩ := hc s hs
  obtain ⟨y, s'', hr', hy, hs''⟩ := hf x hx s' hs'
  exact ⟨y, s'', by rw [bind_of_ok hr, hr'], hy, hs''⟩

theorem Runs.imp {c : Exec ε σ α} {Q Q' : α → Prop} (hc : Runs R a c Q a')
    (h : ∀ x, Q x → Q' x) : Runs R a c Q' a' := by
  intro s hs
  obtain ⟨x, s', hr, hx, hs'⟩ := hc s hs
  exact ⟨x, s', hr, h x hx, hs'⟩

/-- A fact of every state that models `a` may be assumed. -/
theorem Runs.assume {c : Exec ε σ α} {Q : α → Prop} {p : Prop} (h : ∀ s, R s a → p)
    (hc : p → Runs R a c Q a') : Runs R a c Q a' := fun s hs => hc (h s hs) s hs

theorem Runs.gets {f : σ → α} {Q : α → Prop} (h : ∀ s, R s a → Q (f s)) :
    Runs R a (gets f : Exec ε σ α) Q a := fun s hs => ⟨f s, s, rfl, h s hs, hs⟩

theorem Runs.modify {f : σ → σ} (h : ∀ s, R s a → R (f s) a') :
    Runs R a (modify f : Exec ε σ Unit) (fun _ => True) a' :=
  fun s hs => ⟨(), f s, rfl, trivial, h s hs⟩

/-- A loop over a list; `I` is the invariant before the elements that are left. -/
theorem Runs.foldlM {f : β → α → Exec ε σ β} {I : List α → β → Prop}
    (hf : ∀ x rest b, I (x :: rest) b → Runs R a (f b x) (I rest) a) :
    ∀ {l : List α} {b : β}, I l b → Runs R a (l.foldlM f b) (I []) a
  | [], _, h => Runs.pure h
  | x :: rest, b, h => by
    rw [List.foldlM_cons]
    exact (hf x rest b h).bind fun _ hb => Runs.foldlM hf hb

/-- A method of a part of the state, where the rest of the state models `B`. -/
theorem Runs.zoom {get : σ → τ} {set : τ → σ → σ} {R' : τ → B → Prop} {b b' : B}
    {c : Exec ε τ α} {Q : α → Prop} (hc : Runs R' b c Q b') (hget : ∀ s, R s a → R' (get s) b)
    (hset : ∀ s t, R s a → R' t b' → R (set t s) a') :
    Runs R a (zoom get set c) Q a' := by
  intro s hs
  obtain ⟨x, t, hr, hx, ht⟩ := hc (get s) (hget s hs)
  exact ⟨x, set t s, zoom_of_ok hr, hx, hset s t hs ht⟩

end

/-! ## Values -/

section

variable {c : Exec ε σ α} {s : σ} {a b : α}

/-- From `s` the method returns `a`. -/
def Gives (c : Exec ε σ α) (s : σ) (a : α) : Prop := ∃ s', c s = some (.ok a, s')

theorem Gives.unique (ha : Gives c s a) (hb : Gives c s b) : a = b := by
  obtain ⟨s₁, ha⟩ := ha
  obtain ⟨s₂, hb⟩ := hb
  rw [ha] at hb
  cases hb
  rfl

theorem Runs.gives {A : Type} {R : σ → A → Prop} {m m' : A} {Q : α → Prop} (h : Runs R m c Q m')
    (hs : R s m) : ∃ a, Gives c s a ∧ Q a := by
  obtain ⟨a, s', hrun, ha, -⟩ := h s hs
  exact ⟨a, ⟨s', hrun⟩, ha⟩

/-- A method that can return one value only. -/
theorem Runs.gives_eq {A : Type} {R : σ → A → Prop} {m m' : A} (h : Runs R m c (· = a) m')
    (hs : R s m) : Gives c s a := by
  obtain ⟨_, hgives, rfl⟩ := h.gives hs
  exact hgives

end

/-! ## Partial correctness -/

section

variable {I : σ → Prop} {E : ε → Prop}

/-- If the method returns at all, from a state in `I`, it leaves a state in `I`, with a value in `Q`
or an error in `E`. -/
def Keeps (I : σ → Prop) (E : ε → Prop) (c : Exec ε σ α) (Q : α → Prop) : Prop :=
  ∀ s, I s → ∀ r s', c s = some (r, s') →
    I s' ∧ match r with
      | .ok a => Q a
      | .error e => E e

theorem Keeps.pure {a : α} {Q : α → Prop} (h : Q a) : Keeps I E (pure a : Exec ε σ α) Q := by
  intro s hs r s' hr
  cases hr
  exact ⟨hs, h⟩

theorem Keeps.throw {e : ε} {Q : α → Prop} (h : E e) : Keeps I E (throw e : Exec ε σ α) Q := by
  intro s hs r s' hr
  cases hr
  exact ⟨hs, h⟩

theorem Keeps.diverge {Q : α → Prop} : Keeps I E (diverge : Exec ε σ α) Q := by
  intro s _ r s' hr
  cases hr

theorem Keeps.bind {c : Exec ε σ α} {f : α → Exec ε σ β} {Q : α → Prop} {Q' : β → Prop}
    (hc : Keeps I E c Q) (hf : ∀ a, Q a → Keeps I E (f a) Q') : Keeps I E (c >>= f) Q' := by
  intro s hs r s' hr
  rcases bind_some hr with ⟨e, hcs, rfl⟩ | ⟨a, s₁, hcs, hr⟩
  · exact hc s hs _ _ hcs
  · obtain ⟨hs₁, ha⟩ := hc s hs _ _ hcs
    exact hf a ha s₁ hs₁ r s' hr

/-- A loop over a list; `J` is about the elements that are left. -/
theorem Keeps.foldlM_rest {f : β → α → Exec ε σ β} {J : List α → β → Prop}
    (hf : ∀ x rest b, J (x :: rest) b → Keeps I E (f b x) (J rest)) :
    ∀ {l : List α} {b : β}, J l b → Keeps I E (l.foldlM f b) (J [])
  | [], _, h => Keeps.pure h
  | x :: rest, b, h => by
    rw [List.foldlM_cons]
    exact (hf x rest b h).bind fun _ hb => Keeps.foldlM_rest hf hb

theorem Keeps.foldlM {f : β → α → Exec ε σ β} {Q : β → Prop}
    (hf : ∀ x b, Q b → Keeps I E (f b x) Q) {l : List α} {b : β} (h : Q b) :
    Keeps I E (l.foldlM f b) Q :=
  Keeps.foldlM_rest (J := fun _ => Q) (fun x _ b hb => hf x b hb) h

theorem Keeps.gets {f : σ → α} {Q : α → Prop} (h : ∀ s, I s → Q (f s)) :
    Keeps I E (gets f : Exec ε σ α) Q := by
  intro s hs r s' hr
  cases hr
  exact ⟨hs, h s hs⟩

theorem Keeps.modify {f : σ → σ} (h : ∀ s, I s → I (f s)) :
    Keeps I E (modify f : Exec ε σ Unit) fun _ => True := by
  intro s hs r s' hr
  cases hr
  exact ⟨h s hs, trivial⟩

theorem Keeps.imp {c : Exec ε σ α} {Q Q' : α → Prop} (hc : Keeps I E c Q) (h : ∀ a, Q a → Q' a) :
    Keeps I E c Q' := by
  intro s hs r s' hr
  obtain ⟨hs', hr'⟩ := hc s hs r s' hr
  refine ⟨hs', ?_⟩
  cases r with
  | error e => exact hr'
  | ok a => exact h a hr'

theorem Keeps.forEach {body : α → Exec ε σ Unit} :
    ∀ {l : List α}, (∀ a ∈ l, Keeps I E (body a) fun _ => True) →
      Keeps I E (forEach body l) fun _ => True
  | [], _ => Keeps.pure trivial
  | a :: rest, h => by
    rw [List.forall_mem_cons] at h
    exact h.1.bind fun _ _ => Keeps.forEach h.2

/-- A method of a part of the state. -/
theorem Keeps.zoom {get : σ → τ} {set : τ → σ → σ} {I' : τ → Prop} {c : Exec ε τ α} {Q : α → Prop}
    (hc : Keeps I' E c Q) (hget : ∀ s, I s → I' (get s)) (hset : ∀ s t, I s → I' t → I (set t s)) :
    Keeps I E (zoom get set c) Q := by
  intro s hs r s' hr
  obtain ⟨t, hcs, rfl⟩ := zoom_some hr
  obtain ⟨ht, hr'⟩ := hc (get s) (hget s hs) r t hcs
  exact ⟨hset s t hs ht, hr'⟩

theorem Keeps.orElse {c : Exec ε σ α} {f : ε → Exec ε σ α} {Q : α → Prop} (hc : Keeps I E c Q)
    (hf : ∀ e, E e → Keeps I E (f e) Q) : Keeps I E (orElse c f) Q := by
  intro s hs r s' hr
  rw [Exec.orElse] at hr
  split at hr
  · rename_i e s₁ hcs
    obtain ⟨hs₁, he⟩ := hc s hs _ _ hcs
    exact hf e he s₁ hs₁ r s' hr
  · exact hc s hs r s' hr

theorem Keeps.atomically {c : Exec ε σ α} {Q : α → Prop} (hc : Keeps I E c Q) :
    Keeps I E (atomically c) Q := by
  intro s hs r s' hr
  rw [Exec.atomically] at hr
  split at hr
  · rename_i e s₁ hcs
    cases hr
    exact ⟨hs, (hc s hs _ _ hcs).2⟩
  · exact hc s hs r s' hr

/-- Where nothing is asked of the state or the result. -/
theorem Keeps.any (c : Exec ε σ α) : Keeps (fun _ => True) (fun _ => True) c fun _ => True := by
  intro s _ r s' _
  exact ⟨trivial, by cases r <;> trivial⟩

/-- A method that refines a step between two models, in whichever of the models in `S` the state
is. -/
theorem Runs.keeps {A : Type} {R : σ → A → Prop} {S : A → Prop} {c : Exec ε σ α} {Q : α → Prop}
    (h : ∀ a, S a → ∃ a', S a' ∧ Runs R a c Q a') :
    Keeps (fun s => ∃ a, S a ∧ R s a) E c Q := by
  rintro s ⟨a, ha, hs⟩ r s' hr
  obtain ⟨a', ha', hrun⟩ := h a ha
  obtain ⟨x, s₁, hc, hx, hs₁⟩ := hrun s hs
  rw [hc] at hr
  cases hr
  exact ⟨⟨a', ha', hs₁⟩, hx⟩

/-- A method that stays in one model. -/
theorem Runs.keeps_self {A : Type} {R : σ → A → Prop} {a : A} {c : Exec ε σ α} {Q : α → Prop}
    (h : Runs R a c Q a) : Keeps (fun s => R s a) E c Q := by
  intro s hs r s' hr
  obtain ⟨x, s₁, hc, hx, hs₁⟩ := h s hs
  rw [hc] at hr
  cases hr
  exact ⟨hs₁, hx⟩

end

/-! ## Triples -/

section

variable {P P' : σ → Prop} {Q Q' : α → σ → Prop} {E E' : ε → σ → Prop}

/-- If the method returns at all, from a state in `P`, it leaves `Q` behind a value and `E` behind an
error. -/
def Triple (P : σ → Prop) (c : Exec ε σ α) (Q : α → σ → Prop) (E : ε → σ → Prop) : Prop :=
  ∀ s, P s → ∀ r s', c s = some (r, s') →
    match r with
    | .ok a => Q a s'
    | .error e => E e s'

theorem Triple.pure {a : α} (h : ∀ s, P s → Q a s) : Triple P (pure a : Exec ε σ α) Q E := by
  intro s hs r s' hr
  cases hr
  exact h s hs

theorem Triple.modify {f : σ → σ} {Q : Unit → σ → Prop} (h : ∀ s, P s → Q () (f s)) :
    Triple P (modify f : Exec ε σ Unit) Q E := by
  intro s hs r s' hr
  cases hr
  exact h s hs

theorem Triple.bind {c : Exec ε σ α} {f : α → Exec ε σ β} {R : β → σ → Prop}
    (hc : Triple P c Q E) (hf : ∀ a, Triple (Q a) (f a) R E) : Triple P (c >>= f) R E := by
  intro s hs r s' hr
  obtain ⟨e, hcs, rfl⟩ | ⟨a, s₁, hcs, hr⟩ := bind_some hr
  · exact hc s hs _ _ hcs
  · exact hf a s₁ (hc s hs _ _ hcs) r s' hr

theorem Triple.conseq {c : Exec ε σ α} (hc : Triple P c Q E) (hP : ∀ s, P' s → P s)
    (hQ : ∀ a s, Q a s → Q' a s) (hE : ∀ e s, E e s → E' e s) : Triple P' c Q' E' := by
  intro s hs r s' hr
  have := hc s (hP s hs) r s' hr
  cases r with
  | ok a => exact hQ a s' this
  | error e => exact hE e s' this

theorem Triple.ex {γ : Type*} {P : γ → σ → Prop} {c : Exec ε σ α} (h : ∀ x, Triple (P x) c Q E) :
    Triple (fun s => ∃ x, P x s) c Q E := fun s ⟨x, hs⟩ => h x s hs

/-- A method that refines a step between two models. -/
theorem Runs.triple {A : Type} {R : σ → A → Prop} {a a' : A} {c : Exec ε σ α} {Q : α → Prop}
    (h : Runs R a c Q a') : Triple (fun s => R s a) c (fun x s => Q x ∧ R s a') E := by
  intro s hs r s' hr
  obtain ⟨x, s₁, hc, hx, hs₁⟩ := h s hs
  rw [hc] at hr
  cases hr
  exact ⟨hx, hs₁⟩

/-- A method of a part of the state. -/
theorem Triple.zoom {get : σ → τ} {set : τ → σ → σ} {P' : τ → Prop} {c : Exec ε τ α}
    {Q' : α → τ → Prop} {E' : ε → τ → Prop} (hc : Triple P' c Q' E') (hget : ∀ s, P s → P' (get s))
    (hQ : ∀ s a t, P s → Q' a t → Q a (set t s)) (hE : ∀ s e t, P s → E' e t → E e (set t s)) :
    Triple P (zoom get set c) Q E := by
  intro s hs r s' hr
  obtain ⟨t, hcs, rfl⟩ := zoom_some hr
  have := hc (get s) (hget s hs) r t hcs
  cases r with
  | ok a => exact hQ s a t hs this
  | error e => exact hE s e t hs this

theorem Keeps.triple {I : σ → Prop} {E : ε → Prop} {c : Exec ε σ α} {Q : α → Prop}
    (h : Keeps I E c Q) : Triple I c (fun a s => I s ∧ Q a) fun e s => I s ∧ E e := by
  intro s hs r s' hr
  have := h s hs r s' hr
  cases r <;> exact this

theorem Triple.keeps {I : σ → Prop} {c : Exec ε σ α} (h : Triple I c (fun _ => I) fun _ => I) :
    Keeps I (fun _ => True) c fun _ => True := by
  intro s hs r s' hr
  have := h s hs r s' hr
  cases r <;> exact ⟨this, trivial⟩

end

/-! ## Methods over two states -/

section

variable {ε σ τ α β : Type} {f : σ → τ}

/-- From `f s` the method `c'` does what `c` does from `s`. -/
def Mirrors (f : σ → τ) (c : Exec ε σ α) (c' : Exec ε τ α) : Prop :=
  ∀ s, c' (f s) = (c s).map fun r => (r.1, f r.2)

theorem Mirrors.pure (a : α) : Mirrors f (pure a : Exec ε σ α) (pure a) := fun _ => rfl

theorem Mirrors.throw (e : ε) : Mirrors f (throw e : Exec ε σ α) (throw e) := fun _ => rfl

theorem Mirrors.modify {g : σ → σ} {g' : τ → τ} (h : ∀ s, g' (f s) = f (g s)) :
    Mirrors f (modify g : Exec ε σ Unit) (modify g') := fun s => by
  rw [modify_run, modify_run, h]
  rfl

theorem Mirrors.bind {c : Exec ε σ α} {c' : Exec ε τ α} {k : α → Exec ε σ β} {k' : α → Exec ε τ β}
    (hc : Mirrors f c c') (hk : ∀ a, Mirrors f (k a) (k' a)) :
    Mirrors f (c >>= k) (c' >>= k') := fun s => by
  rw [bind_run, bind_run, hc s]
  rcases c s with _ | ⟨_ | a, s'⟩
  · rfl
  · rfl
  · exact hk a s'

/-- A method of a part of the state that both have. -/
theorem Mirrors.zoom {γ : Type} {get : σ → γ} {set : γ → σ → σ} {get' : τ → γ} {set' : γ → τ → τ}
    (c : Exec ε γ α) (hget : ∀ s, get' (f s) = get s) (hset : ∀ t s, set' t (f s) = f (set t s)) :
    Mirrors f (zoom get set c) (zoom get' set' c) := fun s => by
  rw [Exec.zoom, Exec.zoom, hget]
  rcases c (get s) with _ | ⟨r, t⟩
  · rfl
  · simp [hset]

end

end Exec

end Treecrdt
