import Mathlib.Data.Set.Card
import TreecrdtLean.Sync.DocStore

/-!
# The lifecycle of open documents

In what it does with a document an opening is at one of three places: it is under way, its context
is live, or both are gone (`Slot`). The maps of the store list the openings under way and the live
contexts by their documents, a live context counts the handles on it, and `closeAll` waits for what
is left (`Store.Sound`). Every step keeps this, whatever order the promises and timers take.

So a document has one opening at a time and one live context, no backend is closed under a handle,
and after `closeAll` each is closed, once (`Store.run_lifecycleKept`).
-/

namespace Treecrdt

namespace Sync

namespace DocStore

variable {Op : Type}

/-! ## What an opening can be -/

/-- An opening closes its backend once: when it fails, or with its context. -/
inductive Opening.Life : Opening Op → Prop where
  | opening {docId : String} : Life { docId }
  | failed {docId message : String} : Life { docId, stage := .settled (.error message) }
  | opened {docId : String} {b : Backend} (closes : b.closes = 0) :
    Life { docId, stage := .peerOptions, backend := some b }
  | dropping {docId : String} {b : Backend} {outcome : Except String Id} (closes : b.closes = 1) :
    Life { docId, stage := .closing outcome, backend := some b }
  | dropped {docId : String} {b : Backend} {outcome : Except String Id} (closes : b.closes = 1) :
    Life { docId, stage := .settled outcome, backend := some b }
  | live {b : Backend} {ctx : DocContext Op} {outcome : Except String Id} (closes : b.closes = 0)
    (closed : ctx.closed = false) :
    Life { docId := ctx.docId, stage := .settled outcome, backend := some b, context := some ctx }
  | closed {b : Backend} {ctx : DocContext Op} {outcome : Except String Id} (closes : b.closes = 1)
    (closed : ctx.closed = true) :
    Life { docId := ctx.docId, stage := .settled outcome, backend := some b, context := some ctx }

/-- What the maps of the store know of an opening. -/
inductive Slot where
  | opening
  | live (connections : ℕ)
  | gone

/-- An opening goes on; it may end. -/
def Slot.Goes (before after : Slot) : Prop := after = before ∨ before = .opening ∧ after = .gone

def Opening.slot (op : Opening Op) : Slot :=
  match op.context with
  | some ctx => if ctx.closed then .gone else .live ctx.connections
  | none => if op.stage.IsSettled then .gone else .opening

/-- A context behind `closeContext`. -/
def DocContext.shut (ctx : DocContext Op) : DocContext Op :=
  if ctx.closed then ctx else { ctx with closed := true, closeTimer := false }

theorem DocContext.closed_shut (ctx : DocContext Op) : ctx.shut.closed = true := by
  unfold shut
  split
  · assumption
  · rfl

/-- The context of an opening changes, and stays open or closed. -/
theorem Opening.Life.setContext {op : Opening Op} {ctx ctx' : DocContext Op}
    (h : op.Life) (hctx : op.context = some ctx) (hdoc : ctx'.docId = ctx.docId)
    (hclosed : ctx'.closed = ctx.closed) : Opening.Life { op with context := some ctx' } := by
  cases h with
  | opening | failed | opened | dropping | dropped => cases hctx
  | live closes closed =>
    cases hctx
    rw [← hdoc]
    exact .live closes (hclosed.trans closed)
  | closed closes closed =>
    cases hctx
    rw [← hdoc]
    exact .closed closes (hclosed.trans closed)

theorem Opening.Life.closeSettled {op : Opening Op} {b : Backend} (h : op.Life)
    (hb : op.backend = some b) :
    Opening.Life { op with backend := some { b with closeSettled := true } } := by
  cases h with
  | opening | failed => cases hb
  | opened closes =>
    cases hb
    exact .opened closes
  | dropping closes =>
    cases hb
    exact .dropping closes
  | dropped closes =>
    cases hb
    exact .dropped closes
  | live closes closed =>
    cases hb
    exact .live closes closed
  | closed closes closed =>
    cases hb
    exact .closed closes closed

theorem Opening.Life.closeContext {op : Opening Op} {ctx : DocContext Op} (h : op.Life)
    (hctx : op.context = some ctx) (hopen : ctx.closed = false) :
    Opening.Life { op with
      backend := op.backend.map Backend.close
      context := some { ctx with closed := true, closeTimer := false } } := by
  cases h with
  | opening | failed | opened | dropping | dropped => cases hctx
  | @live b _ _ closes =>
    cases hctx
    exact @Opening.Life.closed Op b.close { ctx with closed := true, closeTimer := false } _
      (congrArg (· + 1) closes) rfl
  | closed _ closed =>
    cases hctx
    cases hopen.symm.trans closed

theorem Opening.slot_of_live {op : Opening Op} {ctx : DocContext Op}
    (hctx : op.context = some ctx) (hopen : ctx.closed = false) :
    op.slot = .live ctx.connections := by
  simp [Opening.slot, hctx, hopen]

theorem Opening.slot_of_closed {op : Opening Op} {ctx : DocContext Op}
    (hctx : op.context = some ctx) (hclosed : ctx.closed = true) :
    op.slot = .gone := by
  simp [Opening.slot, hctx, hclosed]

namespace Store

def slot? (s : Store Op) (x : Id) : Option (String × Slot) :=
  (s.openings x).map fun op => (op.docId, op.slot)

/-- The calls that hold a handle on the context. -/
def holders (s : Store Op) (x : Id) : Set Id := {c | s.calls c = some (.handle x false)}

/-- `closeAll` waits for all that is open, and leaves nothing. -/
def Shutdown (s : Store Op) : Prop :=
  match s.closeAllPromise with
  | none => s.closing = false
  | some (.openings pending) =>
    s.closing = true ∧ ∀ o docId, s.slot? o = some (docId, .opening) → o ∈ pending
  | some _ => s.closing = true ∧ ∀ x docId slot, s.slot? x = some (docId, slot) → slot = .gone

/-- The maps, the counts of connections and the flags tell what is open. -/
structure Sound (s : Store Op) : Prop where
  life : ∀ x op, s.openings x = some op → op.Life
  called : ∀ x, s.calls x = none → s.openings x = none
  flight : ∀ o docId, s.slot? o = some (docId, .opening) → s.openInFlight.get? docId = some o
  own : ∀ c docId, s.calls c = some (.waiting docId c) → s.openInFlight.get? docId = some c
  docs_iff : ∀ docId x,
    s.docs.get? docId = some x ↔ ∃ n, s.slot? x = some (docId, .live n)
  held : ∀ x docId n, s.slot? x = some (docId, .live n) → (s.holders x).encard = n
  lent : s.closing = false → ∀ c x, s.calls c = some (.handle x false) →
    ∃ docId n, s.slot? x = some (docId, .live n)
  shutdown : s.Shutdown

variable {s s' : Store Op} {o x y c : Id} {op op' : Opening Op} {ctx : DocContext Op}
variable {docId : String}

theorem Sound.empty : Sound ({} : Store Op) where
  life := nofun
  called _ _ := rfl
  flight := nofun
  own := nofun
  docs_iff _ _ := ⟨nofun, nofun⟩
  held := nofun
  lent _ := nofun
  shutdown := rfl

theorem Shutdown.transfer (h : s.Shutdown) (hclosing : s'.closing = s.closing)
    (hpromise : s'.closeAllPromise = s.closeAllPromise)
    (hopening : ∀ o docId, s'.slot? o = some (docId, .opening) →
      s.slot? o = some (docId, .opening))
    (hgone : (∀ x docId slot, s.slot? x = some (docId, slot) → slot = .gone) →
      ∀ x docId slot, s'.slot? x = some (docId, slot) → slot = .gone) : s'.Shutdown := by
  unfold Shutdown at h ⊢
  rw [hpromise, hclosing]
  split
  · rename_i hnone
    rw [hnone] at h
    exact h
  · rename_i pending hpending
    rw [hpending] at h
    exact ⟨h.1, fun o docId ho => h.2 o docId (hopening o docId ho)⟩
  · rename_i stage hne hstage
    rw [hstage] at h
    cases stage with
    | openings pending => exact absurd rfl (hne pending)
    | contexts pending => exact ⟨h.1, hgone h.2⟩
    | resolved => exact ⟨h.1, hgone h.2⟩

/-! ## One opening -/

theorem openings_setOpening :
    (s.setOpening x op).openings y = if y = x then some op else s.openings y :=
  Function.update_apply ..

theorem slot?_setOpening :
    (s.setOpening x op).slot? y = if y = x then some (op.docId, op.slot) else s.slot? y := by
  rw [slot?, openings_setOpening]
  split <;> rfl

theorem slot?_of_openings (hop : s.openings x = some op) :
    s.slot? x = some (op.docId, op.slot) := by
  rw [slot?, hop, Option.map_some]

theorem Sound.setOpening (h : s.Sound) (hop : s.openings x = some op) (hlife : op'.Life)
    (hdoc : op'.docId = op.docId) (hslot : op.slot.Goes op'.slot) :
    (s.setOpening x op').Sound := by
  have hx := slot?_of_openings hop
  have hlive : ∀ y docId n, (s.setOpening x op').slot? y = some (docId, .live n) ↔
      s.slot? y = some (docId, .live n) := by
    intro y docId n
    rw [slot?_setOpening]
    split
    · rename_i hy
      rw [hy, hx, hdoc]
      rcases hslot with hsame | ⟨hbefore, hafter⟩
      · rw [hsame]
      · simp [hbefore, hafter]
    · rfl
  have hopening : ∀ y docId, (s.setOpening x op').slot? y = some (docId, .opening) →
      s.slot? y = some (docId, .opening) := by
    intro y docId hy
    rw [slot?_setOpening] at hy
    split at hy
    · rename_i heq
      rw [heq, hx, ← hdoc]
      rcases hslot with hsame | ⟨-, hafter⟩
      · rwa [hsame] at hy
      · simp [hafter] at hy
    · exact hy
  have hgone : (∀ y docId slot, s.slot? y = some (docId, slot) → slot = .gone) →
      ∀ y docId slot, (s.setOpening x op').slot? y = some (docId, slot) → slot = .gone := by
    intro hall y docId slot hy
    rw [slot?_setOpening] at hy
    split at hy
    · cases hy
      rcases hslot with hsame | ⟨-, hafter⟩
      · exact hsame.trans (hall x _ _ hx)
      · exact hafter
    · exact hall y docId slot hy
  exact {
    life := fun y op'' hy => by
      rw [openings_setOpening] at hy
      split at hy
      · cases hy
        exact hlife
      · exact h.life y op'' hy
    called := fun y hy => by
      rw [openings_setOpening, if_neg]
      · exact h.called y hy
      · rintro rfl
        cases hop.symm.trans (h.called y hy)
    flight := fun y docId hy => h.flight y docId (hopening y docId hy)
    own := h.own
    docs_iff := fun docId y => by
      simp only [hlive]
      exact h.docs_iff docId y
    held := fun y docId n hy => h.held y docId n ((hlive y docId n).mp hy)
    lent := fun hclosing c y hc => by
      simp only [hlive]
      exact h.lent hclosing c y hc
    shutdown := h.shutdown.transfer rfl rfl hopening hgone }

/-! ## Calls and handles -/

theorem calls_setCall {call : Call} :
    (s.setCall c call).calls y = if y = c then some call else s.calls y :=
  Function.update_apply ..

theorem holders_setCall_of_ne {call : Call} (hold : s.calls c ≠ some (.handle x false))
    (hnew : call ≠ .handle x false) : (s.setCall c call).holders x = s.holders x := by
  ext y
  rw [holders, Set.mem_ofPred_eq, calls_setCall, holders, Set.mem_ofPred_eq]
  split
  · rename_i hy
    rw [hy]
    exact iff_of_false (fun heq => hnew (Option.some.inj heq)) hold
  · rfl

theorem holders_lend : (s.setCall c (.handle x false)).holders x = insert c (s.holders x) := by
  ext y
  rw [holders, Set.mem_ofPred_eq, calls_setCall, Set.mem_insert_iff]
  split
  · rename_i hy
    exact iff_of_true rfl (.inl hy)
  · rename_i hy
    exact (or_iff_right hy).symm

theorem holders_return : (s.setCall c (.handle x true)).holders x = s.holders x \ {c} := by
  ext y
  rw [holders, Set.mem_ofPred_eq, calls_setCall, Set.mem_sdiff, Set.mem_singleton_iff]
  split
  · rename_i hy
    exact iff_of_false nofun fun hmem => hmem.2 hy
  · rename_i hy
    exact (and_iff_left hy).symm

/-- A call goes on that holds no live context. -/
theorem Sound.setCall (h : s.Sound) {call : Call}
    (hown : ∀ docId, call = .waiting docId c → s.openInFlight.get? docId = some c)
    (hold : ∀ x, s.calls c = some (.handle x false) → ∀ docId n, s.slot? x ≠ some (docId, .live n))
    (hnew : ∀ x, call ≠ .handle x false) : (s.setCall c call).Sound where
  life := h.life
  called y hy := by
    rw [calls_setCall] at hy
    split at hy
    · cases hy
    · exact h.called y hy
  flight := h.flight
  own y docId hy := by
    rw [calls_setCall] at hy
    split at hy
    · rename_i heq
      cases hy
      rw [heq]
      exact hown docId (by rw [heq])
    · exact h.own y docId hy
  docs_iff := h.docs_iff
  held x docId n hx := by
    rw [holders_setCall_of_ne (fun hc => hold x hc docId n hx) (hnew x)]
    exact h.held x docId n hx
  lent hclosing y x hy := by
    rw [calls_setCall] at hy
    split at hy
    · exact absurd (Option.some.inj hy) (hnew x)
    · exact h.lent hclosing y x hy
  shutdown := h.shutdown.transfer rfl rfl (fun _ _ => id) id

theorem setContext_eq (hop : s.openings x = some op) :
    s.setContext x ctx = s.setOpening x { op with context := some ctx } := by
  rw [setContext, hop, Option.map_some, Store.setOpening]

theorem context?_of_openings (hop : s.openings x = some op) : s.context? x = op.context := by
  rw [context?, hop, Option.bind_some]

theorem context?_eq_some : s.context? x = some ctx ↔
    ∃ op, s.openings x = some op ∧ op.context = some ctx :=
  Option.bind_eq_some_iff

theorem docId_of_context (h : s.Sound) (hop : s.openings x = some op)
    (hctx : op.context = some ctx) : ctx.docId = op.docId := by
  cases h.life x op hop with
  | opening | failed | opened | dropping | dropped => cases hctx
  | live | closed =>
    cases hctx
    rfl

/-- A context changes and stays as open as it is; its connections are counted elsewhere. -/
theorem Sound.setContext (h : s.Sound) (ctx' : DocContext Op) (hctx : s.context? x = some ctx)
    (hdoc : ctx'.docId = ctx.docId) (hclosed : ctx'.closed = ctx.closed)
    (hconnections : ctx'.connections = ctx.connections) : (s.setContext x ctx').Sound := by
  obtain ⟨op, hop, hctx⟩ := context?_eq_some.mp hctx
  rw [setContext_eq hop]
  refine h.setOpening hop ((h.life x op hop).setContext hctx hdoc hclosed) rfl (.inl ?_)
  simp [Opening.slot, hctx, hclosed, hconnections]

/-- A call takes or gives back a handle on an open context. -/
theorem Sound.recount {call : Call} (h : s.Sound) (ctx' : DocContext Op)
    (hctx : s.context? x = some ctx) (hdoc : ctx'.docId = ctx.docId)
    (hopen : ctx.closed = false) (hopen' : ctx'.closed = false)
    (hcall : ∃ released, call = .handle x released)
    (hold : ∀ y, s.calls c = some (.handle y false) → y = x)
    (hcount : ((s.setCall c call).holders x).encard = ctx'.connections) :
    ((s.setContext x ctx').setCall c call).Sound := by
  obtain ⟨op, hop, hctx⟩ := context?_eq_some.mp hctx
  have hnew : Opening.slot { op with context := some ctx' } = .live ctx'.connections :=
    Opening.slot_of_live rfl hopen'
  have hslot : ∀ y, ((s.setContext x ctx').setCall c call).slot? y =
      if y = x then some (op.docId, .live ctx'.connections) else s.slot? y := fun y => by
    rw [← hnew, setContext_eq hop]
    exact slot?_setOpening
  have hx := slot?_of_openings hop
  rw [Opening.slot_of_live hctx hopen] at hx
  have hlive : ∀ y docId, (∃ n, ((s.setContext x ctx').setCall c call).slot? y =
      some (docId, .live n)) ↔ ∃ n, s.slot? y = some (docId, .live n) := fun y docId => by
    rw [hslot]
    split
    · rename_i hy
      rw [hy, hx]
      simp
    · rfl
  have hlife := (h.life x op hop).setContext hctx hdoc (hopen'.trans hopen.symm)
  obtain ⟨released, rfl⟩ := hcall
  exact {
    life := fun y op' hy => by
      change (s.setContext x ctx').openings y = some op' at hy
      rw [setContext_eq hop, openings_setOpening] at hy
      split at hy
      · cases hy
        exact hlife
      · exact h.life y op' hy
    called := fun y hy => by
      rw [calls_setCall] at hy
      split at hy
      · cases hy
      · change (s.setContext x ctx').openings y = none
        rw [setContext_eq hop, openings_setOpening, if_neg]
        · exact h.called y hy
        · rintro rfl
          cases hop.symm.trans (h.called y hy)
    flight := fun y docId hy => by
      rw [hslot] at hy
      split at hy
      · cases hy
      · exact h.flight y docId hy
    own := fun y docId hy => by
      rw [calls_setCall] at hy
      split at hy
      · cases hy
      · exact h.own y docId hy
    docs_iff := fun docId y => (h.docs_iff docId y).trans (hlive y docId).symm
    held := fun y docId n hy => by
      rw [hslot] at hy
      split at hy
      · rename_i heq
        cases hy
        rw [heq]
        exact hcount
      · rename_i hne
        have hother : ((s.setContext x ctx').setCall c (.handle x released)).holders y =
            s.holders y :=
          holders_setCall_of_ne (s := s.setContext x ctx') (fun hc => hne (hold y hc))
            fun heq => hne (by cases heq; rfl)
        rw [hother]
        exact h.held y docId n hy
    lent := fun hclosing y z hy => by
      rw [calls_setCall] at hy
      obtain ⟨docId, hz⟩ : ∃ docId n, s.slot? z = some (docId, .live n) := by
        split at hy
        · cases hy
          exact ⟨_, _, hx⟩
        · exact h.lent hclosing y z hy
      exact ⟨docId, (hlive z docId).mpr hz⟩
    shutdown := h.shutdown.transfer rfl rfl
      (fun o docId ho => by
        rw [hslot] at ho
        split at ho
        · cases ho
        · exact ho)
      fun hall => by cases hall x _ _ hx }

/-! ## A context closes -/

theorem closeContext_of_closed (hctx : s.context? x = some ctx) (hclosed : ctx.closed = true) :
    s.closeContext x = s := by
  obtain ⟨⟨docId, stage, backend, context⟩, hop, rfl⟩ := context?_eq_some.mp hctx
  simp [closeContext, hop, hclosed]

theorem closeContext_of_open (hop : s.openings x = some op) (hctx : op.context = some ctx)
    (hopen : ctx.closed = false) :
    s.closeContext x = { s.setOpening x { op with
        backend := op.backend.map Backend.close
        context := some { ctx with closed := true, closeTimer := false } } with
      docs := s.docs.erase ctx.docId } := by
  obtain ⟨docId, stage, backend, context⟩ := op
  cases hctx
  simp [closeContext, hop, hopen, Store.setOpening]

theorem closeContext_of_none (hctx : s.context? x = none) : s.closeContext x = s := by
  cases hop : s.openings x with
  | none => simp [closeContext, hop]
  | some op =>
    obtain ⟨docId, stage, backend, context⟩ := op
    rw [context?_of_openings hop] at hctx
    cases hctx
    simp [closeContext, hop]

theorem closing_closeContext : (s.closeContext x).closing = s.closing := by
  unfold closeContext
  split
  · split <;> rfl
  · rfl

/-- A context closes that no handle is on, or behind `closeAll`. -/
theorem Sound.closeContext (h : s.Sound)
    (hidle : ∀ docId n, s.slot? x = some (docId, .live n) → n = 0 ∨ s.closing = true) :
    (s.closeContext x).Sound := by
  cases hctx : s.context? x with
  | none => rwa [closeContext_of_none hctx]
  | some ctx =>
  cases hopen : ctx.closed with
  | true => rwa [closeContext_of_closed hctx hopen]
  | false =>
  obtain ⟨op, hop, hctx⟩ := context?_eq_some.mp hctx
  rw [closeContext_of_open hop hctx hopen]
  have hdoc := docId_of_context h hop hctx
  have hx : s.slot? x = some (ctx.docId, .live ctx.connections) := by
    rw [slot?_of_openings hop, Opening.slot_of_live hctx hopen, hdoc]
  obtain ⟨closed, hclosed⟩ : ∃ closed : Opening Op, closed = { op with
      backend := op.backend.map Backend.close
      context := some { ctx with closed := true, closeTimer := false } } := ⟨_, rfl⟩
  have hlife : closed.Life := hclosed ▸ (h.life x op hop).closeContext hctx hopen
  have hgone : closed.slot = .gone := Opening.slot_of_closed (by rw [hclosed]) rfl
  rw [← hclosed]
  have hslot : ∀ y, (s.setOpening x closed).slot? y =
      if y = x then some (closed.docId, .gone) else s.slot? y := fun y => by
    rw [slot?_setOpening, hgone]
  have hlive : ∀ y docId n, (s.setOpening x closed).slot? y = some (docId, .live n) ↔
      y ≠ x ∧ s.slot? y = some (docId, .live n) := fun y docId n => by
    rw [hslot]
    split
    · rename_i hy
      simp [hy]
    · rename_i hy
      simp [hy]
  exact {
    life := fun y op' hy => by
      change (s.setOpening x closed).openings y = some op' at hy
      rw [openings_setOpening] at hy
      split at hy
      · cases hy
        exact hlife
      · exact h.life y op' hy
    called := fun y hy => by
      change (s.setOpening x closed).openings y = none
      rw [openings_setOpening, if_neg]
      · exact h.called y hy
      · rintro rfl
        cases hop.symm.trans (h.called y hy)
    flight := fun y docId hy => by
      change (s.setOpening x closed).slot? y = some (docId, .opening) at hy
      rw [hslot] at hy
      split at hy
      · cases hy
      · exact h.flight y docId hy
    own := h.own
    docs_iff := fun docId y => by
      change (s.docs.erase ctx.docId).get? docId = some y ↔
        ∃ n, (s.setOpening x closed).slot? y = some (docId, .live n)
      simp only [hlive, exists_and_left, ← h.docs_iff, OrderedMap.get?_erase]
      have hxdoc := (h.docs_iff ctx.docId x).mpr ⟨_, hx⟩
      split
      · rename_i heq
        rw [heq, hxdoc]
        simp [eq_comm]
      · rename_i hne
        refine (and_iff_right_of_imp ?_).symm
        rintro hy rfl
        obtain ⟨n, hn⟩ := (h.docs_iff docId y).mp hy
        cases hx.symm.trans hn
        exact hne rfl
    held := fun y docId n hy => h.held y docId n ((hlive y docId n).mp hy).2
    lent := fun hclosing c y hc => by
      obtain ⟨docId, n, hy⟩ := h.lent hclosing c y hc
      refine ⟨docId, n, (hlive y docId n).mpr ⟨?_, hy⟩⟩
      rintro rfl
      -- The count of an idle context is zero, and the call is one of its holders.
      obtain rfl := (hidle docId n hy).resolve_right (by simp [show s.closing = false from hclosing])
      have hnone := Set.encard_eq_zero.mp (h.held y docId 0 hy)
      exact hnone.subset hc
    shutdown := h.shutdown.transfer rfl rfl
      (fun o docId ho => by
        change (s.setOpening x closed).slot? o = some (docId, .opening) at ho
        rw [hslot] at ho
        split at ho
        · cases ho
        · exact ho)
      fun hall => by cases hall x _ _ hx }

/-! ## The steps keep the store sound -/

/-- An opening starts; nothing of its document is open or opening. -/
theorem Sound.start (h : s.Sound) (hc : s.calls c = none) (hopen : s.closing ≠ true)
    (hflight : s.openInFlight.get? docId = none) :
    Sound { s with
      openings := Function.update s.openings c (some { docId })
      calls := Function.update s.calls c (some (.waiting docId c))
      openInFlight := s.openInFlight.set docId c } := by
  obtain ⟨s', hs⟩ : ∃ s', s' = { s with
      openings := Function.update s.openings c (some { docId })
      calls := Function.update s.calls c (some (.waiting docId c))
      openInFlight := s.openInFlight.set docId c } := ⟨_, rfl⟩
  rw [← hs]
  have hopenings : ∀ y, s'.openings y = if y = c then some { docId } else s.openings y :=
    fun y => hs ▸ Function.update_apply ..
  have hcalls : ∀ y, s'.calls y = if y = c then some (.waiting docId c) else s.calls y :=
    fun y => hs ▸ Function.update_apply ..
  have hinFlight : ∀ docId', s'.openInFlight.get? docId' =
      if docId' = docId then some c else s.openInFlight.get? docId' :=
    fun docId' => hs ▸ OrderedMap.get?_set ..
  have hslot : ∀ y, s'.slot? y = if y = c then some (docId, .opening) else s.slot? y :=
    fun y => hs ▸ slot?_setOpening
  have hfresh : s.slot? c = none := by rw [slot?, h.called c hc, Option.map_none]
  have hlive : ∀ y docId n, s'.slot? y = some (docId, .live n) ↔
      s.slot? y = some (docId, .live n) := fun y docId n => by
    rw [hslot]
    split
    · rename_i hy
      rw [hy, hfresh]
      simp
    · rfl
  exact {
    life := fun y op hy => by
      rw [hopenings] at hy
      split at hy
      · cases hy
        exact .opening
      · exact h.life y op hy
    called := fun y hy => by
      rw [hcalls] at hy
      rw [hopenings]
      split at hy
      · cases hy
      · rename_i hne
        rw [if_neg hne]
        exact h.called y hy
    flight := fun y docId' hy => by
      rw [hinFlight]
      rw [hslot] at hy
      split at hy
      · rename_i heq
        cases hy
        rw [if_pos rfl, heq]
      · rw [if_neg, h.flight y docId' hy]
        rintro rfl
        cases hflight.symm.trans (h.flight y docId' hy)
    own := fun y docId' hy => by
      rw [hinFlight]
      rw [hcalls] at hy
      split at hy
      · cases hy
        rw [if_pos rfl]
      · rw [if_neg, h.own y docId' hy]
        rintro rfl
        cases hflight.symm.trans (h.own y docId' hy)
    docs_iff := fun docId' y => by
      rw [show s'.docs = s.docs by rw [hs], h.docs_iff]
      exact exists_congr fun n => (hlive y docId' n).symm
    held := fun y docId' n hy => by
      rw [← h.held y docId' n ((hlive y docId' n).mp hy), hs]
      exact congrArg Set.encard
        (holders_setCall_of_ne (by rw [hc]; nofun) (show Call.waiting docId c ≠ _ by nofun))
    lent := fun hclosing z y hz => by
      rw [hcalls] at hz
      simp only [hlive]
      split at hz
      · cases hz
      · exact h.lent (by rwa [hs] at hclosing) z y hz
    shutdown := by
      have hshutdown := h.shutdown
      rw [hs]
      unfold Shutdown at hshutdown ⊢
      cases hpromise : s.closeAllPromise with
      | none =>
        rw [hpromise] at hshutdown
        exact hshutdown
      | some stage =>
        rw [hpromise] at hshutdown
        cases stage <;> exact absurd hshutdown.1 hopen }

theorem Sound.providerOpen (h : s.Sound) (hc : s.calls c = none) :
    (s.providerOpen c docId).Sound := by
  have hfree : ∀ x, s.calls c = some (.handle x false) →
      ∀ docId n, s.slot? x ≠ some (docId, .live n) := fun x hx => by cases hc.symm.trans hx
  unfold Store.providerOpen
  split
  · exact h.setCall (by simp) hfree (by simp)
  split
  · exact h.setCall (by simp) hfree (by simp)
  rename_i hopen
  split
  · exact h.setCall (by simp) hfree (by simp)
  split
  · rename_i hflight
    refine h.setCall ?_ hfree (by simp)
    rintro _ ⟨⟩
    exact hflight
  · rename_i hflight
    exact h.start hc hopen hflight

/-- The opening of a document that is not open sets up its context. -/
theorem Sound.setUp (h : s.Sound) (hop : s.openings o = some op) (hopening : op.slot = .opening)
    (hdocs : s.docs.get? op.docId = none) (hopen : s.closing ≠ true) (hdoc : op'.docId = op.docId)
    (hlife : op'.Life) (hnew : op'.slot = .live 0) :
    Sound { s.setOpening o op' with docs := s.docs.set op.docId o } := by
  obtain ⟨s', hs⟩ : ∃ s', s' = { s.setOpening o op' with docs := s.docs.set op.docId o } :=
    ⟨_, rfl⟩
  rw [← hs]
  have hopenings : ∀ y, s'.openings y = if y = o then some op' else s.openings y :=
    fun y => hs ▸ openings_setOpening
  have hslot : ∀ y, s'.slot? y = if y = o then some (op.docId, .live 0) else s.slot? y :=
    fun y => by
      rw [← hdoc, ← hnew, hs]
      exact slot?_setOpening
  have ho : s.slot? o = some (op.docId, .opening) := by rw [slot?_of_openings hop, hopening]
  have hunlent : s.holders o = ∅ := by
    refine Set.eq_empty_of_forall_notMem fun c hc => ?_
    obtain ⟨docId, n, hlive⟩ := h.lent (by simpa using hopen) c o hc
    cases ho.symm.trans hlive
  exact {
    life := fun y op'' hy => by
      rw [hopenings] at hy
      split at hy
      · cases hy
        exact hlife
      · exact h.life y op'' hy
    called := fun y hy => by
      have hnone := h.called y (by rwa [hs] at hy)
      rw [hopenings, if_neg, hnone]
      rintro rfl
      cases hop.symm.trans hnone
    flight := fun y docId hy => by
      rw [hslot] at hy
      rw [show s'.openInFlight = s.openInFlight by rw [hs]; rfl]
      split at hy
      · cases hy
      · exact h.flight y docId hy
    own := by
      rw [hs]
      exact h.own
    docs_iff := fun docId y => by
      rw [show s'.docs = s.docs.set op.docId o by rw [hs], OrderedMap.get?_set, hslot]
      split
      · rename_i heq
        subst heq
        split
        · rename_i hy
          simp [hy]
        · rename_i hy
          rw [← h.docs_iff, hdocs]
          simpa using Ne.symm hy
      · rename_i hne
        rw [h.docs_iff]
        split
        · rename_i hy
          rw [hy, ho]
          simp [Ne.symm hne]
        · rfl
    held := fun y docId n hy => by
      rw [show s'.holders y = s.holders y by rw [hs]; rfl]
      rw [hslot] at hy
      split at hy
      · rename_i heq
        cases hy
        rw [heq, hunlent, Set.encard_empty]
        rfl
      · exact h.held y docId n hy
    lent := fun hclosing c y hc => by
      obtain ⟨docId, n, hy⟩ := h.lent (by rwa [hs] at hclosing) c y (by rwa [hs] at hc)
      refine ⟨docId, n, ?_⟩
      rw [hslot, if_neg, hy]
      rintro rfl
      cases ho.symm.trans hy
    shutdown := by
      refine h.shutdown.transfer (by rw [hs]; rfl) (by rw [hs]; rfl) (fun y docId hy => ?_)
        fun hall => by cases hall o _ _ ho
      rw [hslot] at hy
      split at hy
      · cases hy
      · exact hy }

/-- An opening that has its backend gives it up. -/
theorem Sound.dropBackend {outcome : Except String Id} (h : s.Sound) (hop : s.openings o = some op)
    (hstage : op.stage = .peerOptions) :
    (s.setOpening o { op with
      stage := .closing outcome
      backend := op.backend.map Backend.close }).Sound := by
  cases h.life o _ hop with
  | opened closes =>
    exact h.setOpening hop (.dropping (b := Backend.close _) (congrArg (· + 1) closes)) rfl
      (.inl rfl)
  | opening | failed | dropping | dropped | live | closed => cases hstage

theorem Sound.optionsReady (h : s.Sound) (hop : s.openings o = some op)
    (hstage : op.stage = .peerOptions) : (s.optionsReady o op).Sound := by
  have hlife := h.life o _ hop
  unfold Store.optionsReady
  split
  · exact h.dropBackend hop hstage
  rename_i hopen
  split
  · exact h.dropBackend hop hstage
  rename_i hdocs
  refine h.setUp hop ?_ hdocs hopen rfl ?_ rfl
  · cases hlife with
    | opened closes => rfl
    | opening | failed | dropping | dropped | live | closed => cases hstage
  · cases hlife with
    | @opened docId _ closes => exact @Opening.Life.live Op _ { docId } _ closes rfl
    | opening | failed | dropping | dropped | live | closed => cases hstage

/-- An opening that has settled leaves the map. -/
theorem Sound.eraseOpening (h : s.Sound) (hflight : s.openInFlight.get? docId = some c)
    (hcalls : ∀ docId, s.calls c ≠ some (.waiting docId c))
    (hslot : ∀ docId, s.slot? c ≠ some (docId, .opening)) :
    Sound { s with openInFlight := s.openInFlight.erase docId } :=
  { h with
    flight := fun y docId' hy => by
      have hy' := h.flight y docId' hy
      rw [OrderedMap.get?_erase, if_neg, hy']
      rintro rfl
      cases hflight.symm.trans hy'
      exact hslot docId' hy
    own := fun y docId' hy => by
      have hy' := h.own y docId' hy
      rw [OrderedMap.get?_erase, if_neg, hy']
      rintro rfl
      cases hflight.symm.trans hy'
      exact hcalls docId' hy }

theorem Sound.resumed (h : s.Sound) (hc : s.calls c = some (.waiting docId o))
    (hop : s.openings o = some op) {outcome : Except String Id}
    (hstage : op.stage = .settled outcome) : (s.resumed c docId o outcome).Sound := by
  have hcall : (∀ docId o, Call.ofOutcome outcome ≠ .waiting docId o) ∧
      ∀ x released, Call.ofOutcome outcome ≠ .handle x released := by
    cases outcome <;> exact ⟨nofun, nofun⟩
  have hs : (s.setCall c (Call.ofOutcome outcome)).Sound :=
    h.setCall (fun docId heq => absurd heq (hcall.1 docId c))
      (fun x hx => by cases hc.symm.trans hx) fun x => hcall.2 x false
  unfold Store.resumed
  split
  · rename_i heq
    subst heq
    refine hs.eraseOpening (h.own o docId hc) (fun docId hwaiting => ?_) fun docId hopening => ?_
    · rw [calls_setCall, if_pos rfl, Option.some.injEq] at hwaiting
      exact hcall.1 _ _ hwaiting
    · rw [show (s.setCall o (Call.ofOutcome outcome)).slot? o = s.slot? o from rfl,
        slot?_of_openings hop] at hopening
      have hgone : op.slot ≠ .opening := by
        unfold Opening.slot
        rw [hstage]
        split
        · split <;> nofun
        · nofun
      exact hgone (by simpa using congrArg (Option.map Prod.snd) hopening)
  · exact hs

theorem slot?_of_open (h : s.Sound) (hctx : s.context? x = some ctx) (hopen : ctx.closed = false) :
    s.slot? x = some (ctx.docId, .live ctx.connections) := by
  obtain ⟨op, hop, hctx⟩ := context?_eq_some.mp hctx
  rw [slot?_of_openings hop, Opening.slot_of_live hctx hopen, docId_of_context h hop hctx]

theorem Sound.handedOut (h : s.Sound) (hc : s.calls c = some (.opened x))
    (hctx : s.context? x = some ctx) : (s.handedOut c x ctx).Sound := by
  unfold Store.handedOut
  split
  · exact h.setCall nofun (fun y hy => by cases hc.symm.trans hy) nofun
  · rename_i hguard
    rw [not_or, Bool.not_eq_true, Bool.not_eq_true] at hguard
    refine h.recount { ctx with connections := ctx.connections + 1, closeTimer := false } hctx
      rfl hguard.2 hguard.2 ⟨false, rfl⟩ (fun y hy => by cases hc.symm.trans hy) ?_
    have hnew : c ∉ s.holders x := fun hmem => by cases hc.symm.trans hmem
    rw [holders_lend, Set.encard_insert_of_notMem hnew, h.held x _ _ (slot?_of_open h hctx hguard.2)]
    rfl

theorem context?_setContext {ctx' : DocContext Op} (hctx : s.context? x = some ctx) :
    (s.setContext x ctx').context? y = if y = x then some ctx' else s.context? y := by
  obtain ⟨op, hop, hctx⟩ := context?_eq_some.mp hctx
  rw [context?, setContext_eq hop, openings_setOpening]
  split <;> rfl

theorem Sound.closeIdle (h : s.Sound) (hctx : s.context? x = some ctx)
    (hidle : ctx.connections = 0) : (s.closeContext x).Sound := by
  refine h.closeContext fun docId n hx => .inl ?_
  cases hopen : ctx.closed with
  | true =>
    obtain ⟨op, hop, hctx⟩ := context?_eq_some.mp hctx
    rw [slot?_of_openings hop, Opening.slot_of_closed hctx hopen] at hx
    cases hx
  | false =>
    rw [slot?_of_open h hctx hopen] at hx
    cases hx
    exact hidle

theorem Sound.scheduleClose {idleCloseMs : ℚ} (h : s.Sound) (hctx : s.context? x = some ctx)
    (hidle : ctx.connections = 0) : (s.scheduleClose idleCloseMs x).Sound := by
  rw [Store.scheduleClose, hctx]
  dsimp only
  split
  · exact h
  split
  · exact h.closeIdle hctx hidle
  split
  · exact h
  · exact h.setContext _ hctx rfl rfl rfl

theorem Sound.release {idleCloseMs : ℚ} (h : s.Sound) (hc : s.calls c = some (.handle x false))
    (hctx : s.context? x = some ctx) : (s.release idleCloseMs c x ctx).Sound := by
  unfold Store.release
  dsimp only
  split
  · rename_i hclosed
    refine h.setCall nofun (fun y hy docId n hslot => ?_) nofun
    cases hc.symm.trans hy
    obtain ⟨op, hop, hctx⟩ := context?_eq_some.mp hctx
    rw [slot?_of_openings hop, Opening.slot_of_closed hctx hclosed] at hslot
    cases hslot
  rename_i hopen
  rw [Bool.not_eq_true] at hopen
  have hcount : ((s.setCall c (.handle x true)).holders x).encard =
      ((ctx.connections - 1 : ℕ) : ℕ∞) := by
    have hmem : c ∈ s.holders x := hc
    rw [holders_return, Set.encard_sdiff_singleton_of_mem hmem,
      h.held x _ _ (slot?_of_open h hctx hopen), ENat.natCast_sub, Nat.cast_one]
  have hs := h.recount { ctx with connections := ctx.connections - 1 } hctx rfl hopen hopen
    ⟨true, rfl⟩ (fun y hy => by cases hc.symm.trans hy; rfl) hcount
  have hctx' : (s.setContext x { ctx with connections := ctx.connections - 1 }).context? x =
      some { ctx with connections := ctx.connections - 1 } :=
    (context?_setContext hctx).trans (if_pos rfl)
  split
  · exact hs
  rename_i hidle
  split
  · exact hs.closeIdle hctx' (Nat.eq_zero_of_not_pos hidle)
  · exact hs.scheduleClose hctx' (Nat.eq_zero_of_not_pos hidle)

theorem Sound.closeTimer (h : s.Sound) (hctx : s.context? x = some ctx) :
    (let s := s.setContext x { ctx with closeTimer := false }
      if 0 < ctx.connections then s else s.closeContext x).Sound := by
  have hs := h.setContext { ctx with closeTimer := false } hctx rfl rfl rfl
  dsimp only
  split
  · exact hs
  · rename_i hidle
    exact hs.closeIdle ((context?_setContext hctx).trans (if_pos rfl))
      (Nat.eq_zero_of_not_pos hidle)

/-! ## `closeAll` -/

theorem Sound.closeAll (h : s.Sound) :
    Sound { s with
      closing := true
      closeAllPromise := some (.openings s.openInFlight.values) } :=
  { h with
    lent := nofun
    shutdown := ⟨rfl, fun o docId ho =>
      OrderedMap.mem_values_iff.mpr ⟨docId, h.flight o docId ho⟩⟩ }

theorem context?_closeContext : (s.closeContext x).context? y =
    if y = x then (s.context? x).map DocContext.shut else s.context? y := by
  cases hctx : s.context? x with
  | none =>
    rw [closeContext_of_none hctx]
    split
    · rename_i hy
      rw [hy, hctx]
      rfl
    · rfl
  | some ctx =>
  cases hopen : ctx.closed with
  | true =>
    rw [closeContext_of_closed hctx hopen]
    split
    · rename_i hy
      rw [hy, hctx, Option.map_some, DocContext.shut, if_pos hopen]
    · rfl
  | false =>
    obtain ⟨op, hop, hctx⟩ := context?_eq_some.mp hctx
    rw [closeContext_of_open hop hctx hopen, context?]
    dsimp only
    rw [openings_setOpening]
    split
    · rw [Option.map_some, DocContext.shut, hopen]
      rfl
    · rfl

theorem closed_closeContext (hctx : (s.closeContext x).context? x = some ctx) :
    ctx.closed = true := by
  rw [context?_closeContext, if_pos rfl] at hctx
  obtain ⟨before, -, rfl⟩ := Option.map_eq_some_iff.mp hctx
  exact before.closed_shut

theorem slot?_closeContext_of_ne (hy : y ≠ x) : (s.closeContext x).slot? y = s.slot? y := by
  cases hctx : s.context? x with
  | none => rw [closeContext_of_none hctx]
  | some ctx =>
  cases hopen : ctx.closed with
  | true => rw [closeContext_of_closed hctx hopen]
  | false =>
  obtain ⟨op, hop, hctx⟩ := context?_eq_some.mp hctx
  rw [closeContext_of_open hop hctx hopen]
  exact slot?_setOpening.trans (if_neg hy)

theorem open_of_slot? {n : ℕ} (hx : s.slot? x = some (docId, .live n)) :
    ∃ ctx, s.context? x = some ctx ∧ ctx.closed = false ∧ ctx.connections = n := by
  obtain ⟨op, hop, hslot⟩ := Option.map_eq_some_iff.mp hx
  obtain ⟨-, hslot⟩ := Prod.mk.inj hslot
  rw [context?_of_openings hop]
  unfold Opening.slot at hslot
  split at hslot
  · rename_i ctx hctx
    split at hslot <;> cases hslot
    rename_i hopen
    exact ⟨ctx, hctx, by simpa using hopen, rfl⟩
  · split at hslot <;> cases hslot

theorem opening_of_slot? (hx : s.slot? x = some (docId, .opening)) :
    ∃ op, s.openings x = some op ∧ op.docId = docId ∧ ¬ op.stage.IsSettled := by
  obtain ⟨op, hop, hslot⟩ := Option.map_eq_some_iff.mp hx
  obtain ⟨rfl, hslot⟩ := Prod.mk.inj hslot
  refine ⟨op, hop, rfl, ?_⟩
  unfold Opening.slot at hslot
  split at hslot
  · split at hslot <;> cases hslot
  · split at hslot
    · cases hslot
    · assumption

theorem slot?_closeContext_live {n : ℕ} (hy : (s.closeContext x).slot? y = some (docId, .live n)) :
    y ≠ x ∧ s.slot? y = some (docId, .live n) := by
  have hne : y ≠ x := by
    rintro rfl
    obtain ⟨ctx, hctx, hopen, -⟩ := open_of_slot? hy
    cases hopen.symm.trans (closed_closeContext hctx)
  exact ⟨hne, slot?_closeContext_of_ne hne ▸ hy⟩

theorem slot?_closeContext_opening (hy : (s.closeContext x).slot? y = some (docId, .opening)) :
    s.slot? y = some (docId, .opening) := by
  rcases eq_or_ne y x with rfl | hne
  · cases hctx : s.context? y with
    | none => rwa [closeContext_of_none hctx] at hy
    | some ctx =>
    cases hopen : ctx.closed with
    | true => rwa [closeContext_of_closed hctx hopen] at hy
    | false =>
      obtain ⟨op, hop, hctx⟩ := context?_eq_some.mp hctx
      rw [closeContext_of_open hop hctx hopen] at hy
      cases hy.symm.trans (slot?_setOpening.trans
        ((if_pos rfl).trans (congrArg (fun slot => some (_, slot)) (Opening.slot_of_closed rfl rfl))))
  · rwa [slot?_closeContext_of_ne hne] at hy

theorem Sound.closeContexts {l : List Id} (h : s.Sound) (hclosing : s.closing = true) :
    (s.closeContexts l).Sound := by
  induction l generalizing s with
  | nil => exact h
  | cons x l ih =>
    exact ih (h.closeContext fun _ _ _ => .inr hclosing) (closing_closeContext.trans hclosing)

theorem closing_closeContexts {l : List Id} : (s.closeContexts l).closing = s.closing := by
  induction l generalizing s with
  | nil => rfl
  | cons x l ih => exact ih.trans closing_closeContext

theorem slot?_closeContexts_live {l : List Id} {n : ℕ}
    (hy : (s.closeContexts l).slot? y = some (docId, .live n)) :
    y ∉ l ∧ s.slot? y = some (docId, .live n) := by
  induction l generalizing s with
  | nil => exact ⟨List.not_mem_nil, hy⟩
  | cons x l ih =>
    obtain ⟨hmem, hy⟩ := ih hy
    obtain ⟨hne, hy⟩ := slot?_closeContext_live hy
    exact ⟨List.not_mem_cons_of_ne_of_not_mem hne hmem, hy⟩

theorem slot?_closeContexts_opening {l : List Id}
    (hy : (s.closeContexts l).slot? y = some (docId, .opening)) :
    s.slot? y = some (docId, .opening) := by
  induction l generalizing s with
  | nil => exact hy
  | cons x l ih => exact slot?_closeContext_opening (ih hy)

/-- Once the openings have settled, no context is left. -/
theorem Sound.openingsSettled {pending : List Id} (h : s.Sound)
    (hpromise : s.closeAllPromise = some (.openings pending))
    (hsettled : ∀ o ∈ pending, ∀ op ∈ s.openings o, op.stage.IsSettled) :
    Sound { s.closeContexts s.docs.values with
      closeAllPromise := some (.contexts s.docs.values) } := by
  have hshutdown := h.shutdown
  rw [Shutdown, hpromise] at hshutdown
  obtain ⟨hclosing, hpending⟩ := hshutdown
  have hs := h.closeContexts (l := s.docs.values) hclosing
  refine { hs with shutdown := ⟨closing_closeContexts.trans hclosing, ?_⟩ }
  rintro x docId (_ | n | _) hx
  · have hopening := slot?_closeContexts_opening hx
    obtain ⟨op, hop, -, hstage⟩ := opening_of_slot? hopening
    exact absurd (hsettled x (hpending x docId hopening) op hop) hstage
  · obtain ⟨hmem, hlive⟩ := slot?_closeContexts_live hx
    have hdocs := (h.docs_iff docId x).mpr ⟨n, hlive⟩
    exact absurd (OrderedMap.mem_values_iff.mpr ⟨docId, hdocs⟩) hmem
  · rfl

theorem Sound.contextsClosed {pending : List Id} (h : s.Sound)
    (hpromise : s.closeAllPromise = some (.contexts pending)) :
    Sound { s with closeAllPromise := some .resolved } := by
  have hshutdown := h.shutdown
  rw [Shutdown, hpromise] at hshutdown
  exact { h with shutdown := hshutdown }

theorem Sound.step {idleCloseMs : ℚ} {e : Event Op} (h : s.Sound)
    (hstep : s.step idleCloseMs e = some s') : s'.Sound := by
  cases e with
  | openDoc c docId =>
    simp only [Store.step] at hstep
    split at hstep <;> cases hstep
    rename_i hc
    exact h.providerOpen hc
  | backendOpened o =>
    simp only [Store.step] at hstep
    split at hstep <;> cases hstep
    rename_i hop
    cases h.life o _ hop
    exact h.setOpening hop (.opened rfl) rfl (.inl rfl)
  | backendFailed o message =>
    simp only [Store.step] at hstep
    split at hstep <;> cases hstep
    rename_i hop
    cases h.life o _ hop
    exact h.setOpening hop .failed rfl (.inr ⟨rfl, rfl⟩)
  | optionsReady o =>
    simp only [Store.step] at hstep
    split at hstep <;> cases hstep
    rename_i hop
    exact h.optionsReady hop rfl
  | optionsFailed o message =>
    simp only [Store.step] at hstep
    split at hstep <;> cases hstep
    rename_i hop
    exact h.dropBackend hop rfl
  | closeSettled x =>
    simp only [Store.step] at hstep
    split at hstep
    · rename_i hop
      split at hstep <;> cases hstep
      exact h.setOpening hop ((h.life x _ hop).closeSettled rfl) rfl (.inl rfl)
    · cases hstep
  | backendClosed o =>
    simp only [Store.step] at hstep
    split at hstep
    · rename_i hop
      split at hstep <;> cases hstep
      cases h.life o _ hop with
      | dropping closes => exact h.setOpening hop (.dropped closes) rfl (.inr ⟨rfl, rfl⟩)
    · cases hstep
  | resumed c =>
    simp only [Store.step] at hstep
    split at hstep
    · rename_i hc
      split at hstep <;> cases hstep
      rename_i hop
      exact h.resumed hc hop rfl
    · cases hstep
  | handedOut c =>
    simp only [Store.step] at hstep
    split at hstep
    · rename_i hc
      obtain ⟨ctx, hctx, rfl⟩ := Option.map_eq_some_iff.mp hstep
      exact h.handedOut hc hctx
    · cases hstep
  | release c =>
    simp only [Store.step] at hstep
    split at hstep
    · rename_i hc
      obtain ⟨ctx, hctx, rfl⟩ := Option.map_eq_some_iff.mp hstep
      exact h.release hc hctx
    · cases hstep
      exact h
    · cases hstep
  | closeTimer x =>
    simp only [Store.step] at hstep
    split at hstep
    · rename_i hctx
      split at hstep <;> cases hstep
      exact h.closeTimer hctx
    · cases hstep
  | closeAll =>
    simp only [Store.step] at hstep
    split at hstep <;> cases hstep
    · exact h.closeAll
    · exact h
  | openingsSettled =>
    simp only [Store.step] at hstep
    split at hstep
    · rename_i hpromise
      split at hstep <;> cases hstep
      rename_i hsettled
      exact h.openingsSettled hpromise hsettled
    · cases hstep
  | contextsClosed =>
    simp only [Store.step] at hstep
    split at hstep
    · rename_i hpromise
      split at hstep <;> cases hstep
      exact h.contextsClosed hpromise
    · cases hstep
  | applyOps c ops =>
    simp only [Store.step] at hstep
    split at hstep
    · obtain ⟨ctx, hctx, rfl⟩ := Option.map_eq_some_iff.mp hstep
      split
      · exact h
      · exact h.setContext _ hctx rfl rfl rfl
    · cases hstep
  | applyStarts x =>
    simp only [Store.step] at hstep
    split at hstep <;> cases hstep
    rename_i hctx
    exact h.setContext _ hctx rfl rfl rfl
  | applySettles x =>
    simp only [Store.step] at hstep
    split at hstep <;> cases hstep
    rename_i hctx
    exact h.setContext _ hctx rfl rfl rfl

/-! ## Runs -/

theorem sound_run {idleCloseMs : ℚ} {events : List (Event Op)}
    (hrun : run idleCloseMs events = some s) : s.Sound := by
  unfold run at hrun
  generalize hstart : ({} : Store Op) = start at hrun
  have hs : start.Sound := hstart ▸ .empty
  clear hstart
  induction events generalizing start with
  | nil =>
    cases hrun
    exact hs
  | cons e events ih =>
    obtain ⟨next, hnext, hrun⟩ := Option.bind_eq_some_iff.mp hrun
    exact ih next hrun (hs.step hnext)

/-- The openings of a document are one at a time, and so are the contexts that are not closed; a
backend is closed once, when nothing needs it any more; and `closeAll` leaves none open. -/
structure LifecycleKept (s : Store Op) : Prop where
  one_opening : ∀ o o' op op', s.openings o = some op → s.openings o' = some op' →
    ¬ op.stage.IsSettled → ¬ op'.stage.IsSettled → op.docId = op'.docId → o = o'
  one_live : ∀ x x' ctx ctx', s.context? x = some ctx → s.context? x' = some ctx' →
    ctx.closed = false → ctx'.closed = false → ctx.docId = ctx'.docId → x = x'
  held_open : s.closeAllPromise = none → ∀ c x, s.calls c = some (.handle x false) →
    ∃ b, s.backend? x = some b ∧ b.closes = 0
  closed_once : ∀ x b, s.backend? x = some b → b.closes ≤ 1
  all_closed : s.closeAllPromise = some .resolved → ∀ x b, s.backend? x = some b → b.closes = 1

theorem slot_of_unsettled (h : op.Life) (hstage : ¬ op.stage.IsSettled) : op.slot = .opening := by
  cases h with
  | opening | opened | dropping => rfl
  | failed | dropped | live | closed => exact absurd trivial hstage

/-- A backend is closed with what it is for. -/
theorem closes_of_backend? {b : Backend} (h : s.Sound) (hb : s.backend? x = some b) :
    b.closes = 1 ∨ b.closes = 0 ∧ ∃ docId slot, s.slot? x = some (docId, slot) ∧ slot ≠ .gone := by
  obtain ⟨op, hop, hb⟩ := Option.bind_eq_some_iff.mp hb
  have hslot := slot?_of_openings hop
  cases h.life x op hop with
  | opening | failed => cases hb
  | opened closes =>
    cases hb
    exact .inr ⟨closes, _, _, hslot, nofun⟩
  | dropping closes | dropped closes | closed closes =>
    cases hb
    exact .inl closes
  | live closes closed =>
    cases hb
    rw [Opening.slot_of_live rfl closed] at hslot
    exact .inr ⟨closes, _, _, hslot, nofun⟩

theorem backend?_of_open (h : s.Sound) (hctx : s.context? x = some ctx)
    (hopen : ctx.closed = false) : ∃ b, s.backend? x = some b ∧ b.closes = 0 := by
  obtain ⟨op, hop, hctx⟩ := context?_eq_some.mp hctx
  rw [backend?, hop, Option.bind_some]
  cases h.life x op hop with
  | opening | failed | opened | dropping | dropped => cases hctx
  | live closes => exact ⟨_, rfl, closes⟩
  | closed _ closed =>
    cases hctx
    cases hopen.symm.trans closed

theorem Sound.lifecycleKept (h : s.Sound) : s.LifecycleKept where
  one_opening o o' op op' hop hop' hstage hstage' hdoc := by
    have ho := slot?_of_openings hop
    have ho' := slot?_of_openings hop'
    rw [slot_of_unsettled (h.life o op hop) hstage] at ho
    rw [slot_of_unsettled (h.life o' op' hop') hstage', ← hdoc] at ho'
    exact Option.some.inj ((h.flight o _ ho).symm.trans (h.flight o' _ ho'))
  one_live x x' ctx ctx' hctx hctx' hopen hopen' hdoc := by
    have hx := (h.docs_iff _ x).mpr ⟨_, slot?_of_open h hctx hopen⟩
    have hx' := (h.docs_iff _ x').mpr ⟨_, slot?_of_open h hctx' hopen'⟩
    rw [← hdoc] at hx'
    exact Option.some.inj (hx.symm.trans hx')
  held_open hpromise c x hc := by
    have hshutdown := h.shutdown
    rw [Shutdown, hpromise] at hshutdown
    obtain ⟨docId, n, hx⟩ := h.lent hshutdown c x hc
    obtain ⟨ctx, hctx, hopen, -⟩ := open_of_slot? hx
    exact backend?_of_open h hctx hopen
  closed_once x b hb := by
    rcases closes_of_backend? h hb with hone | ⟨hzero, -⟩ <;> omega
  all_closed hpromise x b hb := by
    have hshutdown := h.shutdown
    rw [Shutdown, hpromise] at hshutdown
    rcases closes_of_backend? h hb with hone | ⟨-, docId, slot, hx, hslot⟩
    · exact hone
    · exact absurd (hshutdown.2 x docId slot hx) hslot

/-- Whatever the order of calls, timers and promises. -/
theorem run_lifecycleKept {idleCloseMs : ℚ} {events : List (Event Op)}
    (hrun : run idleCloseMs events = some s) : s.LifecycleKept :=
  (sound_run hrun).lifecycleKept

/-- A document is opened again while its last handle is given back, and the store shuts down. -/
theorem run_lifecycleKept_reopened :
    let events : List (Event Unit) := [.openDoc 0 "a", .openDoc 1 "a", .backendOpened 0,
      .optionsReady 0, .resumed 0, .handedOut 0, .release 0, .openDoc 2 "a", .resumed 1,
      .handedOut 1, .backendOpened 2, .closeAll, .optionsReady 2, .closeSettled 2,
      .backendClosed 2, .openingsSettled, .contextsClosed]
    ∃ hrun : (run 0 events).isSome = true, ((run 0 events).get hrun).LifecycleKept :=
  ⟨rfl, run_lifecycleKept (Option.some_get _).symm⟩

end Store

end DocStore

end Sync

end Treecrdt
