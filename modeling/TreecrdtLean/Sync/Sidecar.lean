import TreecrdtLean.Auth.Capability
import TreecrdtLean.Sync.Protobuf
import TreecrdtLean.Sync.Relay

/-!
# Transactions of the sidecar stores (`proof-material/sqlite.ts`)

`storePendingOps`, `deletePendingOps` and `storeOpAuth` are a `BEGIN`, a statement for each entry and
a `COMMIT`, or a `ROLLBACK` when something throws in between; `applyOps` is a statement for each
chunk. All run over one connection, which has one transaction, and other calls go on at every
`await`. Nothing keeps a call out of the transaction of another: its `BEGIN` fails there, and what
it writes is committed or rolled back with the other call.

Where no call issues a statement while another call's transaction is open, calls do not meet
(`run_isolated`).

Statements succeed, but for a `BEGIN` in a transaction; so the bulk statement of `applyOps` never
falls back to one operation at a time.
-/

namespace Treecrdt

namespace Sync

namespace Sidecar

open Auth

/-! ## The connection -/

/-- A write, with its parameters. -/
inductive Statement where
  | insertPending (docId : String) (opRef op sig : Bytes) (proofRef : Option Bytes)
    (reason : String) (message : Option String) (createdAtMs : ℤ)
  | deletePending (docId : String) (opRef : Bytes)
  | insertOpAuth (docId : String) (opRef sig : Bytes) (proofRef : Option Bytes) (createdAtMs : ℤ)
  | appendOps (payload : String)
  deriving DecidableEq

/-- The name of a call. -/
abbrev Id := ℕ

/-- The writes of a connection, each with the call that issued it. -/
abbrev Writes := List (Id × Statement)

structure Conn where
  /-- What is committed. -/
  db : Writes := []
  /-- The open transaction: the call that began it, and what was written since. -/
  transaction : Option (Id × Writes) := none

namespace Conn

/-- `BEGIN`; none: "cannot start a transaction within a transaction". -/
def begin (c : Id) (conn : Conn) : Option Conn :=
  match conn.transaction with
  | none => some { conn with transaction := some (c, []) }
  | some _ => none

def commit (conn : Conn) : Conn :=
  match conn.transaction with
  | some (_, writes) => { db := conn.db ++ writes }
  | none => conn

def rollback (conn : Conn) : Conn := { conn with transaction := none }

def write (c : Id) (statement : Statement) (conn : Conn) : Conn :=
  match conn.transaction with
  | some (owner, writes) => { conn with transaction := some (owner, writes ++ [(c, statement)]) }
  | none => { conn with db := conn.db ++ [(c, statement)] }

/-- What the open transaction has written. -/
def pending (conn : Conn) : Writes := conn.transaction.elim [] Prod.snd

end Conn

/-- What a call has among the writes. -/
def Writes.of (c : Id) (writes : Writes) : List Statement :=
  (writes.filter (·.1 = c)).map Prod.snd

/-! ## The calls -/

inductive Failure where
  /-- A `BEGIN` failed. -/
  | nested
  | thrown (message : String)
  deriving DecidableEq

/-- What makes a statement, at the time `nowMs()`; it may throw. -/
abbrev Item := ℤ → Except String Statement

/-- Where a call is. -/
inductive Task where
  /-- Before `BEGIN`. -/
  | start (items : List Item)
  /-- In the transaction; behind the items comes `COMMIT`. -/
  | body (items : List Item)
  /-- Without a transaction. -/
  | plain (items : List Item)
  /-- Awaits its last statement. -/
  | ending (outcome : Except Failure Unit)
  | settled (outcome : Except Failure Unit)

def Task.items : Task → List Item
  | .start items | .body items | .plain items => items
  | .ending _ | .settled _ => []

structure Call where
  /-- What the call was started with. -/
  items : List Item
  task : Task
  /-- What it has written, and not rolled back. -/
  written : List Statement := []

structure PendingOp where
  op : Interface.Operation
  auth : OpAuth
  reason : String
  message : Option String

/-- What the stores and `applyOps` use, and how many operations a bulk statement has. -/
structure Deps where
  crypto : Crypto
  toBinary : V0.Proto.Operation → Bytes
  buildAppendOpsPayload : List Interface.Operation → Except String String
  maxBulkOps : ℕ := 5000

variable (deps : Deps)

def encodeTreecrdtSyncV0Operation (op : Interface.Operation) : Except String Bytes := do
  return deps.toBinary (← V0.toProtoOperation op)

/-- `BEGIN`, the items and `COMMIT`; nothing for no item. -/
def transaction (items : List Item) : Task :=
  if items.length = 0 then .settled (.ok ()) else .start items

def storePendingOps (docId : String) (pending : List PendingOp) : Task :=
  transaction (pending.map fun p now => do
    let opRef ← opRefForOp deps.crypto docId p.op
    let opBytes ← encodeTreecrdtSyncV0Operation deps p.op
    return .insertPending docId opRef opBytes p.auth.sig p.auth.proofRef p.reason p.message now)

def deletePendingOps (docId : String) (ops : List Interface.Operation) : Task :=
  transaction (ops.map fun op _ => do
    return .deletePending docId (← opRefForOp deps.crypto docId op))

def storeOpAuth (docId : String) (entries : List (Bytes × OpAuth)) : Task :=
  transaction (entries.map fun e now =>
    return .insertOpAuth docId e.1 e.2.sig e.2.proofRef now)

/-- `treecrdtAppendOps`, from `appendMany`. -/
def applyOps (ops : List Interface.Operation) : Task :=
  if ops.length = 0 then .settled (.ok ())
  else if ops.any fun op => V0.isDelete op.kind && (op.metadata.knownState.getD []).isEmpty then
    .settled (.error (.thrown "treecrdt: delete operations require meta.knownState"))
  else .plain ((ops.toChunks deps.maxBulkOps).map fun chunk _ => do
    return .appendOps (← deps.buildAppendOpsPayload chunk))

inductive Request where
  | storePendingOps (docId : String) (pending : List PendingOp)
  | deletePendingOps (docId : String) (ops : List Interface.Operation)
  | storeOpAuth (docId : String) (entries : List (Bytes × OpAuth))
  | applyOps (ops : List Interface.Operation)

def Request.task : Request → Task
  | .storePendingOps docId pending => Sidecar.storePendingOps deps docId pending
  | .deletePendingOps docId ops => Sidecar.deletePendingOps deps docId ops
  | .storeOpAuth docId entries => Sidecar.storeOpAuth docId entries
  | .applyOps ops => Sidecar.applyOps deps ops

/-! ## Steps -/

/-- A call goes on to its next `await`. -/
def advance (c : Id) (now : ℤ) (conn : Conn) (call : Call) : Option (Conn × Call) :=
  match call.task with
  | .start items =>
    match conn.begin c with
    | some conn => some (conn, { call with task := .body items })
    | none => some (conn, { call with task := .ending (.error .nested) })
  | .body [] => some (conn.commit, { call with task := .ending (.ok ()) })
  | .body (item :: rest) =>
    match item now with
    | .ok statement =>
      some (conn.write c statement,
        { call with task := .body rest, written := call.written ++ [statement] })
    | .error message =>
      some (conn.rollback,
        { call with task := .ending (.error (.thrown message)), written := [] })
  | .plain [] => some (conn, { call with task := .settled (.ok ()) })
  | .plain (item :: rest) =>
    match item now with
    | .ok statement =>
      some (conn.write c statement,
        { call with task := .plain rest, written := call.written ++ [statement] })
    | .error message => some (conn, { call with task := .settled (.error (.thrown message)) })
  | .ending outcome => some (conn, { call with task := .settled outcome })
  | .settled _ => none

/-- The next step of the call issues a statement. -/
def Task.Issues (now : ℤ) : Task → Prop
  | .start _ | .body _ => True
  | .plain (item :: _) => (item now).isOk = true
  | .plain [] | .ending _ | .settled _ => False

structure State where
  conn : Conn := {}
  calls : Id → Option Call := fun _ => none

inductive Event where
  | call (c : Id) (request : Request)
  /-- What the call awaits has settled. -/
  | resume (c : Id) (now : ℤ)

namespace State

def step (s : State) : Event → Option State
  | .call c request =>
    match s.calls c with
    | none =>
      let task := request.task deps
      some { s with calls := Function.update s.calls c (some { items := task.items, task }) }
    | some _ => none
  | .resume c now =>
    (s.calls c).bind fun call =>
      (advance c now s.conn call).map fun next =>
        { conn := next.1, calls := Function.update s.calls c (some next.2) }

def run (events : List Event) : Option State := events.foldlM (step deps) {}

/-- Calls do not meet. -/
structure Isolated (s : State) : Prop where
  /-- A call that has resolved has all its statements in the database. -/
  durable : ∀ c call, s.calls c = some call → call.task = .settled (.ok ()) →
    List.Forall₂ (fun item statement => ∃ now, item now = .ok statement) call.items
      (s.conn.db.of c)
  /-- No call fails as another has its transaction open. -/
  unhindered : ∀ c call, s.calls c = some call →
    call.task ≠ .ending (.error .nested) ∧ call.task ≠ .settled (.error .nested)
  /-- What a call has written is there, unless it has rolled it back itself. -/
  kept : ∀ c call, s.calls c = some call →
    s.conn.db.of c ++ s.conn.pending.of c = call.written

/-- The step issues no statement while another call's transaction is open. -/
def Apart (s : State) : Event → Prop
  | .call _ _ => True
  | .resume c now => ∀ call, s.calls c = some call → call.task.Issues now →
    ∀ owner writes, s.conn.transaction = some (owner, writes) → owner = c

end State

/-! ## What a connection has of a call -/

theorem Writes.of_append {c : Id} {l l' : Writes} :
    Writes.of c (l ++ l') = Writes.of c l ++ Writes.of c l' := by
  rw [of, List.filter_append, List.map_append, ← of, ← of]

theorem Writes.of_singleton {c : Id} {statement : Statement} :
    Writes.of c [(c, statement)] = [statement] := by
  simp [of]

/-- The writes of one call are not another's. -/
theorem Writes.of_eq_nil {c o : Id} {l : Writes} (h : ∀ x ∈ l, x.1 = o) (hne : c ≠ o) :
    Writes.of c l = [] := by
  rw [of, List.map_eq_nil_iff, List.filter_eq_nil_iff]
  intro x hx
  simpa [h x hx] using hne.symm

/-- What the connection has of a call. -/
def Conn.of (c : Id) (conn : Conn) : List Statement := conn.db.of c ++ conn.pending.of c

variable {conn conn' : Conn} {c d : Id} {statement : Statement} {writes : Writes}

theorem Conn.pending_of_none (h : conn.transaction = none) : conn.pending = [] := by
  rw [pending, h]
  rfl

theorem Conn.pending_of_some (h : conn.transaction = some (c, writes)) :
    conn.pending = writes := by
  rw [pending, h]
  rfl

theorem Conn.of_commit : conn.commit.of d = conn.of d := by
  cases h : conn.transaction with
  | none => rw [commit, h]
  | some transaction =>
    obtain ⟨c, writes⟩ := transaction
    rw [of, of, pending_of_some h, commit, h, Writes.of_append]
    exact List.append_nil _

theorem Conn.write_of_none (h : conn.transaction = none) :
    conn.write c statement = { conn with db := conn.db ++ [(c, statement)] } := by
  rw [write, h]

theorem Conn.write_of_some (h : conn.transaction = some (d, writes)) :
    conn.write c statement =
      { conn with transaction := some (d, writes ++ [(c, statement)]) } := by
  rw [write, h]

theorem Conn.of_of_none (h : conn.transaction = none) : conn.of d = conn.db.of d := by
  rw [of, pending_of_none h]
  exact List.append_nil _

theorem Conn.of_of_some (h : conn.transaction = some (c, writes)) :
    conn.of d = conn.db.of d ++ writes.of d := by
  rw [of, pending_of_some h]

theorem Conn.of_write :
    (conn.write c statement).of d = conn.of d ++ Writes.of d [(c, statement)] := by
  cases h : conn.transaction with
  | none => rw [write_of_none h, of_of_none h, of_of_none (by exact h), Writes.of_append]
  | some transaction =>
    obtain ⟨o, writes⟩ := transaction
    rw [write_of_some h, of_of_some h, of_of_some rfl, Writes.of_append, List.append_assoc]

theorem Conn.of_write_self : (conn.write c statement).of c = conn.of c ++ [statement] := by
  rw [of_write, Writes.of_singleton]

theorem Conn.of_write_of_ne (hne : d ≠ c) : (conn.write c statement).of d = conn.of d := by
  rw [of_write, Writes.of_eq_nil (o := c) (fun x hx => by rw [List.mem_singleton.mp hx]) hne,
    List.append_nil]

/-! ## Calls that stay apart -/

/-- The statement is what the item makes, at some time. -/
def Issued (item : Item) (statement : Statement) : Prop := ∃ now, item now = .ok statement

/-- A call has written what is behind it. -/
def Call.Progress (call : Call) : Prop :=
  match call.task with
  | .start rest => rest = call.items ∧ call.written = []
  | .body rest | .plain rest =>
    ∃ done, call.items = done ++ rest ∧ List.Forall₂ Issued done call.written
  | .ending (.ok ()) | .settled (.ok ()) => List.Forall₂ Issued call.items call.written
  | .ending (.error _) | .settled (.error _) => True

namespace State

/-- The open transaction is of a call in its body, and has nothing of another call. -/
structure Sound (s : State) : Prop where
  owner : ∀ o writes, s.conn.transaction = some (o, writes) →
    (∃ call rest, s.calls o = some call ∧ call.task = .body rest) ∧ ∀ x ∈ writes, x.1 = o
  body : ∀ c call rest, s.calls c = some call → call.task = .body rest →
    (∃ writes, s.conn.transaction = some (c, writes)) ∧ s.conn.db.of c = []
  fresh : ∀ c, s.calls c = none → s.conn.of c = []
  unhindered : ∀ c call, s.calls c = some call →
    call.task ≠ .ending (.error .nested) ∧ call.task ≠ .settled (.error .nested)
  kept : ∀ c call, s.calls c = some call → s.conn.of c = call.written
  progress : ∀ c call, s.calls c = some call → call.Progress

variable {s s' : State} {call call' : Call}

theorem Sound.empty : Sound {} where
  owner := nofun
  body := nofun
  fresh _ _ := rfl
  unhindered := nofun
  kept := nofun
  progress := nofun

theorem Sound.isolated (h : s.Sound) : s.Isolated where
  durable c call hc htask := by
    have hprogress := h.progress c call hc
    rw [Call.Progress, htask] at hprogress
    have hpending : s.conn.pending.of c = [] := by
      cases htransaction : s.conn.transaction with
      | none =>
        rw [Conn.pending_of_none htransaction]
        rfl
      | some transaction =>
        obtain ⟨o, writes⟩ := transaction
        obtain ⟨⟨owner, rest, ho, hbody⟩, hwrites⟩ := h.owner o writes htransaction
        rw [Conn.pending_of_some htransaction]
        refine Writes.of_eq_nil hwrites ?_
        rintro rfl
        cases hc.symm.trans ho
        cases htask.symm.trans hbody
    have hkept := h.kept c call hc
    rw [Conn.of, hpending, List.append_nil] at hkept
    rw [hkept]
    exact hprogress
  unhindered := h.unhindered
  kept := h.kept

/-- A call goes on; the others see nothing of it. -/
theorem Sound.update (h : s.Sound)
    (howner : ∀ o writes, conn'.transaction = some (o, writes) →
      (o = c ∧ (∃ rest, call'.task = .body rest) ∨
        o ≠ c ∧ ∃ writes, s.conn.transaction = some (o, writes)) ∧ ∀ x ∈ writes, x.1 = o)
    (hbody : ∀ rest, call'.task = .body rest →
      (∃ writes, conn'.transaction = some (c, writes)) ∧ conn'.db.of c = [])
    (hothers : ∀ d, d ≠ c → conn'.of d = s.conn.of d)
    (hdb : ∀ d, d ≠ c → s.conn.db.of d = [] → conn'.db.of d = [])
    (hopen : ∀ d, d ≠ c → ∀ writes, s.conn.transaction = some (d, writes) →
      conn'.transaction = some (d, writes))
    (hunhindered : call'.task ≠ .ending (.error .nested) ∧
      call'.task ≠ .settled (.error .nested))
    (hkept : conn'.of c = call'.written) (hprogress : call'.Progress) :
    Sound { conn := conn', calls := Function.update s.calls c (some call') } := by
  have hcalls : ∀ d call, Function.update s.calls c (some call') d = some call →
      d = c ∧ call = call' ∨ d ≠ c ∧ s.calls d = some call := fun d call hd => by
    rcases eq_or_ne d c with rfl | hne
    · rw [Function.update_self] at hd
      cases hd
      exact .inl ⟨rfl, rfl⟩
    · rw [Function.update_of_ne hne] at hd
      exact .inr ⟨hne, hd⟩
  exact {
    owner := fun o writes ho => by
      obtain ⟨hcase, hwrites⟩ := howner o writes ho
      refine ⟨?_, hwrites⟩
      rcases hcase with ⟨rfl, rest, hrest⟩ | ⟨hne, writes', hbefore⟩
      · exact ⟨call', rest, Function.update_self .., hrest⟩
      · obtain ⟨⟨owner, rest, ho, hrest⟩, -⟩ := h.owner o writes' hbefore
        exact ⟨owner, rest, (Function.update_of_ne hne ..).trans ho, hrest⟩
    body := fun d call rest hd hrest => by
      rcases hcalls d call hd with ⟨rfl, rfl⟩ | ⟨hne, hd⟩
      · exact hbody rest hrest
      · obtain ⟨⟨writes, htransaction⟩, hnone⟩ := h.body d call rest hd hrest
        exact ⟨⟨writes, hopen d hne writes htransaction⟩, hdb d hne hnone⟩
    fresh := fun d hd => by
      rcases eq_or_ne d c with rfl | hne
      · simp at hd
      · simp only [Function.update_of_ne hne] at hd
        exact (hothers d hne).trans (h.fresh d hd)
    unhindered := fun d call hd => by
      rcases hcalls d call hd with ⟨rfl, rfl⟩ | ⟨hne, hd⟩
      · exact hunhindered
      · exact h.unhindered d call hd
    kept := fun d call hd => by
      rcases hcalls d call hd with ⟨rfl, rfl⟩ | ⟨hne, hd⟩
      · exact hkept
      · exact (hothers d hne).trans (h.kept d call hd)
    progress := fun d call hd => by
      rcases hcalls d call hd with ⟨rfl, rfl⟩ | ⟨hne, hd⟩
      · exact hprogress
      · exact h.progress d call hd }

/-- The owner of the open transaction is in its body. -/
theorem Sound.owner_ne (h : s.Sound) (hc : s.calls c = some call)
    (hbody : ∀ rest, call.task ≠ .body rest) {o : Id}
    (ho : s.conn.transaction = some (o, writes)) : o ≠ c := by
  rintro rfl
  obtain ⟨⟨owner, rest, howner, hrest⟩, -⟩ := h.owner o writes ho
  cases hc.symm.trans howner
  exact hbody rest hrest

/-- A call goes on outside of a transaction, without a statement. -/
theorem Sound.stay (h : s.Sound) (hc : s.calls c = some call)
    (hbody : ∀ rest, call.task ≠ .body rest) (hbody' : ∀ rest, call'.task ≠ .body rest)
    (hunhindered : call'.task ≠ .ending (.error .nested) ∧
      call'.task ≠ .settled (.error .nested))
    (hwritten : call'.written = call.written) (hprogress : call'.Progress) :
    Sound { conn := s.conn, calls := Function.update s.calls c (some call') } := by
  refine h.update (fun o writes ho => ?_) (fun rest hrest => absurd hrest (hbody' rest))
    (fun _ _ => rfl) (fun _ _ => id) (fun _ _ _ => id) hunhindered
    ((h.kept c call hc).trans hwritten.symm) hprogress
  exact ⟨.inr ⟨h.owner_ne hc hbody ho, writes, ho⟩, (h.owner o writes ho).2⟩

theorem Sound.begin {items : List Item} (h : s.Sound) (hc : s.calls c = some call)
    (htask : call.task = .start items) (hnone : s.conn.transaction = none) :
    Sound {
      conn := { s.conn with transaction := some (c, []) }
      calls := Function.update s.calls c (some { call with task := .body items }) } := by
  have hprogress := h.progress c call hc
  rw [Call.Progress, htask] at hprogress
  obtain ⟨hitems, hwritten⟩ := hprogress
  have hof : ∀ d, Conn.of d { s.conn with transaction := some (c, []) } = s.conn.of d :=
    fun d => by
      rw [Conn.of_of_some rfl, Conn.of_of_none hnone]
      exact List.append_nil _
  have hdb : s.conn.db.of c = [] := by
    rw [← Conn.of_of_none hnone, h.kept c call hc, hwritten]
  refine h.update ?_ (fun _ _ => ⟨⟨[], rfl⟩, hdb⟩) (fun d _ => hof d) (fun _ _ => id)
    (fun d _ writes hd => by cases hnone.symm.trans hd) (by simp)
    ((hof c).trans (h.kept c call hc)) ?_
  · rintro _ _ ⟨⟩
    exact ⟨.inl ⟨rfl, items, rfl⟩, by simp⟩
  · exact ⟨[], hitems.symm, by rw [hwritten]; exact .nil⟩

theorem Sound.commit (h : s.Sound) (hc : s.calls c = some call) (htask : call.task = .body []) :
    Sound {
      conn := s.conn.commit
      calls := Function.update s.calls c (some { call with task := .ending (.ok ()) }) } := by
  have hprogress := h.progress c call hc
  rw [Call.Progress, htask] at hprogress
  obtain ⟨done, hitems, hissued⟩ := hprogress
  obtain ⟨⟨writes, htransaction⟩, -⟩ := h.body c call [] hc htask
  have hcommit : s.conn.commit = { db := s.conn.db ++ writes } := by
    rw [Conn.commit, htransaction]
  refine h.update (fun o writes ho => ?_) (by simp) (fun d _ => Conn.of_commit)
    (fun d hne hd => ?_) (fun d hne writes hd => ?_) (by simp)
    (Conn.of_commit.trans (h.kept c call hc)) ?_
  · rw [hcommit] at ho
    cases ho
  · rw [hcommit, Writes.of_append, hd, Writes.of_eq_nil (h.owner c writes htransaction).2 hne]
    rfl
  · cases htransaction.symm.trans hd
    exact absurd rfl hne
  · rw [List.append_nil] at hitems
    rw [Call.Progress, hitems]
    exact hissued

/-- A statement inside the call's own transaction. -/
theorem Sound.writeBody {item : Item} {rest : List Item} (h : s.Sound)
    (hc : s.calls c = some call) (htask : call.task = .body (item :: rest))
    (hitem : Issued item statement) :
    Sound {
      conn := s.conn.write c statement
      calls := Function.update s.calls c (some { call with
        task := .body rest
        written := call.written ++ [statement] }) } := by
  have hprogress := h.progress c call hc
  rw [Call.Progress, htask] at hprogress
  obtain ⟨done, hitems, hissued⟩ := hprogress
  obtain ⟨⟨writes, htransaction⟩, hdb⟩ := h.body c call _ hc htask
  have hwrite : s.conn.write c statement = _ := Conn.write_of_some htransaction
  refine h.update (fun o writes' ho => ?_) (fun _ _ => ⟨⟨_, by rw [hwrite]⟩, by rwa [hwrite]⟩)
    (fun d hne => Conn.of_write_of_ne hne) (fun d _ hd => by rwa [hwrite])
    (fun d hne writes hd => ?_) (by simp) ?_ ?_
  · rw [hwrite] at ho
    cases ho
    refine ⟨.inl ⟨rfl, rest, rfl⟩, fun x hx => ?_⟩
    rcases List.mem_append.mp hx with hx | hx
    · exact (h.owner c writes htransaction).2 x hx
    · rw [List.mem_singleton.mp hx]
  · cases htransaction.symm.trans hd
    exact absurd rfl hne
  · rw [Conn.of_write_self, h.kept c call hc]
  · refine ⟨done ++ [item], by rw [hitems, List.append_assoc]; rfl, ?_⟩
    exact List.rel_append hissued (.cons hitem .nil)

theorem Sound.rollback {rest : List Item} {message : String} (h : s.Sound)
    (hc : s.calls c = some call) (htask : call.task = .body rest) :
    Sound {
      conn := s.conn.rollback
      calls := Function.update s.calls c (some { call with
        task := .ending (.error (.thrown message))
        written := [] }) } := by
  obtain ⟨⟨writes, htransaction⟩, hdb⟩ := h.body c call rest hc htask
  have hof : ∀ d, s.conn.rollback.of d = s.conn.db.of d := fun d => Conn.of_of_none rfl
  refine h.update nofun (by simp) (fun d hne => ?_) (fun d _ => id)
    (fun d hne writes hd => ?_) (by simp) ((hof c).trans hdb) trivial
  · rw [hof, Conn.of_of_some htransaction,
      Writes.of_eq_nil (h.owner c writes htransaction).2 hne, List.append_nil]
  · cases htransaction.symm.trans hd
    exact absurd rfl hne

/-- A statement of its own. -/
theorem Sound.writePlain {item : Item} {rest : List Item} (h : s.Sound)
    (hc : s.calls c = some call) (htask : call.task = .plain (item :: rest))
    (hitem : Issued item statement) (hnone : s.conn.transaction = none) :
    Sound {
      conn := s.conn.write c statement
      calls := Function.update s.calls c (some { call with
        task := .plain rest
        written := call.written ++ [statement] }) } := by
  have hprogress := h.progress c call hc
  rw [Call.Progress, htask] at hprogress
  obtain ⟨done, hitems, hissued⟩ := hprogress
  have hwrite : s.conn.write c statement = _ := Conn.write_of_none hnone
  refine h.update (fun o writes ho => ?_) (by simp) (fun d hne => Conn.of_write_of_ne hne)
    (fun d hne hd => ?_) (fun d hne writes hd => by cases hnone.symm.trans hd) (by simp) ?_ ?_
  · rw [hwrite] at ho
    cases hnone.symm.trans ho
  · rw [hwrite, Writes.of_append, hd,
      Writes.of_eq_nil (o := c) (fun x hx => by rw [List.mem_singleton.mp hx]) hne]
    rfl
  · rw [Conn.of_write_self, h.kept c call hc]
  · refine ⟨done ++ [item], by rw [hitems, List.append_assoc]; rfl, ?_⟩
    exact List.rel_append hissued (.cons hitem .nil)

theorem Sound.resume {now : ℤ} (h : s.Sound) (hc : s.calls c = some call)
    (hapart : s.Apart (.resume c now))
    (hadvance : advance c now s.conn call = some (conn', call')) :
    Sound { conn := conn', calls := Function.update s.calls c (some call') } := by
  have hprogress := h.progress c call hc
  have hunhindered := h.unhindered c call hc
  have hapart := hapart call hc
  obtain ⟨items, task, written⟩ := call
  -- Outside of its body a call issues statements only where no transaction is open.
  have hnone : (∀ rest, task ≠ .body rest) → (∀ o writes,
      s.conn.transaction = some (o, writes) → o = c) → s.conn.transaction = none := by
    intro hbody howner
    cases htransaction : s.conn.transaction with
    | none => rfl
    | some transaction =>
      exact absurd (howner _ _ htransaction) (h.owner_ne hc hbody htransaction)
  cases task with
  | start rest =>
    have hnone := hnone (by simp) (hapart trivial)
    simp only [advance, Conn.begin, hnone] at hadvance
    cases hadvance
    exact h.begin hc rfl hnone
  | body rest =>
    cases rest with
    | nil =>
      cases hadvance
      exact h.commit hc rfl
    | cons item rest =>
      simp only [advance] at hadvance
      split at hadvance <;> cases hadvance
      · rename_i hitem
        exact h.writeBody hc rfl ⟨now, hitem⟩
      · exact h.rollback hc rfl
  | plain rest =>
    cases rest with
    | nil =>
      cases hadvance
      obtain ⟨done, hitems, hissued⟩ := hprogress
      refine h.stay hc (by simp) (by simp) (by simp) rfl ?_
      rw [List.append_nil] at hitems
      rw [Call.Progress, hitems]
      exact hissued
    | cons item rest =>
      simp only [advance] at hadvance
      split at hadvance <;> cases hadvance
      · rename_i hitem
        have hnone := hnone (by simp) (hapart (show (item now).isOk = true by rw [hitem]; rfl))
        exact h.writePlain hc rfl ⟨now, hitem⟩ hnone
      · exact h.stay hc (by simp) (by simp) (by simp) rfl trivial
  | ending outcome =>
    cases hadvance
    refine h.stay hc (by simp) (by simp) ⟨by simp, ?_⟩ rfl ?_
    · rintro ⟨⟩
      exact hunhindered.1 rfl
    · rcases outcome with failure | _
      · trivial
      · exact hprogress
  | settled outcome => cases hadvance

theorem transaction_fresh {items : List Item} :
    Call.Progress { items := (transaction items).items, task := transaction items } ∧
      (∀ rest, transaction items ≠ .body rest) ∧
      transaction items ≠ .ending (.error .nested) ∧
      transaction items ≠ .settled (.error .nested) := by
  unfold transaction
  split
  · exact ⟨.nil, by simp, by simp, by simp⟩
  · exact ⟨⟨rfl, rfl⟩, by simp, by simp, by simp⟩

/-- A call starts with nothing written, and in no transaction. -/
theorem request_fresh (deps : Deps) (request : Request) :
    Call.Progress { items := (request.task deps).items, task := request.task deps } ∧
      (∀ rest, request.task deps ≠ .body rest) ∧
      request.task deps ≠ .ending (.error .nested) ∧
      request.task deps ≠ .settled (.error .nested) := by
  cases request with
  | storePendingOps docId pending => exact transaction_fresh
  | deletePendingOps docId ops => exact transaction_fresh
  | storeOpAuth docId entries => exact transaction_fresh
  | applyOps ops =>
    rw [Request.task, Sidecar.applyOps]
    split
    · exact ⟨.nil, by simp, by simp, by simp⟩
    split
    · exact ⟨trivial, by simp, by simp, by simp⟩
    · exact ⟨⟨[], rfl, .nil⟩, by simp, by simp, by simp⟩

theorem Sound.started {deps : Deps} {request : Request} (h : s.Sound) (hc : s.calls c = none) :
    Sound { s with
      calls := Function.update s.calls c
        (some { items := (request.task deps).items, task := request.task deps }) } := by
  obtain ⟨hprogress, hbody, hunhindered⟩ := request_fresh deps request
  refine h.update (fun o writes ho => ?_) (fun rest hrest => absurd hrest (hbody rest))
    (fun _ _ => rfl) (fun _ _ => id) (fun _ _ _ => id) hunhindered (h.fresh c hc) hprogress
  obtain ⟨⟨owner, rest, howner, -⟩, hwrites⟩ := h.owner o writes ho
  refine ⟨.inr ⟨?_, writes, ho⟩, hwrites⟩
  rintro rfl
  cases hc.symm.trans howner

theorem Sound.step {deps : Deps} {e : Event} (h : s.Sound) (hapart : s.Apart e)
    (hstep : s.step deps e = some s') : s'.Sound := by
  cases e with
  | call c request =>
    simp only [State.step] at hstep
    split at hstep <;> cases hstep
    rename_i hc
    exact h.started hc
  | resume c now =>
    obtain ⟨call, hc, hstep⟩ := Option.bind_eq_some_iff.mp hstep
    obtain ⟨⟨conn', call'⟩, hadvance, rfl⟩ := Option.map_eq_some_iff.mp hstep
    exact h.resume hc hapart hadvance

/-! ## Runs -/

/-- No step of the run issues a statement while another call's transaction is open. -/
def ApartAlong (deps : Deps) : State → List Event → Prop
  | _, [] => True
  | s, e :: events => s.Apart e ∧ ∀ next ∈ s.step deps e, ApartAlong deps next events

theorem Sound.run {deps : Deps} {events : List Event} (h : s.Sound)
    (hapart : s.ApartAlong deps events) (hrun : events.foldlM (State.step deps) s = some s') :
    s'.Sound := by
  induction events generalizing s with
  | nil =>
    cases hrun
    exact h
  | cons e events ih =>
    obtain ⟨next, hnext, hrun⟩ := Option.bind_eq_some_iff.mp hrun
    exact ih (h.step hapart.1 hnext) (hapart.2 next hnext) hrun

/-- Calls that stay apart are isolated, whatever their order. -/
theorem run_isolated {deps : Deps} {events : List Event}
    (hapart : ApartAlong deps {} events) (hrun : run deps events = some s) : s.Isolated :=
  (Sound.empty.run hapart hrun).isolated

/-- One call after the other. -/
theorem run_isolated_in_turn :
    let deps : Deps := ⟨sampleCrypto [], fun _ => [], fun _ => .ok "", 5000⟩
    let events : List Event := [.call 0 (.storeOpAuth "d" [([1], ⟨[2], none⟩)]),
      .call 1 (.storeOpAuth "d" [([3], ⟨[4], none⟩)]), .resume 0 5, .resume 0 5, .resume 0 5,
      .resume 0 5, .resume 1 6]
    ∃ hrun : (run deps events).isSome = true, ((run deps events).get hrun).Isolated := by
  refine ⟨rfl, run_isolated ?_ (Option.some_get _).symm⟩
  refine ⟨trivial, ?_⟩
  rintro _ ⟨⟩
  refine ⟨trivial, ?_⟩
  rintro _ ⟨⟩
  refine ⟨fun _ _ _ _ _ ho => (by cases ho), ?_⟩
  rintro _ ⟨⟩
  refine ⟨fun _ _ _ _ _ ho => (by cases ho; rfl), ?_⟩
  rintro _ ⟨⟩
  refine ⟨fun _ _ _ _ _ ho => (by cases ho; rfl), ?_⟩
  rintro _ ⟨⟩
  refine ⟨fun _ _ _ _ _ ho => (by cases ho), ?_⟩
  rintro _ ⟨⟩
  refine ⟨fun _ _ _ _ _ ho => (by cases ho), ?_⟩
  rintro _ ⟨⟩
  trivial

/-- A `BEGIN` meets the open transaction of another call. -/
theorem nested_failed :
    let deps : Deps := ⟨sampleCrypto [], fun _ => [], fun _ => .ok "", 5000⟩
    ¬ ∀ s, run deps [.call 0 (.storeOpAuth "d" [([1], ⟨[2], none⟩)]), .resume 0 5,
      .call 1 (.storeOpAuth "d" [([3], ⟨[4], none⟩)]), .resume 1 6] = some s → s.Isolated :=
  fun h => ((h _ rfl).unhindered 1 _ rfl).1 rfl

end State

end Sidecar

end Sync

end Treecrdt
