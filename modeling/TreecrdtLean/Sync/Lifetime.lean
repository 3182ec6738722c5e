import Mathlib.Data.List.Induction
import Mathlib.Logic.Function.Basic
import Mathlib.Tactic.Common

/-!
# Documents and peers of a connection (`server.ts`)

The handler of a connection opens the document, and sets a peer between the document and the socket.
`cleanup` runs when the socket closes or fails, which may be before, while or after the document
opens; it undoes what is there, and what comes later undoes itself. So an opened document is
released once, and nothing of a connection outlives its socket (`run_lifetimeKept`).

What the callbacks of a document throw in `cleanup` is caught call by call, and changes nothing.
-/

namespace Treecrdt

namespace Sync

namespace Server

/-! ## The peers of a document -/

/-- `peersByDocId`; a peer is named by its connection. -/
abbrev PeersByDocId (Id : Type) := String → Option (List Id)

variable {Id : Type} [DecidableEq Id]

def addDocPeer (docId : String) (peer : Id) (peers : PeersByDocId Id) : PeersByDocId Id :=
  match peers docId with
  | some existing =>
    Function.update peers docId
      (some (if peer ∈ existing then existing else existing ++ [peer]))
  | none => Function.update peers docId (some [peer])

def removeDocPeer (docId : String) (peer : Id) (peers : PeersByDocId Id) : PeersByDocId Id :=
  match peers docId with
  | none => peers
  | some existing =>
    let rest := existing.filter (· ≠ peer)
    Function.update peers docId (if rest.length = 0 then none else some rest)

/-- The peer is one of the document. -/
def IsPeer (peers : PeersByDocId Id) (docId : String) (peer : Id) : Prop :=
  ∃ existing, peers docId = some existing ∧ peer ∈ existing

variable {peers : PeersByDocId Id} {docId other : String} {peer x : Id}

theorem isPeer_addDocPeer :
    IsPeer (addDocPeer docId peer peers) other x ↔
      IsPeer peers other x ∨ other = docId ∧ x = peer := by
  cases hexisting : peers docId with
  | none =>
    by_cases hdoc : other = docId
    · subst hdoc
      simp [IsPeer, addDocPeer, hexisting]
    · simp [IsPeer, addDocPeer, hexisting, hdoc]
  | some existing =>
    by_cases hdoc : other = docId
    · subst hdoc
      by_cases hmem : peer ∈ existing
      · have hin : x = peer → x ∈ existing := fun h => h ▸ hmem
        simpa [IsPeer, addDocPeer, hexisting, hmem] using hin
      · simp [IsPeer, addDocPeer, hexisting, hmem]
    · simp [IsPeer, addDocPeer, hexisting, hdoc]

theorem isPeer_removeDocPeer :
    IsPeer (removeDocPeer docId peer peers) other x ↔
      IsPeer peers other x ∧ ¬ (other = docId ∧ x = peer) := by
  cases hexisting : peers docId with
  | none =>
    simp only [removeDocPeer, hexisting, iff_self_and]
    rintro ⟨existing, hother, -⟩ ⟨rfl, -⟩
    cases hexisting.symm.trans hother
  | some existing =>
    by_cases hdoc : other = docId
    · subst hdoc
      simp only [IsPeer, removeDocPeer, hexisting, Function.update_self, Option.some.injEq,
        exists_eq_left', true_and]
      split
      · rename_i hempty
        rw [List.length_eq_zero_iff, List.filter_eq_nil_iff] at hempty
        simp only [reduceCtorEq, false_and, exists_false, false_iff, not_and, not_not]
        exact fun hx => by simpa using hempty x hx
      · simp
    · simp [IsPeer, removeDocPeer, hexisting, hdoc]

/-! ## The handler -/

/-- The variables of a handler, and what it has done. -/
structure Handler where
  docId : String
  cleaned : Bool := false
  /-- `opts.docs.open` is pending. -/
  opening : Bool := true
  /-- These are set. -/
  doc : Bool := false
  peer : Bool := false
  detach : Bool := false
  /-- The peer listens to the socket. -/
  listening : Bool := false
  /-- The document has been told of the peer (`onPeerAdded`), and not that it is gone. -/
  announced : Bool := false
  /-- Successful calls of `opts.docs.open`, and calls of `release`. -/
  opens : ℕ := 0
  releases : ℕ := 0
  /-- The socket has closed or failed. -/
  gone : Bool := false

structure Handlers (Id : Type) where
  handlers : Id → Option Handler := fun _ => none
  peersByDocId : PeersByDocId Id := fun _ => none

/-- What happens to a connection. -/
inductive HandlerEvent where
  /-- The upgrade is done. -/
  | connected (docId : String)
  /-- `opts.docs.open` resolves; with options that `new SyncPeer` takes, or throws at. -/
  | docOpened (peerOptionsValid : Bool)
  | docFailed
  | closed
  | errored

def Handlers.cleanup (id : Id) (h : Handler) (s : Handlers Id) : Handlers Id :=
  if h.cleaned then s
  else
    { handlers := Function.update s.handlers id (some { h with
        cleaned := true
        listening := if h.detach then false else h.listening
        announced := if h.doc && h.peer then false else h.announced
        releases := if h.doc then h.releases + 1 else h.releases })
      peersByDocId := if h.peer then removeDocPeer h.docId id s.peersByDocId else s.peersByDocId }

/-- The handler behind `await opts.docs.open(docId)`. -/
def Handlers.docOpened (id : Id) (peerOptionsValid : Bool) (h : Handler) (s : Handlers Id) :
    Handlers Id :=
  let h := { h with opening := false, opens := h.opens + 1 }
  if h.cleaned then
    { s with
      handlers := Function.update s.handlers id (some { h with releases := h.releases + 1 }) }
  else if !peerOptionsValid then
    { s with handlers := Function.update s.handlers id (some { h with doc := true }) }
  else
    { handlers := Function.update s.handlers id (some { h with
        doc := true, peer := true, detach := true, listening := true, announced := true })
      peersByDocId := addDocPeer h.docId id s.peersByDocId }

def Handlers.step (s : Handlers Id) (e : Id × HandlerEvent) : Handlers Id :=
  match e.2, s.handlers e.1 with
  | .connected docId, none =>
    { s with handlers := Function.update s.handlers e.1 (some { docId }) }
  | .docOpened peerOptionsValid, some h =>
    if h.opening then s.docOpened e.1 peerOptionsValid h else s
  | .docFailed, some h =>
    { s with handlers := Function.update s.handlers e.1 (some { h with opening := false }) }
  | .closed, some h | .errored, some h =>
    let h := { h with gone := true }
    { s with handlers := Function.update s.handlers e.1 (some h) }.cleanup e.1 h
  | _, _ => s

def Handlers.run (es : List (Id × HandlerEvent)) : Handlers Id := es.foldl Handlers.step {}

/-! ## One step -/

/-- A handler between two events. -/
structure Handler.Sound (h : Handler) : Prop where
  gone : h.gone = h.cleaned
  opening : h.opening = true → h.doc = false ∧ h.opens = 0
  peer : h.peer = true → h.doc = true
  listening : h.listening = true → h.detach = true ∧ h.cleaned = false
  announced : h.announced = true → h.doc = true ∧ h.peer = true ∧ h.cleaned = false
  inUse : h.cleaned = false → h.releases = 0 ∧ h.opens = if h.doc then 1 else 0
  ended : h.cleaned = true → h.releases = h.opens ∧ h.opens ≤ 1

theorem Handler.sound_new (docId : String) : ({ docId } : Handler).Sound :=
  ⟨rfl, fun _ => ⟨rfl, rfl⟩, nofun, nofun, nofun, fun _ => ⟨rfl, rfl⟩, nofun⟩

/-- All handlers are sound, and a document has no peers but those of its open connections. -/
structure Handlers.Sound (s : Handlers Id) : Prop where
  handler : ∀ id h, s.handlers id = some h → h.Sound
  peers : ∀ docId id, IsPeer s.peersByDocId docId id →
    ∃ h, s.handlers id = some h ∧ h.docId = docId ∧ h.peer = true ∧ h.cleaned = false

omit [DecidableEq Id] in
theorem Handlers.Sound.empty : ({} : Handlers Id).Sound := ⟨nofun, nofun⟩

variable {s : Handlers Id} {id : Id} {h h' : Handler}

/-- A step of one handler, with what it does to the peers. -/
theorem Handlers.Sound.update (hs : s.Sound) {peers : PeersByDocId Id} (hsound : h'.Sound)
    (hothers : ∀ docId other, other ≠ id → IsPeer peers docId other →
      IsPeer s.peersByDocId docId other)
    (hown : ∀ docId, IsPeer peers docId id →
      h'.docId = docId ∧ h'.peer = true ∧ h'.cleaned = false) :
    Sound ⟨Function.update s.handlers id (some h'), peers⟩ where
  handler other x hx := by
    by_cases hid : other = id
    · subst hid
      cases hx.symm.trans (Function.update_self ..)
      exact hsound
    · exact hs.handler other x ((Function.update_of_ne hid _ _).symm.trans hx)
  peers docId other hpeer := by
    by_cases hid : other = id
    · subst hid
      exact ⟨h', Function.update_self .., hown docId hpeer⟩
    · obtain ⟨x, hx, hrest⟩ := hs.peers docId other (hothers docId other hid hpeer)
      exact ⟨x, (Function.update_of_ne hid _ _).trans hx, hrest⟩

/-- A step that leaves the peers as they are. -/
theorem Handlers.Sound.keepPeers (hs : s.Sound) (hh : s.handlers id = some h) (hsound : h'.Sound)
    (hdocId : h'.docId = h.docId) (hpeer : h.peer = true → h'.peer = true)
    (hcleaned : h.peer = true → h'.cleaned = h.cleaned) :
    Sound { s with handlers := Function.update s.handlers id (some h') } := by
  refine hs.update hsound (fun _ _ _ h => h) fun docId hisPeer => ?_
  obtain ⟨x, hx, hdoc, hset, hclean⟩ := hs.peers docId id hisPeer
  cases hh.symm.trans hx
  exact ⟨hdocId.trans hdoc, hpeer hset, (hcleaned hset).trans hclean⟩

theorem Handlers.Sound.docOpened (hs : s.Sound) (hh : s.handlers id = some h)
    (hopening : h.opening = true) (peerOptionsValid : Bool) :
    (s.docOpened id peerOptionsValid h).Sound := by
  have hsound := hs.handler id h hh
  obtain ⟨hdoc, hopens⟩ := hsound.opening hopening
  have hpeer : h.peer = false := by
    by_contra hset
    cases hdoc.symm.trans (hsound.peer (by simpa using hset))
  have hquiet : h.announced = false := by
    by_contra hset
    cases hdoc.symm.trans (hsound.announced (by simpa using hset)).1
  unfold Handlers.docOpened
  dsimp only
  split
  · rename_i hcleaned
    refine hs.keepPeers hh ?_ rfl (fun h => h) fun _ => rfl
    have hended := hsound.ended hcleaned
    exact
      { gone := hsound.gone
        opening := nofun
        peer := hsound.peer
        listening := hsound.listening
        announced := hsound.announced
        inUse := fun hclean => by cases hcleaned.symm.trans hclean
        ended := fun _ => ⟨by simp only; omega, by simp only; omega⟩ }
  rename_i hcleaned
  have hcleaned : h.cleaned = false := by simpa using hcleaned
  have hreleases := (hsound.inUse hcleaned).1
  split
  · refine hs.keepPeers hh ?_ rfl (fun h => h) fun _ => rfl
    exact
      { gone := hsound.gone
        opening := nofun
        peer := fun _ => rfl
        listening := hsound.listening
        announced := fun hset => by cases hquiet.symm.trans hset
        inUse := fun _ => ⟨hreleases, by simp [hopens]⟩
        ended := fun hended => by cases hcleaned.symm.trans hended }
  · refine hs.update ?_ (fun docId other hne hisPeer => ?_) fun docId hisPeer => ?_
    · exact
        { gone := hsound.gone
          opening := nofun
          peer := fun _ => rfl
          listening := fun _ => ⟨rfl, hcleaned⟩
          announced := fun _ => ⟨rfl, rfl, hcleaned⟩
          inUse := fun _ => ⟨hreleases, by simp [hopens]⟩
          ended := fun hended => by cases hcleaned.symm.trans hended }
    · exact (isPeer_addDocPeer.mp hisPeer).resolve_right fun hnew => hne hnew.2
    · obtain hold | ⟨rfl, -⟩ := isPeer_addDocPeer.mp hisPeer
      · obtain ⟨x, hx, -, hset, -⟩ := hs.peers docId id hold
        cases hh.symm.trans hx
        cases hpeer.symm.trans hset
      · exact ⟨rfl, rfl, hcleaned⟩

/-- The end of a connection. -/
theorem Handlers.Sound.end (hs : s.Sound) (hh : s.handlers id = some h) :
    ({ s with handlers := Function.update s.handlers id (some { h with gone := true }) }.cleanup id
      { h with gone := true }).Sound := by
  have hsound := hs.handler id h hh
  unfold Handlers.cleanup
  split
  · rename_i hcleaned
    exact hs.keepPeers hh { hsound with gone := hcleaned.symm } rfl (fun h => h) fun _ => rfl
  · rename_i hcleaned
    have hcleaned : h.cleaned = false := by simpa using hcleaned
    obtain ⟨hreleases, hopens⟩ := hsound.inUse hcleaned
    dsimp only
    rw [Function.update_idem]
    refine hs.update ?_ (fun docId other hne hisPeer => ?_) fun docId hisPeer => ?_
    · exact
        { gone := rfl
          opening := hsound.opening
          peer := hsound.peer
          listening := fun hset => by
            dsimp only at hset
            split at hset
            · cases hset
            · rename_i hdetach
              exact absurd (hsound.listening hset).1 hdetach
          announced := fun hset => by
            dsimp only at hset
            split at hset
            · cases hset
            · rename_i hboth
              obtain ⟨hdoc, hpeer, -⟩ := hsound.announced hset
              exact absurd (by rw [hdoc, hpeer]; rfl) hboth
          inUse := nofun
          ended := fun _ => by
            cases hdoc : h.doc <;> simp_all }
    · split at hisPeer
      · exact (isPeer_removeDocPeer.mp hisPeer).1
      · exact hisPeer
    · split at hisPeer
      · obtain ⟨hold, hnot⟩ := isPeer_removeDocPeer.mp hisPeer
        obtain ⟨x, hx, hdoc, -, -⟩ := hs.peers docId id hold
        cases hh.symm.trans hx
        exact absurd ⟨hdoc.symm, rfl⟩ hnot
      · rename_i hset
        obtain ⟨x, hx, -, hpeer, -⟩ := hs.peers docId id hisPeer
        cases hh.symm.trans hx
        exact absurd hpeer hset

theorem Handlers.Sound.step (hs : s.Sound) (e : Id × HandlerEvent) : (s.step e).Sound := by
  obtain ⟨id, event⟩ := e
  cases hh : s.handlers id with
  | none =>
    cases event with
    | connected docId =>
      simp only [Handlers.step, hh]
      refine hs.update (Handler.sound_new docId) (fun _ _ _ h => h) fun docId hisPeer => ?_
      obtain ⟨x, hx, -⟩ := hs.peers docId id hisPeer
      cases hh.symm.trans hx
    | docOpened | docFailed | closed | errored =>
      simp only [Handlers.step, hh]
      exact hs
  | some h =>
    cases event with
    | connected docId =>
      simp only [Handlers.step, hh]
      exact hs
    | docOpened peerOptionsValid =>
      simp only [Handlers.step, hh]
      split
      · rename_i hopening
        exact hs.docOpened hh hopening peerOptionsValid
      · exact hs
    | docFailed =>
      simp only [Handlers.step, hh]
      exact hs.keepPeers hh { hs.handler id h hh with opening := nofun } rfl (fun h => h)
        fun _ => rfl
    | closed | errored =>
      simp only [Handlers.step, hh]
      exact hs.end hh

/-! ## Runs -/

theorem Handlers.sound_run (es : List (Id × HandlerEvent)) : (Handlers.run es).Sound := by
  induction es using List.reverseRecOn with
  | nil => exact .empty
  | append_singleton es e ih =>
    rw [Handlers.run, List.foldl_append]
    exact ih.step e

/-- A document is opened and released at most once, not while the socket is there, and as often as
it is opened when the socket is gone; then the peer listens no more, and is nobody's peer. -/
structure LifetimeKept (s : Handlers Id) (id : Id) (h : Handler) : Prop where
  opens : h.opens ≤ 1
  inUse : h.gone = false → h.releases = 0
  released : h.gone = true → h.releases = h.opens
  detached : h.gone = true → h.listening = false
  removed : h.gone = true → h.announced = false ∧ ∀ docId, ¬ IsPeer s.peersByDocId docId id

/-- In every run of the server, every connection keeps the lifetime of its document. -/
theorem run_lifetimeKept (es : List (Id × HandlerEvent)) (id : Id) (h : Handler)
    (hh : (Handlers.run es).handlers id = some h) : LifetimeKept (Handlers.run es) id h := by
  have hs := Handlers.sound_run es
  have hsound := hs.handler id h hh
  refine ⟨?_, fun hgone => ?_, fun hgone => ?_, fun hgone => ?_, fun hgone => ⟨?_, ?_⟩⟩
  · cases hcleaned : h.cleaned with
    | true => exact (hsound.ended hcleaned).2
    | false =>
      rw [(hsound.inUse hcleaned).2]
      split <;> omega
  · exact (hsound.inUse (hsound.gone.symm.trans hgone)).1
  · exact (hsound.ended (hsound.gone.symm.trans hgone)).1
  · by_contra hlistening
    have hopen := (hsound.listening (by simpa using hlistening)).2
    cases (hsound.gone.symm.trans hgone).symm.trans hopen
  · by_contra hannounced
    have hopen := (hsound.announced (by simpa using hannounced)).2.2
    cases (hsound.gone.symm.trans hgone).symm.trans hopen
  · intro docId hisPeer
    obtain ⟨x, hx, -, -, hopen⟩ := hs.peers docId id hisPeer
    cases hh.symm.trans hx
    cases (hsound.gone.symm.trans hgone).symm.trans hopen

/-- The document opens when the socket has closed, and is released. -/
theorem run_lifetimeKept_late : ∃ h : Handler,
    (Handlers.run [((), .connected "d"), ((), .closed), ((), .docOpened true)]).handlers () =
        some h ∧
      h.releases = 1 ∧
      LifetimeKept
        (Handlers.run [((), .connected "d"), ((), .closed), ((), .docOpened true)]) () h :=
  ⟨_, rfl, rfl, run_lifetimeKept _ () _ rfl⟩

end Server

end Sync

end Treecrdt
