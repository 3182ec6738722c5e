import TreecrdtLean.Spec.Frame
import TreecrdtLean.Spec.Memory

/-!
# Cached tombstones

The cached flags are exact (`Rows.Exact`) if the flag of every node says whether it is tombstoned.
A refresh brings the flags of what it visits up to date (`Rows.Refreshed`), and visits everything
above its starts (`Rows.Visits`). It always returns (`refreshTombstonesUpwardWithDelta_runs`).
-/

namespace Treecrdt

open Exec Forest

namespace Rows

/-- The cached flags are the tombstones. -/
def Exact (r : Rows) (f : NodeId → Bool) : Prop := ∀ n, f n = true ↔ r.Tombstoned n

/-- The flags after a refresh that visited `V`. -/
structure Refreshed (r : Rows) (V : NodeId → Prop) (f f' : NodeId → Bool) : Prop where
  kept : ∀ n, f' n = f n ∨ (f' n = true ↔ r.Tombstoned n)
  visited : ∀ n, V n → (r.row n).deletedAt.isSome → (f' n = true ↔ r.Tombstoned n)

/-- A walk that has seen `visited` and still has `stack` to see comes to the nodes of `V`: to those
of the stack, and from each of them to its parent. -/
structure Visits (r : Rows) (stack visited : List NodeId) (V : NodeId → Prop) : Prop where
  stack : ∀ n ∈ stack, ¬ n.special → V n ∨ n ∈ visited
  parent : ∀ n p, V n → r.parent n = some p → ¬ p.special → V p ∨ p ∈ visited

open Classical in
/-- The flags after the refresh of one node. -/
noncomputable def refreshedAt (r : Rows) (f : NodeId → Bool) (n : NodeId) : NodeId → Bool :=
  if (r.row n).deletedAt.isSome then Function.update f n (decide (r.Tombstoned n)) else f

variable {r : Rows} {f f' : NodeId → Bool} {V : NodeId → Prop} {n : NodeId}
  {stack visited : List NodeId}

theorem Refreshed.refl : r.Refreshed (fun _ => False) f f := ⟨fun _ => Or.inl rfl, by simp⟩

theorem Refreshed.cons (h : r.Refreshed V (r.refreshedAt f n) f') :
    r.Refreshed (fun m => m = n ∨ V m) f f' := by
  have hkept : ∀ m, r.refreshedAt f n m = f m ∨ (r.refreshedAt f n m = true ↔ r.Tombstoned m) := by
    intro m
    unfold refreshedAt
    split_ifs
    · by_cases hm : m = n
      · subst hm
        exact Or.inr (by simp)
      · exact Or.inl (Function.update_of_ne hm _ _)
    · exact Or.inl rfl
  refine ⟨fun m => ?_, fun m hV hdel => ?_⟩
  · obtain he | ht := h.kept m
    · rw [he]
      exact hkept m
    · exact Or.inr ht
  · obtain rfl | hV := hV
    · obtain he | ht := h.kept m
      · rw [he, refreshedAt, if_pos hdel]
        simp
      · exact ht
    · exact h.visited m hV hdel

theorem Visits.nil : r.Visits [] visited fun _ => False := ⟨by simp, by simp⟩

/-- What is special or visited is dropped. -/
theorem Visits.skip (h : r.Visits stack visited V) (hn : n.special ∨ n ∈ visited) :
    r.Visits (n :: stack) visited V where
  stack m hm hs := by
    obtain rfl | hm := List.mem_cons.mp hm
    · exact Or.inr (hn.resolve_left hs)
    · exact h.stack m hm hs
  parent := h.parent

theorem Visits.cons (h : r.Visits ((r.parent n).toList ++ stack) (n :: visited) V) :
    r.Visits (n :: stack) visited fun m => m = n ∨ V m where
  stack m hm hs := by
    obtain rfl | hm := List.mem_cons.mp hm
    · exact Or.inl (Or.inl rfl)
    · have := h.stack m (by simp [hm]) hs
      rw [List.mem_cons] at this
      tauto
  parent m p hV hp hs := by
    have hor : V p ∨ p ∈ n :: visited := by
      obtain rfl | hV := hV
      · exact h.stack p (by simp [hp]) hs
      · exact h.parent m p hV hp hs
    rw [List.mem_cons] at hor
    tauto

/-- A walk from the start comes to everything above its stack, if the parents of `ROOT` and `TRASH`
are on the stack too. -/
theorem Visits.above (h : r.Visits stack [] V)
    (htop : ∀ n p, n.special → r.parent n = some p → p ∈ stack) {s : NodeId} (hs : s ∈ stack)
    (habove : Above r.listed s n) (hn : ¬ n.special) : V n := by
  induction habove with
  | refl => simpa using h.stack s hs hn
  | @tail b c hsb hbc ih =>
    have hp := (listed_eq_some.mp hbc).2
    by_cases hb : b.special
    · simpa using h.stack c (htop b c hb hp) hn
    · simpa using h.parent b c (ih hb) hp hn

theorem parent_eq_row (r : Rows) (n : NodeId) : r.parent n = (r.row n).parent := by
  unfold parent row
  cases r n <;> rfl

theorem not_tombstoned (h : (r.row n).deletedAt = none) :
    ¬ r.Tombstoned n := by
  rintro ⟨vv, hvv, -⟩
  rw [h] at hvv
  cases hvv

end Rows

/-! ## The refresh -/

section

variable {N : Type} [NodeStore N] [LawfulNodeStore N] {r : Rows}

open Classical in
theorem refreshFlag_runs (hr : Acyclic r.listed) (hn : r.Normal) (f : NodeId → Bool) {n : NodeId}
    (hsome : (r n).isSome) :
    Runs LawfulNodeStore.Models (r, f) (TreeCrdt.refreshFlag n : Exec Error N Bool)
      (fun changed => changed = true ↔ f n ≠ decide (r.Tombstoned n))
      (r, Function.update f n (decide (r.Tombstoned n))) := by
  unfold TreeCrdt.refreshFlag
  refine (LawfulNodeStore.tombstone r f n hsome).bind fun previous hprev => ?_
  refine (isTombstoned_runs hr hn f n).bind fun tombstoned htomb => ?_
  have hdecide : tombstoned = decide (r.Tombstoned n) := by
    rw [Bool.eq_iff_iff, htomb, decide_eq_true_eq]
  subst hprev hdecide
  split_ifs with he
  · rw [← he, Function.update_eq_self]
    exact Runs.pure (by simp)
  · exact (LawfulNodeStore.setTombstone r f n _ hsome).bind fun _ _ => Runs.pure (by simp [he])

end

namespace MemoryNodeStore

theorem parentAndHasDeletedAt_runs (r : Rows) (f : NodeId → Bool) (n : NodeId) :
    Runs Models (r, f) (NodeStore.parentAndHasDeletedAt n)
      (fun o => (o.isSome → (r n).isSome ∧ o = some (r.parent n, (r.row n).deletedAt.isSome)) ∧
        (o = none → r.row n = .blank n)) (r, f) := by
  intro s hs
  obtain ⟨o, s', hrun, ho, hs'⟩ := LawfulNodeStore.parentAndHasDeletedAt r f n s hs
  refine ⟨o, s', hrun, ⟨ho, ?_⟩, hs'⟩
  rintro rfl
  obtain ⟨rfl, -, -⟩ := hs
  rcases hl : s.nodes.lookup n with _ | st
  · simp [Rows.row, view, hl]
  · have hget : getState n s = some (.ok st, s) := by simp [getState, hl]
    have hpair : (NodeStore.parentAndHasDeletedAt n : Exec Error MemoryNodeStore _) s =
        some (.ok (some (s.parent n, st.deletedAt.isSome)), s) := by
      show (gets _ >>= _ : Exec Error MemoryNodeStore _) s = _
      rw [gets_bind_run, hl]
      show ((gets _ >>= _ : Exec Error MemoryNodeStore _) s) = _
      rw [gets_bind_run]
      show (((getState n >>= _) >>= _) >>= _ : Exec Error MemoryNodeStore _) s = _
      rw [bind_assoc, bind_assoc, bind_of_ok hget]
      rfl
    rw [hpair] at hrun
    cases hrun

theorem allNodes_runs (r : Rows) (f : NodeId → Bool) :
    Runs Models (r, f) (NodeStore.allNodes : Exec Error MemoryNodeStore _)
      (fun nodes => ∀ n, n ∈ nodes ↔ (r n).isSome) (r, f) := by
  refine Runs.gets fun s => ?_
  rintro ⟨rfl, -, -⟩ n
  rw [view, Option.isSome_map, AList.lookup_isSome, AList.mem_keys]

end MemoryNodeStore

/-- A lawful store that answers for every row it has. -/
class CompleteNodeStore (N : Type) [NodeStore N] [LawfulNodeStore N] : Prop where
  parentAndHasDeletedAt : ∀ r f n,
    Runs LawfulNodeStore.Models (r, f) (NodeStore.parentAndHasDeletedAt n : Exec Error N _)
      (fun o => (o.isSome → (r n).isSome ∧ o = some (r.parent n, (r.row n).deletedAt.isSome)) ∧
        (o = none → r.row n = .blank n)) (r, f)
  allNodes : ∀ r f,
    Runs LawfulNodeStore.Models (r, f) (NodeStore.allNodes : Exec Error N _)
      (fun nodes => ∀ n, n ∈ nodes ↔ (r n).isSome) (r, f)

instance : CompleteNodeStore MemoryNodeStore where
  parentAndHasDeletedAt := MemoryNodeStore.parentAndHasDeletedAt_runs
  allNodes := MemoryNodeStore.allNodes_runs

section

variable {N : Type} [NodeStore N] [LawfulNodeStore N] {r : Rows}

theorem mem_sortedNodeIds {nodes : List NodeId} {n : NodeId} :
    n ∈ sortedNodeIds nodes ↔ n ∈ nodes := by
  rw [sortedNodeIds, List.mem_dedup, (List.perm_insertionSort _ _).mem_iff]

theorem refreshLoop_nil_runs (steps : ℕ) (visited : List NodeId) (f : NodeId → Bool) :
    ∃ V f', r.Visits [] visited V ∧ r.Refreshed V f f' ∧ (∀ n ∈ visited, f' n = f n) ∧
      ∀ changed, Runs LawfulNodeStore.Models (r, f)
        (TreeCrdt.refreshLoop steps [] visited changed : Exec Error N _)
        (fun out => ∀ n, n ∈ out ↔ n ∈ changed ∨ f n ≠ f' n) (r, f') := by
  refine ⟨_, f, .nil, .refl, fun _ _ => rfl, fun changed => ?_⟩
  unfold TreeCrdt.refreshLoop
  exact Runs.pure fun n => by simp [mem_sortedNodeIds]

/-- The loop returns the nodes whose flags it changed: `steps` covers the stack and every node that
is not visited yet. -/
theorem refreshLoop_runs [CompleteNodeStore N] (hr : Acyclic r.listed) (hn : r.Normal) (steps : ℕ)
    (stack visited : List NodeId) (f : NodeId → Bool) (hnodup : visited.Nodup)
    (hsteps : stack.length + (Nat.card NodeId - visited.length) ≤ steps) :
    ∃ V f', r.Visits stack visited V ∧ r.Refreshed V f f' ∧ (∀ n ∈ visited, f' n = f n) ∧
      ∀ changed, Runs LawfulNodeStore.Models (r, f)
        (TreeCrdt.refreshLoop steps stack visited changed : Exec Error N _)
        (fun out => ∀ n, n ∈ out ↔ n ∈ changed ∨ f n ≠ f' n) (r, f') := by
  induction steps generalizing stack visited f with
  | zero =>
    obtain rfl : stack = [] := List.length_eq_zero_iff.mp (by omega)
    exact refreshLoop_nil_runs 0 visited f
  | succ steps ih =>
    cases stack with
    | nil => exact refreshLoop_nil_runs _ visited f
    | cons node stack =>
      simp only [List.length_cons] at hsteps
      by_cases hspecial : node.special
      · obtain ⟨V, f', hvisits, href, hkept, hruns⟩ := ih stack visited f hnodup (by omega)
        refine ⟨V, f', hvisits.skip (Or.inl hspecial), href, hkept, fun changed => ?_⟩
        rw [TreeCrdt.refreshLoop, if_pos hspecial]
        exact hruns changed
      by_cases hvisited : node ∈ visited
      · obtain ⟨V, f', hvisits, href, hkept, hruns⟩ := ih stack visited f hnodup (by omega)
        refine ⟨V, f', hvisits.skip (Or.inr hvisited), href, hkept, fun changed => ?_⟩
        rw [TreeCrdt.refreshLoop, if_neg hspecial, if_pos hvisited]
        exact hruns changed
      -- A node that is visited for the first time.
      have hnodup' : (node :: visited).Nodup := List.nodup_cons.mpr ⟨hvisited, hnodup⟩
      have hcard : visited.length + 1 ≤ Nat.card NodeId := by
        rw [Nat.card_eq_fintype_card]
        exact hnodup'.length_le_card
      have hparent : (r.parent node).toList.length ≤ 1 := by cases r.parent node <;> simp
      obtain ⟨V, f', hvisits, href, hkept, hruns⟩ :=
        ih ((r.parent node).toList ++ stack) (node :: visited) (r.refreshedAt f node) hnodup'
          (by simp only [List.length_append, List.length_cons]; omega)
      have hother : ∀ n, n ≠ node → r.refreshedAt f node n = f n := fun n hn => by
        unfold Rows.refreshedAt
        split
        · exact Function.update_of_ne hn _ _
        · rfl
      refine ⟨_, f', hvisits.cons, href.cons, fun n hn => ?_, fun changed => ?_⟩
      · rw [hkept n (List.mem_cons_of_mem _ hn), hother n fun he => hvisited (he ▸ hn)]
      -- The flag of the node does not change again.
      have hnode : f' node = r.refreshedAt f node node := hkept node (List.mem_cons_self ..)
      rw [TreeCrdt.refreshLoop, if_neg hspecial, if_neg hvisited]
      refine (CompleteNodeStore.parentAndHasDeletedAt r f node).bind fun o ho => ?_
      rcases o with _ | ⟨parent, hasDeletedAt⟩
      · have hblank := ho.2 rfl
        have hp : r.parent node = none := by rw [Rows.parent_eq_row, hblank]; rfl
        have hd : (r.row node).deletedAt = none := by rw [hblank]; rfl
        rw [hp, Rows.refreshedAt, hd] at hruns
        exact hruns changed
      · obtain ⟨hsome, he⟩ := ho.1 rfl
        cases he
        rw [Rows.refreshedAt] at hruns hnode
        cases hdel : (r.row node).deletedAt.isSome with
        | false =>
          rw [hdel] at hruns
          exact (Runs.pure (Q := fun b => b = false) rfl).bind fun b hb => by
            subst hb
            exact hruns _
        | true =>
          rw [hdel, if_pos rfl] at hruns hnode
          refine (refreshFlag_runs hr hn f hsome).bind fun b hb => (hruns _).imp fun out hout n => ?_
          rw [Function.update_self] at hnode
          rw [hout n]
          by_cases hnn : n = node
          · subst hnn
            rw [hnode, Function.update_self, ← hb]
            cases b <;> simp
          · rw [Function.update_of_ne hnn]
            cases b <;> simp [hnn]

/-- The refresh returns the nodes whose flags it changed, and visits everything above its starts. -/
theorem refreshUpward_runs [CompleteNodeStore N] (hr : Acyclic r.listed) (hn : r.Normal)
    (starts : List NodeId) (f : NodeId → Bool) :
    ∃ V f', r.Visits starts [] V ∧ r.Refreshed V f f' ∧
      Runs LawfulNodeStore.Models (r, f)
        (TreeCrdt.refreshTombstonesUpwardWithDelta starts : Exec Error N _)
        (fun changed => ∀ n, n ∈ changed ↔ f n ≠ f' n) (r, f') := by
  obtain ⟨V, f', hvisits, href, -, hruns⟩ := refreshLoop_runs (N := N) hr hn (starts.length + walkLimit)
    starts.reverse [] f List.nodup_nil (by
      simp only [List.length_reverse, List.length_nil, walkLimit_eq]
      omega)
  exact ⟨V, f', ⟨fun n hn => hvisits.stack n (List.mem_reverse.mpr hn), hvisits.parent⟩, href,
    (hruns []).imp fun changed hchanged n => by simpa using hchanged n⟩

theorem refreshTombstonesUpwardWithDelta_runs (hr : Acyclic r.listed) (hn : r.Normal)
    (starts : List NodeId) (f : NodeId → Bool) :
    ∃ V f', r.Visits starts [] V ∧ r.Refreshed V f f' ∧
      Runs MemoryNodeStore.Models (r, f)
        (TreeCrdt.refreshTombstonesUpwardWithDelta starts : Exec Error MemoryNodeStore _)
        (fun changed => ∀ n, n ∈ changed ↔ f n ≠ f' n) (r, f') :=
  refreshUpward_runs hr hn starts f

end

/-! ## The refresh of all nodes -/

section

variable {N : Type} [NodeStore N] [LawfulNodeStore N] {r : Rows}

/-- The version vectors of subtrees that are known. -/
def Rows.Cached (r : Rows) (cache : List (NodeId × VersionVector)) : Prop :=
  ∀ e ∈ cache, e.2.Normal ∧ e.2.dots = r.subtreeDots e.1

omit [NodeStore N] [LawfulNodeStore N] in
theorem Rows.Cached.cons {cache : List (NodeId × VersionVector)} (h : r.Cached cache) {n : NodeId}
    {vv : VersionVector} (hnormal : vv.Normal) (hdots : vv.dots = r.subtreeDots n) :
    r.Cached ((n, vv) :: cache) := by
  intro e he
  obtain rfl | he := List.mem_cons.mp he
  · exact ⟨hnormal, hdots⟩
  · exact h e he

omit [NodeStore N] [LawfulNodeStore N] in
theorem Rows.isSome_of_listed {c p : NodeId} (h : r.listed c = some p) : (r c).isSome := by
  have hp := (Rows.listed_eq_some.mp h).2
  unfold Rows.parent at hp
  cases hr : r c with
  | none =>
    rw [hr] at hp
    cases hp
  | some _ => rfl

/-- The recursion returns the changes of the subtree; the nodes that are being visited are above. -/
theorem subtreeVvAt_runs (hr : Acyclic r.listed) (hn : r.Normal) (f : NodeId → Bool) (depth : ℕ)
    (n : NodeId) (visiting : List NodeId) (cache : List (NodeId × VersionVector))
    (hdepth : height r.listed n < depth) (hsome : (r n).isSome)
    (hvisiting : ∀ v ∈ visiting, StrictlyAbove r.listed n v) (hcache : r.Cached cache) :
    Runs LawfulNodeStore.Models (r, f)
      (TreeCrdt.subtreeVvAt depth visiting cache n : Exec Error N _)
      (fun x => x.1.Normal ∧ x.1.dots = r.subtreeDots n ∧ r.Cached x.2) (r, f) := by
  induction depth generalizing n visiting cache with
  | zero => omega
  | succ depth ih =>
    unfold TreeCrdt.subtreeVvAt
    split
    · rename_i key vv hfind
      obtain rfl : key = n := by simpa using List.find?_some hfind
      obtain ⟨hnv, hdots⟩ := hcache _ (List.mem_of_find?_eq_some hfind)
      exact Runs.pure ⟨hnv, hdots, hcache⟩
    · rw [if_neg fun hmem => hr n (hvisiting n hmem)]
      refine (LawfulNodeStore.lastChange r f n hsome).bind fun vv hvv => ?_
      refine (LawfulNodeStore.children r f n hsome).bind fun children hc => ?_
      have hloop := Runs.foldlM (R := LawfulNodeStore.Models) (a := (r, f))
        (f := fun acc child => do
          let x ← (TreeCrdt.subtreeVvAt depth (n :: visiting) acc.2 child : Exec Error N _)
          return (acc.1.merge x.1, x.2))
        (I := fun rest acc => acc.1.Normal ∧ (∀ c ∈ rest, r.listed c = some n) ∧
          (∀ d, d ∈ r.subtreeDots n ↔ d ∈ acc.1.dots ∨ ∃ c ∈ rest, d ∈ r.subtreeDots c) ∧
          r.Cached acc.2)
        ?_ (l := children) (b := (vv, cache)) ?_
      · refine hloop.bind fun acc hacc => Runs.pure ?_
        obtain ⟨hnv, -, hdots, hcached⟩ := hacc
        have hsub : acc.1.dots = r.subtreeDots n := Set.ext fun d => by rw [hdots]; simp
        exact ⟨hnv, hsub, hcached.cons hnv hsub⟩
      · rintro child rest acc ⟨hnv, hlist, hdots, hcached⟩
        have hchild := hlist child (by simp)
        have hlt := hr.height_lt hchild
        have hrow := Rows.isSome_of_listed hchild
        refine (ih child (n :: visiting) acc.2 (by omega) hrow (fun v hv => ?_) hcached).bind
          fun x hx => Runs.pure ?_
        · obtain rfl | hv := List.mem_cons.mp hv
          · exact Relation.TransGen.single hchild
          · exact Relation.TransGen.head hchild (hvisiting v hv)
        · obtain ⟨-, hxd, hxc⟩ := hx
          refine ⟨hnv.merge _, fun c hc => hlist c (List.mem_cons_of_mem _ hc), fun d => ?_, hxc⟩
          rw [hdots, VersionVector.dots_merge hnv, hxd]
          simp [or_assoc]
      · subst hvv
        refine ⟨hn.last n, fun c hcm => hc.mem_listed.mp hcm, fun d => ?_, hcache⟩
        rw [Rows.mem_subtreeDots]
        simp only [hc.mem_listed]
        rfl

/-- A node that `refresh_all_tombstones` looks at. -/
def Rows.Deleted (r : Rows) (n : NodeId) : Prop := ¬ n.special ∧ (r.row n).deletedAt.isSome

omit [NodeStore N] [LawfulNodeStore N] in
open Classical in
/-- The flag of a deleted node, before those of the other nodes. -/
theorem Rows.updates_cons (r : Rows) (hn : r.Normal) {node : NodeId} {nodes : List NodeId}
    {deleted vv : VersionVector} {updates : List (NodeId × Bool)} (hspecial : ¬ node.special)
    (hdeleted : (r.row node).deletedAt = some deleted) (hvv : vv.Normal)
    (hdots : vv.dots = r.subtreeDots node)
    (hu : (∀ e ∈ updates, r.Deleted e.1 ∧ e.2 = decide (r.Tombstoned e.1)) ∧
      ∀ n ∈ nodes, r.Deleted n → n ∈ updates.map Prod.fst) :
    (∀ e ∈ (node, deleted.isAwareOf vv) :: updates,
      r.Deleted e.1 ∧ e.2 = decide (r.Tombstoned e.1)) ∧
    ∀ n ∈ node :: nodes, r.Deleted n →
      n ∈ ((node, deleted.isAwareOf vv) :: updates).map Prod.fst := by
  have hdel : r.Deleted node := ⟨hspecial, by rw [hdeleted]; rfl⟩
  have hflag : deleted.isAwareOf vv = decide (r.Tombstoned node) := by
    rw [Bool.eq_iff_iff, decide_eq_true_eq,
      VersionVector.isAwareOf_iff (hn.deleted node deleted hdeleted) hvv, hdots,
      Rows.Tombstoned, hdeleted]
    simp
  refine ⟨fun e he => ?_, fun n hn hd => ?_⟩
  · obtain rfl | he := List.mem_cons.mp he
    · exact ⟨hdel, hflag⟩
    · exact hu.1 e he
  · obtain rfl | hn := List.mem_cons.mp hn
    · simp
    · simp [hu.2 n hn hd]

open Classical in
theorem tombstoneUpdates_runs (hr : Acyclic r.listed) (hn : r.Normal) (f : NodeId → Bool)
    (nodes : List NodeId) (cache : List (NodeId × VersionVector))
    (hsome : ∀ n ∈ nodes, (r n).isSome) (hcache : r.Cached cache) :
    Runs LawfulNodeStore.Models (r, f)
      (TreeCrdt.tombstoneUpdates nodes cache : Exec Error N _)
      (fun updates => (∀ e ∈ updates, r.Deleted e.1 ∧ e.2 = decide (r.Tombstoned e.1)) ∧
        ∀ n ∈ nodes, r.Deleted n → n ∈ updates.map Prod.fst) (r, f) := by
  induction nodes generalizing cache with
  | nil => exact Runs.pure ⟨by simp, by simp⟩
  | cons node nodes ih =>
    rw [List.forall_mem_cons] at hsome
    unfold TreeCrdt.tombstoneUpdates
    by_cases hspecial : node.special
    · rw [if_pos hspecial]
      refine (ih cache hsome.2 hcache).imp fun updates hu => ⟨hu.1, fun n hn hdel => ?_⟩
      obtain rfl | hn := List.mem_cons.mp hn
      · exact absurd hspecial hdel.1
      · exact hu.2 n hn hdel
    · rw [if_neg hspecial]
      refine (LawfulNodeStore.deletedAt r f node hsome.1).bind fun deleted hdeleted => ?_
      rcases deleted with _ | vv
      · refine (ih cache hsome.2 hcache).imp fun updates hu => ⟨hu.1, fun n hn hdel => ?_⟩
        obtain rfl | hn := List.mem_cons.mp hn
        · rw [Rows.Deleted, ← hdeleted] at hdel
          exact absurd hdel.2 (by simp)
        · exact hu.2 n hn hdel
      · refine (subtreeVvAt_runs hr hn f walkLimit node [] cache ?_ hsome.1 (by simp)
          hcache).bind fun x hx => ?_
        · have := hr.height_lt_card node
          rw [walkLimit_eq]
          omega
        obtain ⟨hnv, hdots, hcached⟩ := hx
        refine (ih x.2 hsome.2 hcached).bind fun updates hu => Runs.pure ?_
        exact r.updates_cons hn hspecial hdeleted.symm hnv hdots hu

end

open Classical in
/-- The flags after the refresh of all nodes. -/
noncomputable def Rows.refreshedAll (r : Rows) (f : NodeId → Bool) (n : NodeId) : Bool :=
  if r.Deleted n then decide (r.Tombstoned n) else f n

open Classical in
/-- Writing one flag after the other. -/
theorem foldl_flags {r : Rows} {updates : List (NodeId × Bool)} (f : NodeId → Bool)
    (h : ∀ e ∈ updates, e.2 = decide (r.Tombstoned e.1)) (n : NodeId) :
    updates.foldl (fun f e => Function.update f e.1 e.2) f n =
      if n ∈ updates.map Prod.fst then decide (r.Tombstoned n) else f n := by
  induction updates generalizing f with
  | nil => simp
  | cons e updates ih =>
    rw [List.forall_mem_cons] at h
    rw [List.foldl_cons, ih _ h.2]
    by_cases hn : n = e.1
    · subst hn
      simp [h.1]
    · simp [hn]

open Classical in
/-- The updates are the flags of the deleted nodes. -/
theorem Rows.refreshedAll_eq (r : Rows) {f : NodeId → Bool} {updates : List (NodeId × Bool)}
    (hall : ∀ n, r.Deleted n → n ∈ updates.map Prod.fst)
    (hu : ∀ e ∈ updates, r.Deleted e.1 ∧ e.2 = decide (r.Tombstoned e.1)) :
    updates.foldl (fun f e => Function.update f e.1 e.2) f = r.refreshedAll f := by
  funext n
  rw [foldl_flags f fun e he => (hu e he).2, Rows.refreshedAll]
  have hiff : r.Deleted n ↔ n ∈ updates.map Prod.fst := by
    refine ⟨hall n, fun hmem => ?_⟩
    obtain ⟨e, he, rfl⟩ := List.mem_map.mp hmem
    exact (hu e he).1
  simp only [hiff]

theorem isSome_of_deleted {r : Rows} {n : NodeId} (h : r.Deleted n) : (r n).isSome := by
  have hdel := h.2
  unfold Rows.row at hdel
  cases hr : r n with
  | none =>
    rw [hr] at hdel
    cases hdel
  | some _ => rfl

section

variable {N : Type} [NodeStore N] [LawfulNodeStore N] {r : Rows}

theorem setFlags_runs {updates : List (NodeId × Bool)} (f : NodeId → Bool)
    (h : ∀ e ∈ updates, (r e.1).isSome) :
    Runs LawfulNodeStore.Models (r, f)
      (forEach (fun e => NodeStore.setTombstone e.1 e.2) updates : Exec Error N Unit)
      (fun _ => True) (r, updates.foldl (fun f e => Function.update f e.1 e.2) f) := by
  induction updates generalizing f with
  | nil => exact Runs.pure trivial
  | cons e updates ih =>
    rw [List.forall_mem_cons] at h
    exact (LawfulNodeStore.setTombstone r f e.1 e.2 h.1).bind fun _ _ => ih _ h.2

/-- The refresh of all nodes returns, with the flags of all deleted nodes up to date. -/
theorem refreshAllTombstones_runs (hr : Forest.Acyclic r.listed) (hn : r.Normal)
    (f : NodeId → Bool)
    (hall : Runs LawfulNodeStore.Models (r, f) (NodeStore.allNodes : Exec Error N _)
      (fun nodes => ∀ n, n ∈ nodes ↔ (r n).isSome) (r, f)) :
    Runs LawfulNodeStore.Models (r, f) (TreeCrdt.refreshAllTombstones : Exec Error N Unit)
      (fun _ => True) (r, r.refreshedAll f) := by
  unfold TreeCrdt.refreshAllTombstones
  refine hall.bind fun nodes hnodes => ?_
  refine (tombstoneUpdates_runs hr hn f nodes [] (fun n h => (hnodes n).mp h)
    fun e he => (nomatch he)).bind fun updates hu => ?_
  rw [← r.refreshedAll_eq (fun n hdel => hu.2 n ((hnodes n).mpr (isSome_of_deleted hdel)) hdel) hu.1]
  exact setFlags_runs f fun e he => isSome_of_deleted (hu.1 e he).1

end

end Treecrdt
