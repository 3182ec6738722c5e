import TreecrdtLean.Core.Memory
import TreecrdtLean.Spec.Flags

/-!
# What a full replay makes

The rows that `replayFromStorageWithMaterialization` records are a function of the log
(`Doc.Rebuilt`): every operation under the parents that it affects, and behind them the last writer
of every payload under the parent of its node. `ROOT` and `TRASH` may have parents here, so the
listed parents need not be a forest, and the refresh of the flags may fail; if it returns, the flags
of the deleted nodes are their tombstones.
-/

namespace Treecrdt

open Exec Forest

/-! ## The refresh of all nodes, if it returns -/

section

variable {N : Type} [NodeStore N] [LawfulNodeStore N] {r : Rows} {f : NodeId → Bool}
  {E : Error → Prop}

/-- The store has these rows and these flags. -/
abbrev HasModel (N : Type) [NodeStore N] [LawfulNodeStore N] (r : Rows) (f : NodeId → Bool)
    (s : N) : Prop := LawfulNodeStore.Models s (r, f)

theorem subtreeVvAt_keeps (hn : r.Normal) (depth : ℕ) (n : NodeId) (visiting : List NodeId)
    (cache : List (NodeId × VersionVector)) (hsome : (r n).isSome) (hcache : r.Cached cache) :
    Keeps (HasModel N r f) (fun _ => True) (TreeCrdt.subtreeVvAt depth visiting cache n)
      (fun x => x.1.Normal ∧ x.1.dots = r.subtreeDots n ∧ r.Cached x.2) := by
  induction depth generalizing n visiting cache with
  | zero => exact Keeps.diverge
  | succ depth ih =>
    unfold TreeCrdt.subtreeVvAt
    split
    · rename_i key vv hfind
      obtain rfl : key = n := by simpa using List.find?_some hfind
      obtain ⟨hnv, hdots⟩ := hcache _ (List.mem_of_find?_eq_some hfind)
      exact Keeps.pure ⟨hnv, hdots, hcache⟩
    split
    · exact Keeps.bind (Q := fun _ => False) (Keeps.throw trivial) fun _ h => h.elim
    refine (LawfulNodeStore.lastChange r f n hsome).keeps_self.bind fun vv hvv => ?_
    refine (LawfulNodeStore.children r f n hsome).keeps_self.bind fun children hc => ?_
    have hloop := Keeps.foldlM_rest (I := HasModel N r f) (E := fun _ => True)
      (f := fun acc child => do
        let x ← (TreeCrdt.subtreeVvAt depth (n :: visiting) acc.2 child : Exec Error N _)
        return (acc.1.merge x.1, x.2))
      (J := fun rest acc => acc.1.Normal ∧ (∀ c ∈ rest, r.listed c = some n) ∧
        (∀ d, d ∈ r.subtreeDots n ↔ d ∈ acc.1.dots ∨ ∃ c ∈ rest, d ∈ r.subtreeDots c) ∧
        r.Cached acc.2)
      ?_ (l := children) (b := (vv, cache)) ?_
    · refine hloop.bind fun acc hacc => Keeps.pure ?_
      obtain ⟨hnv, -, hdots, hcached⟩ := hacc
      have hsub : acc.1.dots = r.subtreeDots n := Set.ext fun d => by rw [hdots]; simp
      exact ⟨hnv, hsub, hcached.cons hnv hsub⟩
    · rintro child rest acc ⟨hnv, hlist, hdots, hcached⟩
      have hrow := Rows.isSome_of_listed (hlist child (by simp))
      refine (ih child (n :: visiting) acc.2 hrow hcached).bind fun x hx => Keeps.pure ?_
      obtain ⟨-, hxd, hxc⟩ := hx
      refine ⟨hnv.merge _, fun c hc => hlist c (List.mem_cons_of_mem _ hc), fun d => ?_, hxc⟩
      rw [hdots, VersionVector.dots_merge hnv, hxd]
      simp [or_assoc]
    · subst hvv
      refine ⟨hn.last n, fun c hcm => hc.mem_listed.mp hcm, fun d => ?_, hcache⟩
      rw [Rows.mem_subtreeDots]
      simp only [hc.mem_listed]
      rfl

open Classical in
theorem tombstoneUpdates_keeps (hn : r.Normal) (nodes : List NodeId)
    (cache : List (NodeId × VersionVector)) (hsome : ∀ n ∈ nodes, (r n).isSome)
    (hcache : r.Cached cache) :
    Keeps (HasModel N r f) (fun _ => True) (TreeCrdt.tombstoneUpdates nodes cache)
      (fun updates => (∀ e ∈ updates, r.Deleted e.1 ∧ e.2 = decide (r.Tombstoned e.1)) ∧
        ∀ n ∈ nodes, r.Deleted n → n ∈ updates.map Prod.fst) := by
  induction nodes generalizing cache with
  | nil => exact Keeps.pure ⟨by simp, by simp⟩
  | cons node nodes ih =>
    rw [List.forall_mem_cons] at hsome
    unfold TreeCrdt.tombstoneUpdates
    by_cases hspecial : node.special
    · rw [if_pos hspecial]
      refine (ih cache hsome.2 hcache).imp fun updates hu => ⟨hu.1, fun n hn hdel => ?_⟩
      obtain rfl | hn := List.mem_cons.mp hn
      · exact absurd hspecial hdel.1
      · exact hu.2 n hn hdel
    · rw [if_neg hspecial]
      refine (LawfulNodeStore.deletedAt r f node hsome.1).keeps_self.bind fun deleted hdeleted => ?_
      rcases deleted with _ | vv
      · refine (ih cache hsome.2 hcache).imp fun updates hu => ⟨hu.1, fun n hn hdel => ?_⟩
        obtain rfl | hn := List.mem_cons.mp hn
        · rw [Rows.Deleted, ← hdeleted] at hdel
          exact absurd hdel.2 (by simp)
        · exact hu.2 n hn hdel
      · refine (subtreeVvAt_keeps hn walkLimit node [] cache hsome.1 hcache).bind fun x hx => ?_
        obtain ⟨hnv, hdots, hcached⟩ := hx
        refine (ih x.2 hsome.2 hcached).bind fun updates hu => Keeps.pure ?_
        exact r.updates_cons hn hspecial hdeleted.symm hnv hdots hu

end

namespace MemoryNodeStore

/-- A refresh of all nodes that returns has brought the flags of all deleted nodes up to date. -/
theorem refreshAllTombstones_triple {r : Rows} (hn : r.Normal) (f : NodeId → Bool) :
    Triple (fun s => Models s (r, f)) (TreeCrdt.refreshAllTombstones : Exec Error MemoryNodeStore Unit)
      (fun _ s => Models s (r, r.refreshedAll f)) fun _ _ => True := by
  unfold TreeCrdt.refreshAllTombstones
  intro s hs x s' hrun
  obtain ⟨e, -, rfl⟩ | ⟨nodes, s₁, hnodes, hrun⟩ := bind_some hrun
  · trivial
  obtain ⟨hs₁, hmem⟩ := (allNodes_runs r f).keeps_self (E := fun _ => True) s hs _ _ hnodes
  obtain ⟨e, -, rfl⟩ | ⟨updates, s₂, hupdates, hrun⟩ := bind_some hrun
  · trivial
  obtain ⟨hs₂, hu⟩ := tombstoneUpdates_keeps hn nodes [] (fun n h => (hmem n).mp h)
    (fun e he => (nomatch he)) s₁ hs₁ _ _ hupdates
  obtain ⟨_, s₃, hset, -, hs₃⟩ := setFlags_runs f (fun e he => isSome_of_deleted (hu.1 e he).1) s₂ hs₂
  rw [hset] at hrun
  cases hrun
  rw [← r.refreshedAll_eq (fun n hdel => hu.2 n ((hmem n).mpr (isSome_of_deleted hdel)) hdel) hu.1]
  exact hs₃

end MemoryNodeStore

end Treecrdt
