import Mathlib.Data.List.AList
import TreecrdtLean.Core.Ids

/-!
# Version vectors (`version_vector.rs`)

A version vector maps a replica to the counters seen of it: every counter up to `frontier`, and
the inclusive `ranges` beyond. Counters are `u64` and `+` wraps, as in a release build. A range
`(s, e)` with `s = 0` or `s > e` is no range: `union` drops it and `containsRange` denies it.

The map of replicas is an association list without duplicate keys; its order is the iteration
order of the `HashMap`, which no result depends on.
-/

namespace Treecrdt

structure ReplicaVersion where
  /-- Highest contiguous counter observed. -/
  frontier : UInt64 := 0
  /-- Counters beyond the frontier, as inclusive ranges. -/
  ranges : List (UInt64 × UInt64) := []
  deriving DecidableEq, Repr

namespace ReplicaVersion

def maxSeen (v : ReplicaVersion) : UInt64 :=
  match v.ranges.getLast? with
  | some (_, e) => max e v.frontier
  | none => v.frontier

/-- `absorb_frontier_ranges`: the loop over the first range. -/
def absorbFrontierRanges (frontier : UInt64) : List (UInt64 × UInt64) → ReplicaVersion
  | [] => { frontier, ranges := [] }
  | (s, e) :: rest =>
    if s = frontier + 1 then absorbFrontierRanges e rest
    else { frontier, ranges := (s, e) :: rest }

def mergeWithNext (ranges : List (UInt64 × UInt64)) (idx : ℕ) : List (UInt64 × UInt64) :=
  match ranges[idx]?, ranges[idx + 1]? with
  | some a, some b =>
    if b.1 ≤ a.2 + 1 then (ranges.set idx (a.1, max a.2 b.2)).eraseIdx (idx + 1) else ranges
  | _, _ => ranges

/-- The part of `observe` after the previous range: the next range is extended backwards, or
covers the counter, or a single-point range is inserted at `idx`. -/
def observeNext (ranges : List (UInt64 × UInt64)) (idx : ℕ) (counter : UInt64) :
    List (UInt64 × UInt64) :=
  match ranges[idx]? with
  | some (nextStart, nextEnd) =>
    -- `next_start.saturating_sub(1)`
    if counter = (if nextStart = 0 then 0 else nextStart - 1) then
      let ranges := ranges.set idx (counter, nextEnd)
      if 0 < idx then mergeWithNext ranges (idx - 1) else ranges
    else if nextStart ≤ counter ∧ counter ≤ nextEnd then ranges
    else ranges.insertIdx idx (counter, counter)
  | none => ranges.insertIdx idx (counter, counter)

/-- The part of `observe` after the search: `idx` is the first range that does not start before the
counter. -/
def observeAt (ranges : List (UInt64 × UInt64)) (idx : ℕ) (counter : UInt64) :
    List (UInt64 × UInt64) :=
  if 0 < idx then
    match ranges[idx - 1]? with
    | some (prevStart, prevEnd) =>
      if prevStart ≤ counter ∧ counter ≤ prevEnd then ranges
      else if counter = prevEnd + 1 then
        mergeWithNext (ranges.set (idx - 1) (prevStart, counter)) (idx - 1)
      else observeNext ranges idx counter
    | none => observeNext ranges idx counter
  else observeNext ranges idx counter

/-- `observe` for a counter beyond `frontier + 1`. -/
def observeRange (ranges : List (UInt64 × UInt64)) (counter : UInt64) :
    List (UInt64 × UInt64) :=
  observeAt ranges (ranges.takeWhile fun r => r.1 < counter).length counter

def observe (v : ReplicaVersion) (counter : UInt64) : ReplicaVersion :=
  if counter = 0 then v
  else if counter ≤ v.frontier then v
  else if counter = v.frontier + 1 then absorbFrontierRanges counter v.ranges
  else { v with ranges := observeRange v.ranges counter }

/-- The scan of `contains_range` over the extra ranges. -/
def coveredBy (s e : UInt64) : List (UInt64 × UInt64) → Bool
  | [] => false
  | (rs, re) :: rest =>
    if rs > s then false else if rs ≤ s && e ≤ re then true else coveredBy s e rest

def containsRange (v : ReplicaVersion) (s e : UInt64) : Bool :=
  if s = 0 || e = 0 || s > e then false
  else if e ≤ v.frontier then true
  else if s ≤ v.frontier then false
  else coveredBy s e v.ranges

def isSupersetOf (v other : ReplicaVersion) : Bool :=
  if v.frontier < other.frontier then false
  else other.ranges.all fun r => v.containsRange r.1 r.2

/-- One range of the merge loop of `union`; `merged` is kept with its last range first. -/
def mergeRange (merged : List (UInt64 × UInt64)) (r : UInt64 × UInt64) :
    List (UInt64 × UInt64) :=
  if r.1 = 0 || r.2 = 0 || r.1 > r.2 then merged
  else
    match merged with
    | [] => [r]
    | last :: rest =>
      if r.1 ≤ last.2 + 1 then (last.1, max last.2 r.2) :: rest else r :: last :: rest

/-- The ranges of a version, the contiguous prefix among them. -/
def allRanges (v : ReplicaVersion) : List (UInt64 × UInt64) :=
  (if v.frontier > 0 then [(1, v.frontier)] else []) ++ v.ranges

/-- `merged[0]` becomes the frontier when it starts at 1. -/
def ofMerged : List (UInt64 × UInt64) → ReplicaVersion
  | [] => absorbFrontierRanges 0 []
  | (s, e) :: rest => if s = 1 then absorbFrontierRanges e rest
    else absorbFrontierRanges 0 ((s, e) :: rest)

def union (v other : ReplicaVersion) : ReplicaVersion :=
  if other.frontier = 0 ∧ other.ranges = [] then v
  else
    let all := (v.allRanges ++ other.allRanges).mergeSort fun a b => a.1 ≤ b.1
    ofMerged (all.foldl mergeRange []).reverse

end ReplicaVersion

/-- Gap-aware version vector keyed by replica. -/
structure VersionVector where
  entries : AList fun _ : ReplicaId => ReplicaVersion
  deriving DecidableEq

namespace VersionVector

def new : VersionVector := ⟨∅⟩

/-- `entries.get(replica).cloned().unwrap_or_default()`. -/
def version (vv : VersionVector) (replica : ReplicaId) : ReplicaVersion :=
  (vv.entries.lookup replica).getD {}

/-- `entries.entry(replica).or_default()`, updated by `f`. -/
def update (vv : VersionVector) (replica : ReplicaId)
    (f : ReplicaVersion → ReplicaVersion) : VersionVector :=
  ⟨vv.entries.insert replica (f (vv.version replica))⟩

def observe (vv : VersionVector) (replica : ReplicaId) (counter : UInt64) : VersionVector :=
  vv.update replica (·.observe counter)

def merge (vv other : VersionVector) : VersionVector :=
  other.entries.entries.foldl (fun acc e => acc.update e.1 (·.union e.2)) vv

def isAwareOf (vv other : VersionVector) : Bool :=
  other.entries.entries.all fun e => (vv.version e.1).isSupersetOf e.2

/-- The maximum observed counter of a replica, or 0. -/
def get (vv : VersionVector) (replica : ReplicaId) : UInt64 :=
  ((vv.entries.lookup replica).map ReplicaVersion.maxSeen).getD 0

end VersionVector

end Treecrdt
