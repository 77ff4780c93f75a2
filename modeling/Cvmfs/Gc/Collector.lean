import Cvmfs.Gc.Traversal
import Cvmfs.Lib.Transition
import Mathlib.Data.List.Dedup

/-! # The garbage collector

`Collect` marks and sweeps with one traversal object. Two breadth-first passes,
from the head revision with its history and from the tagged revisions, fill the
hash filter. A depth-first pass over the reflog entries that are not in the
filter requests the removal of what is not in the filter, each hash once. Last,
the entries that were swept leave the reflog. The set of finished catalogs is
never reset in between.

The collector is a transition system. An event is an action of one thread of
the pool at work, or of the thread that called `Collect`, which waits for the
pool between two passes. Not modelled: the pruning of partial replicas, the
statistics and the deletion log.
-/

namespace Cvmfs.Gc

open Cvmfs.Lib

inductive HistoryFetch (H : Type) where
  | ok (tags : List H)
  | notFound
  | failed
  deriving DecidableEq

/-- The revisions of the repository: `head` and all its ancestors. -/
inductive Ancestor {H : Type} (fetch : H → Fetch H) (head : Option H) : H → Prop
  | head {h} : head = some h → Ancestor fetch head h
  | previous {h c p} : Ancestor fetch head h → fetch h = .ok c → c.previous = some p →
      Ancestor fetch head p

/-- A repository as the collector finds it.

A hash is a digest with a suffix, which tells a catalog from a data object or a
chunk. A nested catalog records its mountpoint and a root catalog has none,
so that no revision is a nested catalog too. The reflog has one row per hash. -/
structure Repository (H : Type) where
  fetch : H → Fetch H
  /-- What hashes are compared by. -/
  digest : H → Nat
  /-- The root catalog of the manifest; `none` if there is no manifest. -/
  head : Option H
  history : HistoryFetch H
  reflog : List H
  reflog_nodup : reflog.Nodup
  object_not_catalog : ∀ h c x, fetch h = .ok c → x ∈ c.objects → ∀ d, fetch x ≠ .ok d
  ancestor_not_nested : ∀ h c n, fetch h = .ok c → n ∈ c.nested → ¬ Ancestor fetch head n

structure Configuration (H : Type) where
  repository : Repository H
  keepHistoryDepth : Nat
  keepHistoryTimestamp : Int
  numThreads : Nat
  dryRun : Bool
  /-- The outcomes of opening and removing a temporary file and of deleting a
  row of the reflog, and the number of failed removals at the end. -/
  reopen : H → Bool
  unlink : H → Bool
  reflogRemove : H → Bool
  uploadErrors : Nat

structure Marks (H : Type) where
  preservedCatalogs : Nat
  hashFilter : List H
  deleteRequests : List H
  /-- The calls of `RemoveAsync`, the first one first. -/
  removals : List H
  deriving DecidableEq

namespace Marks

variable {H : Type}

def fill (k : Marks H) (x : H) : Marks H := { k with hashFilter := x :: k.hashFilter }

def sweep (dryRun : Bool) (k : Marks H) (x : H) : Marks H :=
  if dryRun then k else { k with removals := k.removals ++ [x] }

def checkAndSweep (digest : H → Nat) (dryRun : Bool) (k : Marks H) (x : H) : Marks H :=
  if digest x ∈ k.hashFilter.map digest then k
  else if digest x ∈ k.deleteRequests.map digest then k
  else { k with deleteRequests := k.deleteRequests ++ [x] }.sweep dryRun x

end Marks

section Listeners

variable {H : Type}

def preserveDataObjects : Listener H (Marks H) where
  note k := { k with preservedCatalogs := k.preservedCatalogs + 1 }
  visits h c := h :: c.objects
  visit := Marks.fill

def sweepDataObjects (digest : H → Nat) (dryRun : Bool) : Listener H (Marks H) where
  note k := k
  visits h c := c.objects ++ [h]
  visit := Marks.checkAndSweep digest dryRun

end Listeners

inductive Phase (H : Type) where
  | trunk
  | tags
  | sweep (toSweep : List H)
  | unlog (rest : List H) (success : Bool)
  | returned (success : Bool)
  deriving DecidableEq

structure State (H : Type) where
  phase : Phase H
  pool : Pool H (Marks H)
  reflog : List H

inductive Event where
  | thread (i : Nat)
  | main
  deriving DecidableEq

namespace Configuration

variable {H : Type}

def getTraversalParams (cfg : Configuration H) : Parameters where
  history := cfg.keepHistoryDepth
  timestamp := cfg.keepHistoryTimestamp
  noRepeatHistory := true
  ignoreLoadFailure := true
  serializeCallbacks := true
  numThreads := cfg.numThreads

def env (cfg : Configuration H) : Env H where
  params := cfg.getTraversalParams
  fetch := cfg.repository.fetch
  reopen := cfg.reopen
  unlink := cfg.unlink

/-- `Traverse` uses the configured thresholds, `TraverseList` none. -/
def mode (cfg : Configuration H) : Phase H → Mode
  | .trunk => ⟨.breadthFirst, cfg.keepHistoryDepth, cfg.keepHistoryTimestamp⟩
  | .sweep _ => ⟨.depthFirst, Parameters.noHistory, Parameters.noTimestampThreshold⟩
  | _ => ⟨.breadthFirst, Parameters.noHistory, Parameters.noTimestampThreshold⟩

variable [DecidableEq H]

def listener (cfg : Configuration H) : Phase H → Listener H (Marks H)
  | .sweep _ => sweepDataObjects cfg.repository.digest cfg.dryRun
  | _ => preserveDataObjects

end Configuration

namespace State

variable {H : Type} [DecidableEq H]

def marks (s : State H) : Marks H := s.pool.shared.client

def freshShared : Shared H (Marks H) where
  allocated := 0
  pre := []
  post := []
  processing := []
  done := []
  listeners := []
  childrenUnprocessed _ := 0
  numErrors := 0
  callbackLock := false
  client := ⟨0, [], [], []⟩

/-- `Collect` up to the pool of the first `Traverse`. -/
def start (cfg : Configuration H) : State H :=
  match cfg.repository.head with
  | none => ⟨.returned false, ⟨freshShared, []⟩, cfg.repository.reflog⟩
  | some h =>
    ⟨.trunk, .spawn cfg.env (freshShared.pushStarts [h]), cfg.repository.reflog⟩

/-- `TraverseList` up to its pool; it is a no-op if nothing is left to push. -/
def traverseList (cfg : Configuration H) (s : State H) (list : List H) (phase : Phase H)
    (noop : State H) : State H :=
  match s.pool.shared.selectStarts cfg.env list with
  | [] => noop
  | h :: hs => { s with phase, pool := .spawn cfg.env (s.pool.shared.pushStarts (h :: hs)) }

def toSweep (cfg : Configuration H) (s : State H) : List H :=
  s.reflog.filter fun h =>
    cfg.repository.digest h ∉ s.marks.hashFilter.map cfg.repository.digest

/-- `CheckPreservedRevisions`, then `SweepReflog` up to its pool. -/
def sweepReflog (cfg : Configuration H) (s : State H) : State H :=
  if s.marks.preservedCatalogs = 0 then { s with phase := .returned false }
  else s.traverseList cfg (s.toSweep cfg) (.sweep (s.toSweep cfg))
    { s with phase := .unlog (s.toSweep cfg) true }

def traverseNamedSnapshots (cfg : Configuration H) (s : State H) : State H :=
  match cfg.repository.history with
  | .failed => { s with phase := .returned false }
  | .notFound => s.sweepReflog cfg
  | .ok tags => s.traverseList cfg tags.dedup .tags (s.sweepReflog cfg)

/-- `RemoveCatalogFromReflog`; the conjunction skips it after a failure. -/
def removeCatalogFromReflog (cfg : Configuration H) (s : State H) (h : H) (rest : List H) :
    State H :=
  if cfg.dryRun then { s with phase := .unlog rest true }
  else if cfg.reflogRemove h then
    { s with phase := .unlog rest true, reflog := s.reflog.filter (· ≠ h) }
  else { s with phase := .unlog rest false }

/-- The next action of the thread that called `Collect`; `none` while it waits. -/
def main (cfg : Configuration H) (s : State H) : Option (State H) :=
  match s.phase with
  | .trunk =>
    s.pool.join.map fun ok =>
      if ok then s.traverseNamedSnapshots cfg else { s with phase := .returned false }
  | .tags =>
    s.pool.join.map fun ok =>
      if ok then s.sweepReflog cfg else { s with phase := .returned false }
  | .sweep toSweep => s.pool.join.map fun ok => { s with phase := .unlog toSweep ok }
  | .unlog (h :: rest) true => some (s.removeCatalogFromReflog cfg h rest)
  | .unlog (_ :: rest) false => some { s with phase := .unlog rest false }
  | .unlog [] ok => some { s with phase := .returned (ok && cfg.uploadErrors = 0) }
  | .returned _ => none

def next (cfg : Configuration H) (s : State H) : Event → Option (State H)
  | .main => s.main cfg
  | .thread i =>
    match s.phase with
    | .trunk | .tags | .sweep _ =>
      (s.pool.step cfg.env (cfg.mode s.phase) (cfg.listener s.phase) i).map
        fun pool => { s with pool }
    | .unlog _ _ | .returned _ => none

/-- Runs up to `n` actions, each time the first of `events` that is possible. -/
def play (cfg : Configuration H) (events : List Event) : Nat → State H → State H
  | 0, s => s
  | n + 1, s =>
    match events.findSome? (s.next cfg) with
    | none => s
    | some s' => s'.play cfg events n

end State

variable {H : Type} [DecidableEq H]

def system (cfg : Configuration H) : System (State H) Event where
  init s := s = State.start cfg
  step s e s' := s.next cfg e = some s'

def Reachable (cfg : Configuration H) (s : State H) : Prop :=
  (system cfg).Reach System.anyStep s

theorem reachable_play (cfg : Configuration H) (events : List Event) (n : Nat) {s}
    (hs : Reachable cfg s) : Reachable cfg (s.play cfg events n) := by
  induction n generalizing s with
  | zero => exact hs
  | succ n ih =>
    unfold State.play
    split
    · exact hs
    case h_2 s' hnext =>
      obtain ⟨e, -, he⟩ := List.exists_of_findSome?_eq_some hnext
      exact ih (.step hs trivial he)

theorem reachable_start (cfg : Configuration H) : Reachable cfg (State.start cfg) := .init rfl

end Cvmfs.Gc
