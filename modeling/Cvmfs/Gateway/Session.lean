import Cvmfs.Gateway.Lease
import Cvmfs.Lib.Transition

/-! # The gateway as a transition system

The lease services of `Cvmfs.Gateway.Lease` interleave freely, each one atomic
under the lease mutex. A commit is not atomic: `commitLease` validates the
lease under the mutex and releases it, waits for the lock of the repository,
lets the receiver merge and publish, and only then deletes the row under the
mutex again. Its stages are the phases of a `Commit` in flight.

A service that fails leaves the store as it was, because its SQL transaction is
rolled back. The clock only moves forward: `Event.Clocked` orders the readings
of an event after the last one of the run.

Two components are bookkeeping for the statements about runs and are never read
by a service: the list of the leases granted so far, and the length of that
list at the validation of each commit.
-/

namespace Cvmfs.Gateway

open Cvmfs.Lib LeaseTable

inductive Phase where
  | waiting
  | receiving
  | checked (moment : Int)
  | published
  deriving DecidableEq

/-- One call of `commitLease` after its validation, with its copy of the lease. -/
structure Commit where
  id : Nat
  lease : Lease
  since : Nat
  phase : Phase
  deriving DecidableEq

def Commit.deadline (cfg : Config) (c : Commit) : Int :=
  c.lease.expiration - cfg.commitLeaseExpiryMargin

def Commit.holdsLock (c : Commit) : Bool :=
  match c.phase with
  | .receiving | .checked _ => true
  | .waiting | .published => false

structure State where
  store : Store
  now : Int
  commits : List Commit
  granted : List Lease

inductive Event where
  | tick (moment : Int)
  | newLease (r : LeaseRequest) (clock : LeaseReadings)
  | refreshLease (token : Text) (requestedExtension check renew : Int)
  | cancelLeases (repoPath : Text)
  | cancelLease (token : Text)
  /-- The first critical section of `commitLease`. -/
  | validate (id : Nat) (token : Text) (moment : Int)
  /-- The repository lock is taken and the receiver's `commit` is entered. -/
  | acquire (id : Nat)
  /-- The receiver compares the clock with the deadline. -/
  | check (id : Nat) (moment : Int)
  /-- The signed manifest replaces the old one; the lock is released. -/
  | publish (id : Nat) (moment : Int)
  /-- The second critical section of `commitLease`. -/
  | finish (id : Nat)
  /-- The call ends with an error of the receiver, the pool or the database. -/
  | fail (id : Nat)

/-- The readings of an event follow the last reading of the run and each
other. -/
def Event.Clocked (now : Int) : Event → Prop
  | .tick t | .validate _ _ t | .check _ t | .publish _ t => now ≤ t
  | .newLease _ clock =>
    (∀ i, now ≤ clock.check i ∧ clock.check i ≤ clock.check (i + 1) ∧
      clock.check i ≤ clock.delete) ∧ now ≤ clock.delete ∧ clock.delete ≤ clock.create
  | .refreshLease _ _ tCheck tRenew => now ≤ tCheck ∧ tCheck ≤ tRenew
  | .cancelLeases _ | .cancelLease _ | .acquire _ | .finish _ | .fail _ => True

namespace State

def setPhase (s : State) (c : Commit) (phase : Phase) : State :=
  { s with commits := s.commits.map fun d => if d = c then { d with phase := phase } else d }

def drop (s : State) (id : Nat) : State :=
  { s with commits := s.commits.filter (·.id ≠ id) }

def moveClock (s : State) (now : Int) : State := { s with now := now }

def commit (s : State) (id : Nat) : Option Commit := s.commits.find? (·.id = id)

def lockFree (s : State) (repository : Text) : Bool :=
  s.commits.all fun c => !(c.holdsLock && c.lease.repository == repository)

end State

/-- The effect of an event. An event whose precondition fails changes nothing
but the clock. -/
def next (cfg : Config) (s : State) : Event → State
  | .tick t => s.moveClock t
  | .newLease r clock =>
    match newLease cfg s.store r clock with
    | .error _ => s.moveClock clock.create
    | .ok (store, lease) =>
      { s with store := store, now := clock.create, granted := s.granted ++ [lease] }
  | .refreshLease token requested check renew =>
    match refreshLease cfg s.store token requested check renew with
    | .error _ => s.moveClock renew
    | .ok store => { s with store := store, now := renew }
  | .cancelLeases repoPath =>
    match cancelLeases cfg s.store repoPath with
    | .error _ => s
    | .ok store => { s with store := store }
  | .cancelLease token =>
    match cancelLease s.store token with
    | .error _ => s
    | .ok store => { s with store := store }
  | .validate id token t =>
    match validLease s.store.leases token t, s.commit id with
    | .ok lease, none =>
      { s with now := t, commits := ⟨id, lease, s.granted.length, .waiting⟩ :: s.commits }
    | _, _ => s.moveClock t
  | .acquire id =>
    match s.commit id with
    | some c =>
      if c.phase = .waiting && s.lockFree c.lease.repository then
        match popLease s.store.stats c.lease.combinedLeasePath with
        | none => s.drop id
        | some stats => { s with store.stats := stats }.setPhase c .receiving
      else s
    | none => s
  | .check id t =>
    match s.commit id with
    | some c =>
      if c.phase = .receiving then
        if unix t ≥ unix (c.deadline cfg) then (s.moveClock t).drop id
        else (s.moveClock t).setPhase c (.checked t)
      else s.moveClock t
    | none => s.moveClock t
  | .publish id t =>
    match s.commit id with
    | some c =>
      match c.phase with
      | .checked _ => (s.moveClock t).setPhase c .published
      | _ => s.moveClock t
    | none => s.moveClock t
  | .finish id =>
    match s.commit id with
    | some c =>
      if c.phase = .published then
        { s with store.leases := s.store.leases.deleteLeaseByToken c.lease.token }.drop id
      else s
    | none => s
  | .fail id => s.drop id

def State.start (now : Int) : State where
  store := ⟨.empty, []⟩
  now := now
  commits := []
  granted := []

def system (cfg : Config) : System State Event where
  init s := ∃ now, s = .start now
  step s e s' := e.Clocked s.now ∧ s' = next cfg s e

def run (cfg : Config) (s : State) (es : List Event) : State := es.foldl (next cfg) s

/-- The events of the list can follow each other from `s`, each meeting the
guard in the state it finds. -/
def Admitted (cfg : Config) (guard : State → Event → Prop) : State → List Event → Prop
  | _, [] => True
  | s, e :: es => guard s e ∧ e.Clocked s.now ∧ Admitted cfg guard (next cfg s e) es

theorem reach_run {cfg} {guard : State → Event → Prop} {es s} (hs : (system cfg).Reach guard s)
    (h : Admitted cfg guard s es) : (system cfg).Reach guard (run cfg s es) := by
  induction es generalizing s with
  | nil => exact hs
  | cons e es ih =>
    obtain ⟨hg, hc, hes⟩ := h
    exact ih (.step hs hg ⟨hc, rfl⟩) hes

/-! ## What one event does to the clock and to the table -/

theorem next_now (cfg : Config) {s e} (h : e.Clocked s.now) : s.now ≤ (next cfg s e).now := by
  cases e with
  | newLease r clock =>
    obtain ⟨-, h1, h2⟩ := h
    simp only [next]
    split <;> simp only [State.moveClock] <;> omega
  | refreshLease token requested tCheck tRenew =>
    obtain ⟨h1, h2⟩ := h
    simp only [next]
    split <;> simp only [State.moveClock] <;> omega
  | tick t => exact h
  | cancelLeases repoPath | cancelLease token =>
    simp only [next]
    split <;> exact Int.le_refl _
  | validate id token t =>
    simp only [next]
    split <;> exact h
  | acquire id | finish id =>
    simp only [next]
    (repeat' split) <;> exact Int.le_refl _
  | check id t | publish id t =>
    simp only [next]
    (repeat' split) <;> exact h
  | fail id => exact Int.le_refl _

theorem LeaseTable.keep_all (t : LeaseTable) : t.keep (fun _ => true) = t := by
  cases t
  simp [keep]

/-- **Table inversion.** Apart from a granted lease and an accepted refresh, an
event can only remove rows. -/
theorem next_leases (cfg : Config) (s : State) (e : Event) :
    (∃ cond, (next cfg s e).store.leases = s.store.leases.keep cond) ∨
    (∃ r clock store lease, e = .newLease r clock ∧
      newLease cfg s.store r clock = .ok (store, lease) ∧
      (next cfg s e).store = store ∧ (next cfg s e).now = clock.create) ∨
    (∃ token requested tCheck tRenew lease, e = .refreshLease token requested tCheck tRenew ∧
      validLease s.store.leases token tCheck = .ok lease ∧
      (next cfg s e).store.leases = s.store.leases.updateLeaseExpirationByToken token
        (tRenew + extension cfg requested)) := by
  have same : ∀ {s' : State}, s'.store.leases = s.store.leases →
      ∃ cond, s'.store.leases = s.store.leases.keep cond :=
    fun h => ⟨_, h.trans (keep_all _).symm⟩
  cases e with
  | newLease r clock =>
    simp only [next]
    split
    · exact .inl (same rfl)
    · rename_i store lease h
      exact .inr (.inl ⟨r, clock, store, lease, rfl, h, rfl, rfl⟩)
  | refreshLease token requested tCheck tRenew =>
    simp only [next, refreshLease]
    cases h : validLease s.store.leases token tCheck with
    | error err => exact .inl (same rfl)
    | ok lease => exact .inr (.inr ⟨token, requested, tCheck, tRenew, lease, rfl, h, rfl⟩)
  | tick t | fail id => exact .inl (same rfl)
  | cancelLeases repoPath =>
    simp only [next, cancelLeases, deleteAllLeasesByRepositoryAndPathPrefix]
    split
    · exact .inl (same rfl)
    rename_i store h
    split at h
    · cases h
    · split at h
      · cases h
      · rename_i hleases
        cases h
        cases (Option.ite_none_left_eq_some.1 hleases).2
        exact .inl ⟨_, rfl⟩
  | cancelLease token =>
    simp only [next, cancelLease]
    split
    · exact .inl (same rfl)
    rename_i store h
    split at h
    · cases h
    · cases h
      exact .inl ⟨_, rfl⟩
  | validate id token t =>
    simp only [next]
    split <;> exact .inl (same rfl)
  | acquire id | check id t | publish id t =>
    simp only [next]
    (repeat' split) <;> exact .inl (same rfl)
  | finish id =>
    simp only [next]
    split
    · split
      · exact .inl ⟨_, rfl⟩
      · exact .inl (same rfl)
    · exact .inl (same rfl)

theorem mem_overlapping (cfg : Config) {t : LeaseTable} {l path} (hl : l ∈ t.rows)
    (hcomparable : t.Comparable path) (h : l.path <+: path ∨ path <+: l.path) :
    l ∈ t.findAllLeasesByRepositoryAndOverlappingPath cfg.same l.repository path := by
  rw [LeaseTable.findAll_of_comparable hcomparable]
  exact List.mem_filter.2 ⟨hl, by simp [cfg.same_self, pathConflict_of_prefix h]⟩

end Cvmfs.Gateway
