import Cvmfs.Lib.Table
import Cvmfs.Lib.Transition

/-! # Remounting a mounted file system

Threads run fuse callbacks and the methods of the remounter; each step is one access to an
atomic variable, to the invalidator or to the catalog manager. A busy wait whose test fails
is a step that changes nothing. The invalidator is a thread of its own. -/

namespace Cvmfs.Remount

open Lib (Table System)

/-- Counter of entered regions and a flag that blocks new ones. -/
structure Fence where
  counter : Nat := 0
  blocking : Bool := false
  deriving DecidableEq

namespace Fence

def enter (f : Fence) : Fence := { f with counter := f.counter + 1 }

def leave (f : Fence) : Fence := { f with counter := f.counter - 1 }

def close (f : Fence) : Fence := { f with blocking := true }

def «open» (f : Fence) : Fence := { f with blocking := false }

end Fence

inductive LoadReturn where
  | new
  | up2Date
  | fail
  | noSpace
  deriving DecidableEq

inductive Status where
  | up2Date
  | draining
  | maintenance
  | failGeneral
  | failNoSpace
  deriving DecidableEq

/-- Who calls `TryFinish`: a fuse callback, `CheckSynchronously` or `ChangeRoot`. -/
inductive Caller (Hash : Type) where
  | callback
  | sync
  | root (h : Hash)
  deriving DecidableEq

inductive Finish where
  | test
  | add
  | maintenance
  | critical
  | drainout
  | done
  | close
  | drain
  | replace
  | «open»
  | endDrainout
  | leaveCritical
  | leave
  deriving DecidableEq

/-- Who moves into drainout mode: `Check`, from `CheckSynchronously` or not, or `ChangeRoot`. -/
inductive Updater (Hash : Type) where
  | check (sync : Bool)
  | root (h : Hash)
  deriving DecidableEq

/-- Places in `Check` and in the first part of `ChangeRoot`. -/
inductive Update where
  | test
  | add
  | maintenance
  | dryrun
  | cas
  | reset
  | request
  | advance
  | leave (status : Status)
  deriving DecidableEq

inductive Maintain where
  | close
  | drain
  | set
  | «open»
  | reset
  | request
  | wait
  deriving DecidableEq

/-- Where a thread is. A callback calls `TryFinish`, enters the fence, queries catalogs at
`inside` and leaves; `ChangeRoot` compares the root hash first and at the end. -/
inductive Pc (Hash : Type) where
  | finish (k : Caller Hash) (f : Finish)
  | fenceTest
  | fenceAdd
  | inside
  | compare (h : Hash)
  | update (u : Updater Hash) (p : Update)
  | poll (h : Hash)
  | compareAgain (h : Hash)
  | maintain (m : Maintain)
  deriving DecidableEq

/-- Shared variables. `asked` is the number of the request for the last drainout; `answers`
are the arguments of `ChangeRoot` that were answered with `kStatusUp2Date`, with the root at
that moment; `maintained` says that `EnterMaintenanceMode` has returned. -/
structure Shared (Hash : Type) where
  root : Hash
  fence : Fence := {}
  fenceMaintenance : Fence := {}
  drainout : Nat := 0
  maintenance : Bool := false
  critical : Nat := 0
  handleDone : Bool := false
  channel : List Nat := []
  working : Option Nat := none
  requests : Nat := 0
  asked : Nat := 0
  answers : List (Hash × Hash) := []
  maintained : Bool := false

variable {Hash : Type} [DecidableEq Hash]

namespace Shared

variable (sh : Shared Hash)

def push : Shared Hash :=
  { sh with channel := sh.channel ++ [sh.requests], requests := sh.requests + 1 }

/-- Where the caller of `TryFinish` goes on. -/
def afterFinish : Caller Hash → Pc Hash
  | .callback => .fenceTest
  | .sync => .update (.check true) .test
  | .root h => .poll h

/-- One step of `TryFinish`; `loaded` is the new root, if the catalog manager loaded one. -/
def execFinish (null : Hash) (k : Caller Hash) (loaded : Option Hash) :
    Finish → Option (Shared Hash × Pc Hash)
  | .test => some (sh, .finish k (if sh.fenceMaintenance.blocking then .test else .add))
  | .add => some ({ sh with fenceMaintenance := sh.fenceMaintenance.enter }, .finish k .maintenance)
  | .maintenance => some (sh, .finish k (if sh.maintenance then .leave else .critical))
  | .critical =>
    if sh.critical = 0 then some ({ sh with critical := 1 }, .finish k .drainout)
    else some (sh, .finish k .leave)
  | .drainout => some (sh, .finish k (if sh.drainout = 2 then .done else .leaveCritical))
  | .done => some (sh, .finish k (if sh.handleDone then .close else .leaveCritical))
  | .close => some ({ sh with fence := sh.fence.close }, .finish k .drain)
  | .drain => some (sh, .finish k (if 0 < sh.fence.counter then .drain else .replace))
  | .replace =>
    match k, loaded with
    | _, none => some (sh, .finish k .open)
    | .root h, some root =>
      if h = null ∨ root = h then some ({ sh with root }, .finish k .open) else none
    | _, some root => some ({ sh with root }, .finish k .open)
  | .open => some ({ sh with fence := sh.fence.open }, .finish k .endDrainout)
  | .endDrainout => some ({ sh with drainout := sh.drainout - 2 }, .finish k .leaveCritical)
  | .leaveCritical => some ({ sh with critical := sh.critical - 1 }, .finish k .leave)
  | .leave => some ({ sh with fenceMaintenance := sh.fenceMaintenance.leave }, afterFinish k)

/-- What `Check` does with the outcome of `RemountDryrun`. -/
def afterDryrun : LoadReturn → Update
  | .new => .cas
  | .fail => .leave .failGeneral
  | .noSpace => .leave .failNoSpace
  | .up2Date => .leave .up2Date

/-- `CheckSynchronously` calls `TryFinish` and goes on. -/
def afterLeave : Updater Hash → Status → Option (Pc Hash)
  | .check true, .draining => some (.finish .sync .test)
  | _, _ => none

/-- One step of `Check` or of the first part of `ChangeRoot`; no place means return. -/
def execUpdate (u : Updater Hash) (load : LoadReturn) : Update → Shared Hash × Option (Pc Hash)
  | .test => (sh, some (.update u (if sh.fenceMaintenance.blocking then .test else .add)))
  | .add =>
    ({ sh with fenceMaintenance := sh.fenceMaintenance.enter }, some (.update u .maintenance))
  | .maintenance =>
    if sh.maintenance then (sh, some (.update u (.leave .maintenance)))
    else
      match u with
      | .check _ => (sh, some (.update u .dryrun))
      | .root _ => (sh, some (.update u .cas))
  | .dryrun => (sh, some (.update u (afterDryrun load)))
  | .cas =>
    if sh.drainout = 0 then ({ sh with drainout := 1 }, some (.update u .reset))
    else (sh, some (.update u (.leave .draining)))
  | .reset => ({ sh with handleDone := false }, some (.update u .request))
  | .request => ({ sh.push with asked := sh.requests }, some (.update u .advance))
  | .advance =>
    ({ sh with drainout := sh.drainout + 1 }, some (match u with
        | .check _ => .update u (.leave .draining)
        | .root h => .finish (.root h) .test))
  | .leave status =>
    ({ sh with fenceMaintenance := sh.fenceMaintenance.leave }, afterLeave u status)

def execMaintain : Maintain → Shared Hash × Option (Pc Hash)
  | .close =>
    ({ sh with fenceMaintenance := sh.fenceMaintenance.close }, some (.maintain .drain))
  | .drain =>
    (sh, some (.maintain (if 0 < sh.fenceMaintenance.counter then .drain else .set)))
  | .set => ({ sh with maintenance := true }, some (.maintain .open))
  | .open => ({ sh with fenceMaintenance := sh.fenceMaintenance.open }, some (.maintain .reset))
  | .reset => ({ sh with handleDone := false }, some (.maintain .request))
  | .request => (sh.push, some (.maintain .wait))
  | .wait =>
    if sh.handleDone then ({ sh with maintained := true }, none) else (sh, some (.maintain .wait))

def exec (null : Hash) (load : LoadReturn) (loaded : Option Hash) :
    Pc Hash → Option (Shared Hash × Option (Pc Hash))
  | .finish k f => (sh.execFinish null k loaded f).map fun r => (r.1, some r.2)
  | .fenceTest => some (sh, some (if sh.fence.blocking then .fenceTest else .fenceAdd))
  | .fenceAdd => some ({ sh with fence := sh.fence.enter }, some .inside)
  | .inside => some ({ sh with fence := sh.fence.leave }, none)
  | .compare h =>
    if sh.root = h then some ({ sh with answers := (h, sh.root) :: sh.answers }, none)
    else some (sh, some (.update (.root h) .test))
  | .update u p => some (sh.execUpdate u load p)
  | .poll h =>
    some (sh, some (if sh.drainout = 0 then .compareAgain h else .finish (.root h) .test))
  | .compareAgain h =>
    if sh.root = h then
      some ({ sh with answers := (h, sh.root) :: sh.answers },
        some (.update (.root h) (.leave .up2Date)))
    else some (sh, some (.update (.root h) (.leave .failGeneral)))
  | .maintain m => some (sh.execMaintain m)

end Shared

structure State (Hash : Type) where
  shared : Shared Hash
  calls : Table Nat (Pc Hash) := .empty

/-- The calls that threads make; some callbacks do not call `TryFinish`. -/
inductive Method (Hash : Type) where
  | callback (tryFinish : Bool)
  | check
  | checkSynchronously
  | changeRoot (h : Hash)
  | enterMaintenanceMode

def Method.begin : Method Hash → Pc Hash
  | .callback true => .finish .callback .test
  | .callback false => .fenceTest
  | .check => .update (.check false) .test
  | .checkSynchronously => .update (.check true) .test
  | .changeRoot h => .compare h
  | .enterMaintenanceMode => .maintain .close

inductive Event (Hash : Type) where
  | call (t : Nat) (m : Method Hash)
  | step (t : Nat) (load : LoadReturn) (loaded : Option Hash)
  /-- The invalidator takes the next request. -/
  | take
  /-- The invalidator has evicted everything. -/
  | evicted

namespace State

/-- A thread goes to a place or returns. -/
def move (s : State Hash) (t : Nat) (sh : Shared Hash) : Option (Pc Hash) → State Hash
  | some pc => { shared := sh, calls := s.calls.put t pc }
  | none => { shared := sh, calls := s.calls.erase t }

def step (null : Hash) (s : State Hash) : Event Hash → Option (State Hash)
  | .call t m => if s.calls.find? t = none then some (s.move t s.shared (some m.begin)) else none
  | .step t load loaded =>
    match s.calls.find? t with
    | none => none
    | some pc => (s.shared.exec null load loaded pc).map fun r => s.move t r.1 r.2
  | .take =>
    match s.shared.working, s.shared.channel with
    | none, r :: rest => some { s with shared := { s.shared with working := some r, channel := rest } }
    | _, _ => none
  | .evicted =>
    match s.shared.working with
    | none => none
    | some _ => some { s with shared := { s.shared with working := none, handleDone := true } }

end State

def remounter (null : Hash) : System (State Hash) (Event Hash) where
  init s := ∃ root, s = { shared := { root } }
  step s e s' := s.step null e = some s'

end Cvmfs.Remount
