import Cvmfs.Lib.Table
import Cvmfs.Lib.Transition

/-! # Fetcher

Threads call `Fetch` for objects. The first thread that misses an object in the cache
becomes the master for it: it registers its list of waiting threads, downloads the object
and sends a descriptor to everybody in the list. A step is one operation of one thread,
with any outcome of the cache manager and of the download manager in the event.

Descriptors are counted references: a cache manager may give the same number several
times, for the same object only, and each of them has to be closed. -/

namespace Cvmfs.Fetch

open Function

open Lib (Table System)

structure LabeledObject (Id : Type) where
  id : Id
  isCatalog : Bool := false
  isPinned : Bool := false

inductive CacheCall where
  | «open»
  | openPinned
  deriving DecidableEq

def openSelect {Id : Type} (object : LabeledObject Id) : CacheCall :=
  if object.isCatalog ∨ object.isPinned then .openPinned else .open

def negEIO : Int := -5

/-- Error code of a download job; `other` is any code but these two. -/
inductive Failures where
  | ok
  | hostHttp
  | other
  deriving DecidableEq

/-- Where a call is. From `startTxn` to `write` the thread is the master for the object. -/
inductive Pc where
  | probe
  | lock
  | find
  | wait (master : Nat)
  | recheck
  | startTxn
  | download
  | retryAbort
  | retryStart
  | downloadFull
  | openFromTxn
  | abort (result : Int)
  | commitTxn (fd : Nat)
  | close (fd : Nat) (result : Int)
  | signal (result : Int)
  | dup (result : Int) (i : Nat)
  | write (result : Int) (i : Nat) (fdDup : Int)
  | ret (result : Int)
  deriving DecidableEq

structure Call (Id : Type) where
  number : Nat
  object : LabeledObject Id
  pc : Pc

/-- A number in a pipe; who wrote it, as the master for which object, is recorded. -/
structure Reply (Id : Type) where
  value : Int
  author : Nat
  id : Id
  deriving DecidableEq

structure Answer (Id : Type) where
  number : Nat
  id : Id
  result : Int
  deriving DecidableEq

structure Config (Id : Type) where
  isNull : Id → Bool
  /-- There is a download manager for the full replica. -/
  fullReplica : Bool

/-- Shared state, the storage of each thread (`waiting`, `pipes`) and the running calls.
`held` are the answers whose descriptor was not closed by the caller. -/
structure State (Id : Type) where
  calls : Table Nat (Call Id) := .empty
  mutex : Option Nat := none
  queues : Table Id Nat := .empty
  waiting : Nat → List Nat := fun _ => []
  pipes : Nat → List (Reply Id) := fun _ => []
  opened : List (Int × Id) := []
  txns : List Nat := []
  numCalls : Nat := 0
  returned : List (Answer Id) := []
  held : List (Answer Id) := []
  closed : List (Answer Id) := []

inductive Op where
  | openSelect (call : CacheCall) (fd : Int)
  | lock
  | find
  | readPipe
  | startTxn (retval : Int)
  | fetch (error : Failures) (httpCode : Nat)
  | abortTxn
  | openFromTxn (fd : Int)
  | commitTxn (retval : Int)
  | close
  | dup (fd : Int)
  | writePipe
  | clear
  | ret

inductive Event (Id : Type) where
  | fetch (t : Nat) (object : LabeledObject Id)
  | op (t : Nat) (op : Op)
  /-- A caller closes a descriptor that it got. -/
  | release (i : Nat)

variable {Id : Type} [DecidableEq Id]

/-- The references that non-negative numbers stand for. -/
def refs (id : Id) (fds : List Int) : List (Int × Id) := (fds.filter (0 ≤ ·)).map (·, id)

namespace State

/-- What the cache manager ensures for a new descriptor: its number is not in use for
another object. -/
def Valid (s : State Id) (fd : Int) (id : Id) : Prop :=
  0 ≤ fd → ∀ r ∈ s.opened, r.1 = fd → r.2 = id

instance (s : State Id) (fd : Int) (id : Id) : Decidable (s.Valid fd id) :=
  inferInstanceAs (Decidable (0 ≤ fd → _))

def goto (s : State Id) (t : Nat) (c : Call Id) (pc : Pc) : State Id :=
  { s with calls := s.calls.put t { c with pc } }

def opening (s : State Id) (fd : Int) (id : Id) : State Id :=
  { s with opened := refs id [fd] ++ s.opened }

variable (cfg : Config Id)

def op (s : State Id) (t : Nat) (c : Call Id) : Pc → Op → Option (State Id)
  | .probe, .openSelect call fd =>
    if call = openSelect c.object ∧ s.Valid fd c.object.id then
      if 0 ≤ fd then some ((s.opening fd c.object.id).goto t c (.ret fd))
      else if cfg.isNull c.object.id then some (s.goto t c (.ret negEIO))
      else some (s.goto t c .lock)
    else none
  | .lock, .lock => if s.mutex = none then some ({ s with mutex := some t }.goto t c .find) else none
  | .find, .find =>
    match s.queues.find? c.object.id with
    | some master => some ({ s with
        waiting := update s.waiting master (s.waiting master ++ [t])
        mutex := none }.goto t c (.wait master))
    | none => some (s.goto t c .recheck)
  | .wait _, .readPipe =>
    match s.pipes t with
    | [] => none
    | reply :: rest =>
      some ({ s with pipes := update s.pipes t rest }.goto t c (.ret reply.value))
  | .recheck, .openSelect call fd =>
    if call = openSelect c.object ∧ s.Valid fd c.object.id then
      if 0 ≤ fd then some ({ s.opening fd c.object.id with mutex := none }.goto t c (.ret fd))
      else some ({ s with queues := s.queues.put c.object.id t, mutex := none }.goto t c .startTxn)
    else none
  | .startTxn, .startTxn retval =>
    if retval < 0 then some (s.goto t c (.signal retval))
    else some ({ s with txns := t :: s.txns }.goto t c .download)
  | .download, .fetch error httpCode =>
    if error = .hostHttp ∧ httpCode = 404 ∧ cfg.fullReplica then some (s.goto t c .retryAbort)
    else if error = .ok then some (s.goto t c .openFromTxn)
    else some (s.goto t c (.abort negEIO))
  | .retryAbort, .abortTxn => some ({ s with txns := s.txns.erase t }.goto t c .retryStart)
  | .retryStart, .startTxn retval =>
    if retval < 0 then some (s.goto t c (.signal retval))
    else some ({ s with txns := t :: s.txns }.goto t c .downloadFull)
  | .downloadFull, .fetch error _ =>
    if error = .ok then some (s.goto t c .openFromTxn) else some (s.goto t c (.abort negEIO))
  | .openFromTxn, .openFromTxn fd =>
    if fd < 0 then some (s.goto t c (.abort fd))
    else if s.Valid fd c.object.id then
      some ((s.opening fd c.object.id).goto t c (.commitTxn fd.toNat))
    else none
  | .abort result, .abortTxn =>
    some ({ s with txns := s.txns.erase t }.goto t c (.signal result))
  | .commitTxn fd, .commitTxn retval =>
    -- the transaction is over whatever the outcome is
    let s := { s with txns := s.txns.erase t }
    if retval < 0 then some (s.goto t c (.close fd retval)) else some (s.goto t c (.signal fd))
  | .close fd result, .close =>
    some ({ s with opened := s.opened.erase (fd, c.object.id) }.goto t c (.signal result))
  | .signal result, .lock =>
    if s.mutex = none then some ({ s with mutex := some t }.goto t c (.dup result 0)) else none
  | .dup result i, .dup fd =>
    if i < (s.waiting t).length then
      if 0 ≤ result then
        if s.Valid fd c.object.id then
          some ((s.opening fd c.object.id).goto t c (.write result i fd))
        else none
      else some (s.goto t c (.write result i result))
    else none
  | .write result i fdDup, .writePipe =>
    match (s.waiting t)[i]? with
    | none => none
    | some u => some ({ s with
        pipes := update s.pipes u
          (s.pipes u ++ [(⟨fdDup, t, c.object.id⟩ : Reply Id)]) }.goto t c (.dup result (i + 1)))
  | .dup result i, .clear =>
    if i = (s.waiting t).length then
      some ({ s with
        waiting := update s.waiting t []
        queues := s.queues.erase c.object.id
        mutex := none }.goto t c (.ret result))
    else none
  | .ret result, .ret =>
    let answer : Answer Id := ⟨c.number, c.object.id, result⟩
    some { s with
      calls := s.calls.erase t
      returned := answer :: s.returned
      held := if 0 ≤ result then answer :: s.held else s.held }
  | _, _ => none

def step (s : State Id) : Event Id → Option (State Id)
  | .fetch t object =>
    if s.calls.find? t = none then
      some { s with
        calls := s.calls.put t ⟨s.numCalls, object, .probe⟩
        numCalls := s.numCalls + 1 }
    else none
  | .op t op =>
    match s.calls.find? t with
    | none => none
    | some c => s.op cfg t c c.pc op
  | .release i =>
    match s.held[i]? with
    | none => none
    | some a => some { s with
        held := s.held.eraseIdx i
        closed := a :: s.closed
        opened := s.opened.erase (a.result, a.id) }

end State

def fetcher (cfg : Config Id) : System (State Id) (Event Id) where
  init s := s = {}
  step s e s' := s.step cfg e = some s'

end Cvmfs.Fetch
