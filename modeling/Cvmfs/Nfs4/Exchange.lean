import Cvmfs.Nfs4.Clients

/-! # Clients that number their requests

Each open-owner of a client sends one request after another, with sequence numbers
that it advances by the rule of `SeqidAdvances`. The latest request may be sent any
number of times; every copy runs in a thread of its own. `RunWithDeadline` may
answer a copy with `NFS4ERR_DELAY`; it drops a copy that no thread has picked up,
one that is running completes on its own. -/

namespace Cvmfs.Nfs4

open Lib Server Table

/-- An operation that carries the sequence number of an open-owner. -/
inductive Request
  | open (args : OpenArgs) (creds : Credentials)
  | openConfirm (owner : OwnerKey) (stateid : Stateid) (seqid : Nat)
  | openDowngrade (owner : OwnerKey) (stateid : Stateid) (seqid shareAccess : Nat)
  | close (owner : OwnerKey) (stateid : Stateid) (seqid : Nat)

namespace Request

def key : Request → OwnerKey
  | .open args _ => args.key
  | .openConfirm owner _ _ | .openDowngrade owner _ _ _ | .close owner _ _ => owner

def seqid : Request → Nat
  | .open args _ => args.seqid
  | .openConfirm _ _ seqid | .openDowngrade _ _ seqid _ | .close _ _ seqid => seqid

def op : Request → SeqOp
  | .open .. => .open
  | .openConfirm .. => .openConfirm
  | .openDowngrade .. => .openDowngrade
  | .close .. => .close

/-- The stateid of a request other than `OPEN`. -/
def stateid? : Request → Option Stateid
  | .open .. => none
  | .openConfirm _ stateid _ | .openDowngrade _ stateid _ _ | .close _ stateid _ => some stateid

end Request

/-- The part of a compound from the sequenced operation on. -/
structure Compound where
  request : Request
  /-- The current file handle that the operations before it have set. -/
  fh : Option FileHandle
  /-- Whether it is the last operation. -/
  last : Bool

/-- The result of the operation with the file handle that the next ones work on. -/
structure Reply where
  answer : Answer
  fh : Option FileHandle
deriving DecidableEq

def Compound.reply (c : Compound) (answer : Answer) (fh : Option FileHandle) : Reply :=
  ⟨answer, if c.last || decide (answer.1 ≠ .ok) then none else fh⟩

/-- A copy of a compound that a thread has picked up. -/
structure Copy where
  serial : Nat
  compound : Compound
  /-- Whether it is the first copy to be picked up. -/
  first : Bool
  /-- Whether it has been answered by the deadline. -/
  silent : Bool := false

structure Exchange where
  world : World
  /-- The next sequence number of an owner, by its client. -/
  next : Table OwnerKey Nat := empty
  /-- The latest request of each owner under the number of the request. -/
  latest : Table OwnerKey (Nat × Compound) := empty
  serial : Nat := 0
  /-- History: the request of each owner that was started last. -/
  begun : Table OwnerKey (Nat × Compound) := empty
  /-- History: the sequence number recorded when a request was started. -/
  before : Table Nat (Option Nat) := empty
  /-- The first reply to each request. -/
  answered : Table Nat Reply := empty
  copies : Table Nat Copy := empty
  /-- Stateids that clients have got, with their owners. -/
  opened : Table Other OwnerKey := empty

inductive Action
  | issue (compound : Compound)
  /-- A thread picks up a copy of the latest request of an owner. -/
  | start (thread : Nat) (owner : OwnerKey)
  /-- The sequenced operation, up to the lookup of an `OPEN`. -/
  | process (thread : Nat)
  | lookup (thread : Nat) (target : Except Status (FileHandle × Attr))
  /-- The second critical section of an `OPEN`. -/
  | finish (thread : Nat)
  /-- The deadline of a copy that no thread has picked up. -/
  | discard (owner : OwnerKey)
  /-- The deadline of a copy that is running. -/
  | expire (thread : Nat)
  /-- A step of the server that has no sequence number. -/
  | world (event : Event)

/-- The event of a thread that gets to the sequenced operation. -/
def Compound.event (thread : Nat) (c : Compound) : Event :=
  match c.request with
  | .open args creds => .openBegin thread args creds c.fh.isSome
  | .openConfirm _ stateid seqid => .openConfirm stateid seqid c.fh.isSome
  | .openDowngrade _ stateid seqid shareAccess =>
    .openDowngrade stateid seqid shareAccess c.fh.isSome
  | .close _ stateid seqid => .close stateid seqid c.fh.isSome

def Event.sequenced : Event → Bool
  | .openBegin .. | .openLookup .. | .openFinish .. | .openConfirm .. | .openDowngrade ..
  | .close .. => true
  | _ => false

/-- What `Resolve` and `LookupChild` fail with. -/
def lookupFails : Status → Bool
  | .perm | .noent | .io | .access | .notdir | .isdir | .inval | .fbig | .nospc | .rofs
  | .nametoolong | .stale | .toosmall | .delay | .symlink | .badname => true
  | _ => false

def lookupEnds : Except Status (FileHandle × Attr) → Bool
  | .error status => lookupFails status
  | .ok _ => true

namespace Exchange

variable (cfg : Config)

/-- The sequence number that the server has recorded for an owner. -/
def recorded (x : Exchange) (k : OwnerKey) : Option Nat :=
  (x.world.server.owners.find? k).map OpenOwner.seqid

/-- Notes that a request is started, for the first time or again. -/
def start (x : Exchange) (i : Nat) (c : Compound) : Exchange :=
  if x.before.contains i then x
  else
    { x with
      begun := x.begun.put c.request.key (i, c)
      before := x.before.put i (x.recorded c.request.key) }

/-- The stateids of clients after an answer to a request of `k`. -/
def learn (opened : Table Other OwnerKey) (k : OwnerKey) : Body → Table Other OwnerKey
  | .opened id _ => opened.put id.other k
  | _ => opened

/-- The client advances its sequence number with the first reply. -/
def receive (x : Exchange) (i : Nat) (c : Compound) (reply : Reply) : Exchange :=
  if x.answered.contains i then x
  else
    { x with
      answered := x.answered.put i reply
      next := x.next.put c.request.key
        (if seqidAdvances reply.answer.1 then inc32 c.request.seqid else c.request.seqid)
      opened := learn x.opened c.request.key reply.answer.2 }

def deliver (x : Exchange) (i : Nat) (c : Compound) (reply : Reply) :
    Option (Exchange × Option (Nat × Reply)) :=
  some (x.receive i c reply, some (i, reply))

def complete (x : Exchange) (thread : Nat) (copy : Copy) (reply : Reply) :
    Option (Exchange × Option (Nat × Reply)) :=
  let y := { x with copies := x.copies.erase thread }
  if copy.silent then some (y, none) else y.deliver copy.serial copy.compound reply

/-- A client sends a request when the one before it was answered, with the next
sequence number and a stateid that it has got for the owner. -/
def mayIssue (x : Exchange) (c : Compound) : Bool :=
  (match x.latest.find? c.request.key with
    | some (i, _) => x.answered.contains i
    | none => true) &&
  (match x.next.find? c.request.key with
    | some n => decide (n = c.request.seqid)
    | none => true) &&
  (match c.request.stateid? with
    | some stateid => decide (x.opened.find? stateid.other = some c.request.key)
    | none => true)

/-- The file handle after an `OPEN`, which becomes that of the file if it succeeds. -/
def targetOf (x : Exchange) (thread : Nat) (c : Compound) : Option FileHandle :=
  match (x.world.opens.find? thread).bind PendingOpen.target with
  | some (.ok target) => some target.fh
  | _ => c.fh

def exec (x : Exchange) : Action → Option (Exchange × Option (Nat × Reply))
  | .issue c =>
    if x.mayIssue c then
      some ({ x with
        latest := x.latest.put c.request.key (x.serial, c), serial := x.serial + 1 }, none)
    else none
  | .start thread owner =>
    match x.latest.find? owner with
    | none => none
    | some (i, c) =>
      if x.copies.contains thread then none
      else
        let copy : Copy := { serial := i, compound := c, first := !x.before.contains i }
        some ({ x.start i c with copies := x.copies.put thread copy }, none)
  | .process thread =>
    match x.copies.find? thread with
    | none => none
    | some copy =>
      match x.world.exec cfg (copy.compound.event thread) with
      | none => none
      | some (w, some a) =>
        { x with world := w }.complete thread copy (copy.compound.reply a copy.compound.fh)
      | some (w, none) => some ({ x with world := w }, none)
  | .lookup thread target =>
    if lookupEnds target then
      match x.world.exec cfg (.openLookup thread target) with
      | some (w, _) => some ({ x with world := w }, none)
      | none => none
    else none
  | .finish thread =>
    match x.copies.find? thread, x.world.exec cfg (.openFinish thread) with
    | some copy, some (w, some a) =>
      { x with world := w }.complete thread copy
        (copy.compound.reply a (x.targetOf thread copy.compound))
    | _, _ => none
  | .discard owner =>
    match x.latest.find? owner with
    | some (i, c) => (x.start i c).deliver i c (c.reply (.delay, .empty) c.fh)
    | none => none
  | .expire thread =>
    match x.copies.find? thread with
    | some copy =>
      if copy.silent then none
      else
        { x with copies := x.copies.put thread { copy with silent := true } }.deliver
          copy.serial copy.compound (copy.compound.reply (.delay, .empty) copy.compound.fh)
    | none => none
  | .world event =>
    if event.sequenced then none
    else
      match x.world.exec cfg event with
      | some (w, _) => some ({ x with world := w }, none)
      | none => none

/-! ## What a step does -/

variable {cfg} {x y : Exchange} {thread : Nat} {r : Option (Nat × Reply)}

theorem of_issue {c} (h : x.exec cfg (.issue c) = some (y, r)) :
    x.mayIssue c = true ∧ r = none ∧ y = { x with
      latest := x.latest.put c.request.key (x.serial, c), serial := x.serial + 1 } := by
  rw [exec] at h
  split at h
  · cases h
    exact ⟨‹_›, rfl, rfl⟩
  · cases h

theorem of_start {owner} (h : x.exec cfg (.start thread owner) = some (y, r)) :
    ∃ i c, x.latest.find? owner = some (i, c) ∧ x.copies.find? thread = none ∧ r = none ∧
      ((x.before.find? i = none ∧ y = { x with
        begun := x.begun.put c.request.key (i, c)
        before := x.before.put i (x.recorded c.request.key)
        copies := x.copies.put thread { serial := i, compound := c, first := true } }) ∨
      ((∃ m, x.before.find? i = some m) ∧ y = { x with
        copies := x.copies.put thread { serial := i, compound := c, first := false } })) := by
  rw [exec] at h
  split at h
  · cases h
  rename_i i c hl
  split at h
  · cases h
  rename_i hfree
  rw [contains, Bool.not_eq_true, Option.isSome_eq_false_iff, Option.isNone_iff_eq_none] at hfree
  refine ⟨i, c, hl, hfree, ?_⟩
  rw [start] at h
  cases hb : x.before.find? i with
  | none =>
    have hcon : x.before.contains i = false := by
      rw [contains, hb]
      rfl
    rw [hcon] at h
    cases h
    exact ⟨rfl, .inl ⟨rfl, rfl⟩⟩
  | some m =>
    rw [contains_eq_true.mpr ⟨m, hb⟩] at h
    cases h
    exact ⟨rfl, .inr ⟨⟨m, rfl⟩, rfl⟩⟩

theorem of_process (h : x.exec cfg (.process thread) = some (y, r)) :
    ∃ copy w, x.copies.find? thread = some copy ∧
      ((∃ a, x.world.exec cfg (copy.compound.event thread) = some (w, some a) ∧
        { x with world := w }.complete thread copy
          (copy.compound.reply a copy.compound.fh) = some (y, r)) ∨
      (x.world.exec cfg (copy.compound.event thread) = some (w, none) ∧ r = none ∧
        y = { x with world := w })) := by
  rw [exec] at h
  split at h
  · cases h
  rename_i copy hcopy
  split at h
  · cases h
  · rename_i w a hw
    exact ⟨copy, w, hcopy, .inl ⟨a, hw, h⟩⟩
  · rename_i w hw
    cases h
    exact ⟨copy, w, hcopy, .inr ⟨hw, rfl, rfl⟩⟩

theorem of_lookup {target} (h : x.exec cfg (.lookup thread target) = some (y, r)) :
    lookupEnds target = true ∧ r = none ∧ ∃ args creds,
      x.world.opens.find? thread = some ⟨args, creds, none⟩ ∧
      y = { x with world := { x.world with
        opens := x.world.opens.put thread
          ⟨args, creds, some (target.map fun t => ⟨t.1, t.2, x.world.generation⟩)⟩ } } := by
  rw [exec] at h
  split at h
  · rename_i hends
    split at h
    · rename_i w oa hw
      cases h
      rw [World.exec] at hw
      split at hw
      · rename_i args creds hp
        cases hw
        exact ⟨hends, rfl, args, creds, hp, rfl⟩
      · cases hw
    · cases h
  · cases h

theorem of_finish (h : x.exec cfg (.finish thread) = some (y, r)) :
    ∃ copy args creds target, x.copies.find? thread = some copy ∧
      x.world.opens.find? thread = some ⟨args, creds, some target⟩ ∧
      x.world.exec cfg (.openFinish thread) = some
        ({ x.world with
          opens := x.world.opens.erase thread
          server := (x.world.server.openFinish cfg args creds target).1 },
        some (x.world.server.openFinish cfg args creds target).2) ∧
      { x with world := { x.world with
          opens := x.world.opens.erase thread
          server := (x.world.server.openFinish cfg args creds target).1 } }.complete thread copy
        (copy.compound.reply (x.world.server.openFinish cfg args creds target).2
          (x.targetOf thread copy.compound)) = some (y, r) := by
  rw [exec] at h
  split at h
  · rename_i copy w a hcopy hw
    have hw' := hw
    rw [World.exec] at hw'
    split at hw'
    · rename_i args creds target hp
      cases hw'
      exact ⟨copy, args, creds, target, hcopy, hp, hw, h⟩
    · cases hw'
  · cases h

theorem of_expire (h : x.exec cfg (.expire thread) = some (y, r)) :
    ∃ copy, x.copies.find? thread = some copy ∧ copy.silent = false ∧
      { x with copies := x.copies.put thread { copy with silent := true } }.deliver
        copy.serial copy.compound (copy.compound.reply (.delay, .empty) copy.compound.fh) =
          some (y, r) := by
  rw [exec] at h
  split at h
  · rename_i copy hcopy
    split at h
    · cases h
    · rename_i hs
      exact ⟨copy, hcopy, Bool.eq_false_iff.mpr hs, h⟩
  · cases h

theorem of_world {event} (h : x.exec cfg (.world event) = some (y, r)) :
    event.sequenced = false ∧ r = none ∧ ∃ w oa, x.world.exec cfg event = some (w, oa) ∧
      y = { x with world := w } := by
  rw [exec] at h
  split at h
  · cases h
  rename_i hseq
  split at h
  · rename_i w oa hw
    cases h
    exact ⟨Bool.eq_false_iff.mpr hseq, rfl, w, oa, hw, rfl⟩
  · cases h

end Exchange

def exchange (cfg : Config) : System Exchange Action where
  init x := ∃ w, Started w ∧ x = { world := w }
  step x e x' := ∃ r, x.exec cfg e = some (x', r)

end Cvmfs.Nfs4
