import Mathlib.Algebra.Order.Ring.Int

/-! # Transactions of the external cache manager

`ExternalCacheManager` hands an object to a cache plugin in parts: `Write` collects bytes
in a buffer of the maximum object size, `Flush` sends the buffer as one `MsgStoreReq`. The
plugin is a sequence of replies, one for each request. -/

namespace Cvmfs.Extern

inductive Status where
  | unknown | ok | noSupport | forbidden | noSpace | noEntry | malformed | ioErr | corrupted
  | timeout | badCount | outOfBounds | isPartial
  deriving DecidableEq

inductive Errno where
  | eopnotsupp | eperm | enospc | enoent | einval | eio | efbig | erofs
  deriving DecidableEq

def ack2Errno : Status → Except Errno Unit
  | .ok => .ok ()
  | .noSupport => .error .eopnotsupp
  | .forbidden => .error .eperm
  | .noSpace => .error .enospc
  | .noEntry => .error .enoent
  | .malformed => .error .einval
  | .ioErr => .error .eio
  | .corrupted => .error .eio
  | .timeout => .error .eio
  | .badCount => .error .einval
  | .outOfBounds => .error .einval
  | _ => .error .eio

/-- Arithmetic of `uint64_t`. -/
def u64 (n : Nat) : Nat := n % 2 ^ 64

theorem u64_of_lt {n} (h : n < 2 ^ 64) : u64 n = n := Nat.mod_eq_of_lt h

theorem u64_lt (n : Nat) : u64 n < 2 ^ 64 := Nat.mod_lt n (Nat.two_pow_pos 64)

def kSizeUnknown : Nat := 2 ^ 64 - 1

/-- What the handshake with the plugin settles. `Create` gives no manager for other
object sizes. -/
structure Manager where
  maxObjectSize : Nat
  capWrite : Bool
  minSupported : 4 * 1024 ≤ maxObjectSize
  maxSupported : maxObjectSize ≤ 512 * 1024

theorem Manager.pos (m : Manager) : 0 < m.maxObjectSize := by
  have := m.minSupported
  omega

section

variable {Id Label : Type}

structure StoreReq (Id Label : Type) where
  reqId : Nat
  objectId : Id
  partNr : Nat
  expectedSize : Nat
  lastPart : Bool
  label : Option Label
  attachment : List UInt8
  deriving DecidableEq

inductive Request (Id Label : Type) where
  | store (req : StoreReq Id Label)
  | refcount (objectId : Id) (changeBy : Int)
  deriving DecidableEq

/-- `buffer` are the bytes up to `buf_pos`, `label` is set once it is modified. -/
structure Transaction (Id Label : Type) where
  buffer : List UInt8
  size : Nat
  expectedSize : Nat
  label : Option Label
  openFds : Nat
  flushed : Bool
  committed : Bool
  transactionId : Nat
  id : Id
  deriving DecidableEq

def Transaction.storeReq (m : Manager) (t : Transaction Id Label) (doCommit : Bool) :
    StoreReq Id Label where
  reqId := t.transactionId
  objectId := t.id
  partNr := t.size / m.maxObjectSize + 1
  expectedSize := t.expectedSize
  lastPart := doCommit
  label := t.label
  attachment := t.buffer

def Transaction.acknowledge (t : Transaction Id Label) (doCommit : Bool) (status : Status) :
    Transaction Id Label :=
  if status = .ok then { t with flushed := true, committed := t.committed || doCommit } else t

structure Client (Id Label : Type) where
  txn : Transaction Id Label
  sent : List (Request Id Label)
  deriving DecidableEq

def Client.stores (c : Client Id Label) : List (StoreReq Id Label) :=
  c.sent.filterMap fun
    | .store req => some req
    | .refcount _ _ => none

variable (m : Manager) (reply : Nat → Status)

def flush (doCommit : Bool) (c : Client Id Label) : Except Errno Unit × Client Id Label :=
  if c.txn.committed then (.ok (), c)
  else
    let status := reply c.sent.length
    (ack2Errno status,
      { txn := c.txn.acknowledge doCommit status
        sent := c.sent ++ [.store (c.txn.storeReq m doCommit)] })

def startTxn (id : Id) (size nextRequestId : Nat) : Except Errno (Transaction Id Label) :=
  if m.capWrite then
    .ok {
      buffer := []
      size := 0
      expectedSize := size
      label := none
      openFds := 0
      flushed := false
      committed := false
      transactionId := nextRequestId
      id := id }
  else .error .erofs

/-- Whether `Write` takes a full buffer for the last part. -/
def Transaction.doCommit (t : Transaction Id Label) (written : Nat) : Bool :=
  decide (t.expectedSize ≠ kSizeUnknown) && decide (u64 (t.size + written) = t.expectedSize)

/-- The first half of a round of the loop in `Write`: a full buffer is flushed. -/
def makeRoom (written : Nat) (c : Client Id Label) : Except Errno Unit × Client Id Label :=
  if c.txn.buffer.length = m.maxObjectSize then
    match flush m reply (c.txn.doCommit written) c with
    | (.error e, c) => (.error e, { c with txn.size := u64 (c.txn.size + written) })
    | (.ok (), c) =>
      (.ok (), { c with
        txn.size := u64 (c.txn.size + c.txn.buffer.length), txn.buffer := [] })
  else (.ok (), c)

def Client.copy (c : Client Id Label) (batch : List UInt8) : Client Id Label :=
  { c with txn.buffer := c.txn.buffer ++ batch }

/-- The loop of `Write` with the bytes that are not yet copied. Every round copies at least
one, so that their number bounds the rounds. -/
def writeLoop : Nat → List UInt8 → Nat → Client Id Label → Except Errno Nat × Client Id Label
  | _, [], written, c => (.ok written, c)
  | 0, _ :: _, written, c => (.ok written, c)
  | rounds + 1, byte :: data, written, c =>
    match makeRoom m reply written c with
    | (.error e, c) => (.error e, c)
    | (.ok (), c) =>
      let remaining := (byte :: data).length
      let spaceInBuffer := m.maxObjectSize - c.txn.buffer.length
      let batchSize := min remaining spaceInBuffer
      writeLoop rounds ((byte :: data).drop batchSize) (written + batchSize)
        (c.copy ((byte :: data).take batchSize))

/-- `none` is the failed assertion that the transaction is not committed. -/
def write (buf : List UInt8) (c : Client Id Label) :
    Option (Except Errno Nat × Client Id Label) :=
  if c.txn.committed then none
  else if c.txn.expectedSize ≠ kSizeUnknown ∧
      c.txn.expectedSize < u64 (c.txn.size + buf.length) then some (.error .efbig, c)
  else some (writeLoop m reply buf.length buf 0 c)

def changeRefcount (changeBy : Int) (c : Client Id Label) :
    Except Errno Unit × Client Id Label :=
  (ack2Errno (reply c.sent.length), { c with sent := c.sent ++ [.refcount c.txn.id changeBy] })

def commitTxn (c : Client Id Label) : Except Errno Unit × Client Id Label :=
  match flush m reply true c with
  | (.error e, c) => (.error e, c)
  | (.ok (), c) =>
    let refcount : Int := (c.txn.openFds : Int) - 1
    if refcount ≠ 0 then changeRefcount reply refcount c else (.ok (), c)

def Client.opened (c : Client Id Label) : Client Id Label :=
  { c with txn.openFds := c.txn.openFds + 1 }

/-- `fd` is the file descriptor that the table of open files gives out. -/
def openFromTxn (fd : Nat) (c : Client Id Label) : Except Errno Nat × Client Id Label :=
  match flush m reply true c with
  | (.error e, c) => (.error e, c)
  | (.ok (), c) => (.ok fd, c.opened)

/-! ## Storing an object -/

/-- The calls of `Write` one after the other, with what they return. -/
def writes : List (List UInt8) → Client Id Label →
    Option (List (Except Errno Nat) × Client Id Label)
  | [], c => some ([], c)
  | buf :: bufs, c => do
    let (result, c) ← write m reply buf c
    let (results, c) ← writes bufs c
    return (result :: results, c)

def finish (fd : Option Nat) (c : Client Id Label) : Except Errno Unit × Client Id Label :=
  match fd with
  | none => commitTxn m reply c
  | some fd =>
    match openFromTxn m reply fd c with
    | (.error e, c) => (.error e, c)
    | (.ok _, c) => commitTxn m reply c

structure Report (Id Label : Type) where
  writes : List (Except Errno Nat)
  finish : Except Errno Unit
  client : Client Id Label

/-- A transaction from `StartTxn` to `CommitTxn`; `none` if it does not start or an
assertion fails. -/
def store (id : Id) (expectedSize nextRequestId : Nat) (bufs : List (List UInt8))
    (fd : Option Nat) : Option (Report Id Label) := do
  let txn ← (startTxn m id expectedSize nextRequestId).toOption
  let (results, c) ← writes m reply bufs { txn, sent := [] }
  let (result, c) := finish m reply fd c
  return { writes := results, finish := result, client := c }

end

end Cvmfs.Extern
