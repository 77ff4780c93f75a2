import Cvmfs.Lib.Word
import Cvmfs.Receiver.PackHeader

/-! # The object pack consumer

`ObjectPackConsumer` takes a pack in buffers of any size. It collects the header,
checks its digest, parses it into the index and then cuts the payload into the
listed objects, handing each piece to its listener. Pieces of large objects are
gathered in an accumulator first.

A buffer is a claimed size and the memory that can really be read behind its
pointer; the two differ after a failed `read`. An access beyond the memory, and
a hash over an unspecified algorithm, end the process: they are the `Abort`s.
-/

namespace Cvmfs.Receiver

open Crypto (Bytes Any Algorithms)

/-- The ways in which the receiver process ends without a result. -/
inductive Abort where
  /-- `PANIC` in `GetContextSize`: the hash algorithm is unspecified. -/
  | undefinedHash
  /-- The claimed size of a buffer exceeds its memory. -/
  | outOfBounds
  /-- `assert(pending_files_.empty())`. -/
  | pendingFiles
  deriving DecidableEq

inductive PackState where
  | continue
  | done
  | corrupt
  | badFormat
  | headerTooBig
  | trailingBytes
  deriving DecidableEq

structure Event where
  entry : IndexEntry
  buf : Bytes
  deriving DecidableEq

def kMaxObjects : Nat := 100000

def kAccuSize : Nat := 128 * 1024

structure Consumer where
  expectedDigest : Any
  expectedHeaderSize : Nat
  pos : Nat
  idx : Nat
  posInObject : Nat
  accumulator : Bytes
  state : PackState
  rawHeader : Bytes
  index : List IndexEntry
  deriving DecidableEq

/-- The constructor. The header size is a 32-bit number here. -/
def Consumer.new (expectedDigest : Any) (headerSize : Nat) : Consumer where
  expectedDigest := expectedDigest
  expectedHeaderSize := headerSize % 2 ^ 32
  pos := 0
  idx := 0
  posInObject := 0
  accumulator := []
  state := if 100 * kMaxObjects < headerSize % 2 ^ 32 then .headerTooBig else .continue
  rawHeader := []
  index := []

/-- What a call leaves behind: the pieces it handed over and, unless it aborted,
the consumer. -/
structure Consumed where
  events : List Event
  result : Except Abort Consumer

namespace Consumer

/-- The bytes of the current object that are still to come, in 64 bits. -/
def remainingInObject (c : Consumer) (entry : IndexEntry) : Nat :=
  Lib.sub64 entry.size c.posInObject

/-- A round of the payload loop with `n` claimed bytes left gathers in the
accumulator if there is already something in it or if it sees a small piece of a
larger object. -/
def usesAccu (c : Consumer) (entry : IndexEntry) (n : Nat) : Bool :=
  0 < c.accumulator.length || (n < c.remainingInObject entry && n < kAccuSize)

def roundSize (c : Consumer) (entry : IndexEntry) (n : Nat) : Nat :=
  let nbytes := min (c.remainingInObject entry) n
  if c.usesAccu entry n then min (kAccuSize - c.accumulator.length) nbytes else nbytes

/-- The piece a round hands over, if any, and the consumer after it. Without the
accumulator the bytes are handed over as they are: it is empty then. -/
def round (c : Consumer) (entry : IndexEntry) (n : Nat) (bytes : Bytes) : Option Bytes × Consumer :=
  let nbytes := c.roundSize entry n
  let whole := nbytes = c.remainingInObject entry
  let accu := c.accumulator ++ bytes
  let handOver := c.usesAccu entry n = false ∨ accu.length = kAccuSize ∨ whole
  let c := { c with accumulator := if handOver then [] else accu }
  (if handOver then some accu else none, if whole then { c with idx := c.idx + 1, posInObject := 0 }
    else { c with posInObject := (c.posInObject + nbytes) % 2 ^ 32 })

/-- The payload loop. A round takes at least one byte or moves to the next
object, so `fuel` of the claimed bytes plus the objects left is enough. -/
def payloadLoop : (fuel : Nat) → Consumer → Nat → Bytes → List Event × Except Abort (Consumer × Nat)
  | 0, c, n, _ => ([], .ok (c, n))
  | fuel + 1, c, n, rest =>
    match c.index[c.idx]? with
    | none => ([], .ok (c, n))
    | some entry =>
      if 0 < n ∨ entry.size = 0 then
        let nbytes := c.roundSize entry n
        if rest.length < nbytes then ([], .error .outOfBounds)
        else
          let (piece, c') := c.round entry n (rest.take nbytes)
          let (events, result) := payloadLoop fuel c' (n - nbytes) (rest.drop nbytes)
          ((piece.map (⟨entry, ·⟩)).toList ++ events, result)
      else ([], .ok (c, n))

def consumePayload (c : Consumer) (bufSize : Nat) (buf : Bytes) : Consumed :=
  match payloadLoop (bufSize + (c.index.length - c.idx)) c bufSize buf with
  | (events, .error abort) => ⟨events, .error abort⟩
  | (events, .ok (c', left)) =>
    let state : PackState := if c'.idx = c'.index.length then
        if left = 0 then .done else .trailingBytes
      else .continue
    ⟨events, .ok { c' with pos := c'.pos + bufSize, state := state }⟩

/-- `ObjectPackConsumer::ConsumeNext`, where `hash` is the digest of some bytes
under an algorithm. -/
def consumeNext (hash : Algorithms → Bytes → Bytes) (c : Consumer) (bufSize : Nat) (buf : Bytes) :
    Consumed :=
  if bufSize = 0 then ⟨[], .ok c⟩
  else match c.state with
  | .done => ⟨[], .ok { c with state := .trailingBytes }⟩
  | .continue =>
    let nbytesHeader := min (c.expectedHeaderSize - c.pos) bufSize
    if buf.length < nbytesHeader then ⟨[], .error .outOfBounds⟩
    else
      let raw := c.rawHeader ++ buf.take nbytesHeader
      let pos := c.pos + nbytesHeader
      let c := { c with rawHeader := raw, pos := pos }
      if pos < c.expectedHeaderSize then ⟨[], .ok c⟩
      else if 0 < nbytesHeader ∧ pos = c.expectedHeaderSize then
        -- the header has just been completed
        let algorithm := c.expectedDigest.algorithm
        if algorithm = .any then ⟨[], .error .undefinedHash⟩
        else if hash algorithm raw ≠ c.expectedDigest.digest then
          ⟨[], .ok { c with state := .corrupt }⟩
        else match parseHeader raw with
          | none => ⟨[], .ok { c with state := .badFormat }⟩
          | some index =>
            let c := { c with rawHeader := [], index := index }
            if bufSize = nbytesHeader ∧ index = [] then ⟨[], .ok { c with state := .done }⟩
            else c.consumePayload (bufSize - nbytesHeader) (buf.drop nbytesHeader)
      else c.consumePayload (bufSize - nbytesHeader) (buf.drop nbytesHeader)
  | _ => ⟨[], .ok c⟩

end Consumer

end Cvmfs.Receiver
