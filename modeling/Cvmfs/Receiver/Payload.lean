import Cvmfs.Receiver.ObjectPack

/-! # Receiving a payload

`PayloadProcessor::Process` reads a serialized object pack from a descriptor,
feeds it to the pack consumer and uploads the objects it hands over. Each object
is hashed on the way and committed when it is complete and its hash is the
announced one.

The uploader is present through two things: the list of the commits that are
scheduled, each with the bytes uploaded for it, and the number of its errors. The
result of `Initialize` and the hash function are parameters.
-/

namespace Cvmfs.Receiver

open Crypto (Bytes Any Algorithms mkFromHexPtr)

inductive Result where
  | success
  | pathViolation
  | uploaderError
  | otherError
  deriving DecidableEq

/-- `FileInfo`: the bytes uploaded so far, and the part of them the hash context
has seen since its last initialization. -/
structure FileInfo where
  totalSize : Nat
  currentSize : Nat
  hashed : Bytes
  uploaded : Bytes
  deriving DecidableEq

structure Commit where
  id : Any
  suffix : UInt8
  remotePath : Option Bytes
  content : Bytes
  deriving DecidableEq

structure Processor where
  pendingFiles : List (Any × FileInfo)
  numErrors : Nat
  commits : List Commit
  deriving DecidableEq

namespace Processor

def empty : Processor := ⟨[], 0, []⟩

/-- The pending file of a hash, as the map finds it. -/
def find (p : Processor) (id : Any) : Option FileInfo :=
  (p.pendingFiles.find? fun entry => entry.1 == id).map Prod.snd

def erase (p : Processor) (id : Any) : Processor :=
  { p with pendingFiles := p.pendingFiles.filter fun entry => entry.1 != id }

def insert (p : Processor) (id : Any) (info : FileInfo) : Processor :=
  { p with pendingFiles := (id, info) :: (p.erase id).pendingFiles }

/-- `PayloadProcessor::ConsumerEventCallback`. Finalizing a hash context
initializes it again, so a context that is used after a mismatch starts over. -/
def consumerEventCallback (hash : Algorithms → Bytes → Bytes) (p : Processor) (event : Event) :
    Except Abort Processor :=
  let id := event.entry.id
  match p.find id, id.algorithm with
  | none, .any => .error .undefinedHash
  | pending, algorithm =>
    let info := pending.getD ⟨event.entry.size, 0, [], []⟩
    let info := { info with
      hashed := info.hashed ++ event.buf
      uploaded := info.uploaded ++ event.buf
      currentSize := info.currentSize + event.buf.length }
    if info.currentSize = info.totalSize then
      if hash algorithm info.hashed ≠ id.digest then
        .ok { p.insert id { info with hashed := [] } with numErrors := p.numErrors + 1 }
      else
        let remotePath := match event.entry.entryType with
          | .cas => none
          | .named => some event.entry.entryName
        .ok { p.erase id with
          commits := p.commits ++ [⟨id, event.entry.suffix, remotePath, info.uploaded⟩] }
    else .ok (p.insert id info)

def callbacks (hash : Algorithms → Bytes → Bytes) : Processor → List Event → Except Abort Processor
  | p, [] => .ok p
  | p, e :: es =>
    match p.consumerEventCallback hash e with
    | .error abort => .error abort
    | .ok p' => p'.callbacks hash es

end Processor

def kConsumerBuffer : Nat := 10 * 1024 * 1024

/-- The outcome of one `read` on the descriptor; no bytes mean the end. -/
inductive Read where
  | data (bytes : Bytes)
  | error
  deriving DecidableEq

/-- The most that one `read` brings is the size of the buffer. -/
def Read.Fits : Read → Prop
  | .data bytes => bytes.length ≤ kConsumerBuffer
  | .error => True

/-- One call of `Process`. After the listed reads the descriptor is at its end. -/
structure Input where
  hash : Algorithms → Bytes → Bytes
  headerDigest : Bytes
  headerSize : Nat
  reads : List Read
  reads_fit : ∀ r ∈ reads, r.Fits
  initResult : Result
  uploaderErrors : Nat

/-- One call of `ConsumeNext` with the callbacks it makes. -/
def feed (hash : Algorithms → Bytes → Bytes) (c : Consumer) (p : Processor) (bufSize : Nat)
    (buf : Bytes) : Except Abort (Consumer × Processor) :=
  let consumed := c.consumeNext hash bufSize buf
  match p.callbacks hash consumed.events, consumed.result with
  | .ok p, .ok c => .ok (c, p)
  | .error abort, _ => .error abort
  | .ok _, .error abort => .error abort

/-- The loop over the descriptor. `buffer` is the memory of the read buffer: a
read overwrites its start and leaves the rest. A failed read returns -1, which
`ConsumeNext` takes for `2^32 - 1` bytes. -/
def readLoop (hash : Algorithms → Bytes → Bytes) :
    List Read → Bytes → Consumer → Processor → Except Abort (Consumer × Processor)
  | [], _, c, p => .ok (c, p)
  | .error :: _, buffer, c, p => feed hash c p (2 ^ 32 - 1) buffer
  | .data bytes :: reads, buffer, c, p =>
    if bytes = [] then .ok (c, p)
    else match feed hash c p bytes.length bytes with
      | .error abort => .error abort
      | .ok (c, p) =>
        if c.state = .continue then readLoop hash reads (bytes ++ buffer.drop bytes.length) c p
        else .ok (c, p)

namespace Input

/-- The run of the loop from a fresh consumer and processor. -/
def run (i : Input) : Except Abort (Consumer × Processor) :=
  readLoop i.hash i.reads (List.replicate kConsumerBuffer 0)
    (.new (mkFromHexPtr i.headerDigest) i.headerSize) .empty

def finalize (i : Input) (p : Processor) : Result :=
  if 0 < i.uploaderErrors then .uploaderError
  else if 0 < p.numErrors then .otherError
  else .success

def process (i : Input) : Except Abort Result :=
  if i.initResult ≠ .success then .ok i.initResult
  else match i.run with
  | .error abort => .error abort
  | .ok (_, p) =>
    if p.pendingFiles ≠ [] then .error .pendingFiles else .ok (i.finalize p)

end Input

end Cvmfs.Receiver
