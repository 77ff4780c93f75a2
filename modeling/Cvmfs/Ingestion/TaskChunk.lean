import Cvmfs.Lib.Stream
import Cvmfs.Ingestion.ChunkDetector

/-! # From blocks of a file to blocks of chunks

The chunking stage of the ingestion pipeline and the stages that depend on what it
dispatches. The blocks of one file pass through `process` one after the other, the last
one being a stop block; blocks of other files may pass in between. All they share is the
sequence of tags, so the tags that a file draws are an arbitrary sequence of distinct
numbers.

`none` stands for a failed assertion. -/

namespace Cvmfs.Ingestion

open Lib

/-- Suffixes of content hashes; `chunk` is the one of partial chunks. -/
inductive Suffix where
  | none
  | catalog
  | history
  | microCatalog
  | chunk
  | temporary
  | certificate
  | metainfo
  deriving DecidableEq

structure FileItem where
  sizes : ChunkSizes
  size : Nat := 2 ^ 64 - 1
  mayHaveChunks : Bool := true
  hasLegacyBulkChunk : Bool := false
  hashSuffix : Suffix := .none

/-- What `TaskRead` finds out about a file when it opens it. -/
def FileItem.measured (f : FileItem) (size : Nat) : FileItem :=
  { f with size, mayHaveChunks := f.mayHaveChunks && f.sizes.mightFindChunks size }

structure ChunkItem where
  offset : Nat
  size : Nat := 0
  isBulkChunk : Bool := false
  suffix : Suffix := .chunk
  deriving DecidableEq

namespace ChunkItem

def makeBulkChunk (f : FileItem) (c : ChunkItem) : ChunkItem :=
  { c with isBulkChunk := true, suffix := f.hashSuffix }

def setSize (c : ChunkItem) (size : Nat) : Option ChunkItem :=
  if c.size = 0 then some { c with size } else none

def isSolePiece (f : FileItem) (c : ChunkItem) : Bool :=
  !c.isBulkChunk && c.offset == 0 && c.size == f.size

end ChunkItem

/-- A dispatched block, with its chunk as it is at that time. -/
structure BlockItem where
  tag : Nat
  chunkItem : ChunkItem
  content : Message UInt8

/-- The chunks that are being filled, each with the tag of its blocks. -/
structure ChunkInfo where
  offset : Nat := 0
  nextChunk : Option (Nat × ChunkItem) := none
  bulkChunk : Option (Nat × ChunkItem) := none

/-- The state of the chunking stage for one file: the entry of the tag map, the file's
detector and counters, the number of tags drawn, the blocks dispatched. -/
structure Chunking where
  info : Option ChunkInfo := none
  detector : Detector := {}
  nchunksInFly : Nat := 0
  isFullyChunked : Bool := false
  drawn : Nat := 0
  out : List BlockItem := []

namespace Chunking

def newChunk (tags : Nat → Nat) (s : Chunking) (offset : Nat) : (Nat × ChunkItem) × Chunking :=
  ((tags s.drawn, { offset }), { s with
    drawn := s.drawn + 1
    nchunksInFly := s.nchunksInFly + 1 })

def dispatch (s : Chunking) (c : Nat × ChunkItem) (content : Message UInt8) : Chunking :=
  { s with out := s.out ++ [⟨c.1, c.2, content⟩] }

/-- The end of a block that belongs to a chunk, if it is not empty. -/
def dispatchTail (s : Chunking) (c : Nat × ChunkItem) (tail : List UInt8) : Chunking :=
  if tail = [] then s else s.dispatch c (.data tail)

def dispatchBulk (s : Chunking) (info : ChunkInfo) (content : Message UInt8) : Chunking :=
  match info.bulkChunk with
  | none => s
  | some bulk => s.dispatch bulk content

end Chunking

section

variable (f : FileItem) (tags : Nat → Nat)

def start (s : Chunking) : ChunkInfo × Chunking :=
  if f.mayHaveChunks then
    let (next, s) := s.newChunk tags 0
    if f.hasLegacyBulkChunk then
      let (bulk, s) := s.newChunk tags 0
      ({ nextChunk := some next
         bulkChunk := some (bulk.1, { bulk.2.makeBulkChunk f with size := f.size }) }, s)
    else ({ nextChunk := some next }, s)
  else
    let (bulk, s) := s.newChunk tags 0
    ({ bulkChunk := some (bulk.1, { bulk.2.makeBulkChunk f with size := f.size }) }, s)

/-- The entry of the tag map, made when the file is seen for the first time. -/
def chunkInfo (s : Chunking) : ChunkInfo × Chunking :=
  match s.info with
  | some info => (info, s)
  | none => start f tags s

def cutLoop (data : List UInt8) (base : Nat) :
    Nat → Chunking → Nat × ChunkItem → Nat → Option (Chunking × (Nat × ChunkItem) × Nat)
  | 0, _, _, _ => none
  | fuel + 1, s, next, offsetInBlock =>
    match s.detector.findNextCutMark f.sizes data with
    | none => none
    | some (cut, detector) =>
      let s := { s with detector }
      if cut = 0 then some (s, next, offsetInBlock)
      else if base + offsetInBlock ≤ cut ∧ cut - base ≤ data.length ∧ next.2.offset ≤ cut then
        let s := s.dispatchTail next (slice data offsetInBlock (cut - base - offsetInBlock))
        -- a cut at the end of the file is left to the stop block
        if cut < f.size then
          match next.2.setSize (cut - next.2.offset) with
          | none => none
          | some ended =>
            let s := s.dispatch (next.1, ended) .stop
            let (next, s) := s.newChunk tags cut
            cutLoop data base fuel s next (cut - base)
        else cutLoop data base fuel s next (cut - base)
      else none

def processData (info : ChunkInfo) (s : Chunking) (data : List UInt8) :
    Option (ChunkInfo × Chunking) :=
  match info.nextChunk with
  | none => some (info, s)
  | some next =>
    match cutLoop f tags data info.offset (data.length + 2) s next 0 with
    | none => none
    | some (s, next, offsetInBlock) =>
      if data.length < offsetInBlock then none
      else
        some ({ info with nextChunk := some next, offset := info.offset + data.length },
          s.dispatchTail next (data.drop offsetInBlock))

def processStop (info : ChunkInfo) (s : Chunking) : Option Chunking :=
  match info.nextChunk with
  | none => some s
  | some next =>
    if f.size < next.2.offset then none
    else
      match next.2.setSize (f.size - next.2.offset) with
      | none => none
      | some ended => some (s.dispatch (next.1, ended) .stop)

def process (s : Chunking) (input : Message UInt8) : Option Chunking :=
  let (info, s) := chunkInfo f tags s
  match input with
  | .stop =>
    match processStop f info { s with isFullyChunked := true } with
    | none => none
    | some s => some ({ s with info := none }.dispatchBulk info .stop)
  | .data data =>
    if info.bulkChunk.isSome ∧ data = [] then none
    else
      match processData f tags info s data with
      | none => none
      | some (info, s) => some ({ s with info := some info }.dispatchBulk info (.data data))

def processAll (s : Chunking) : List (Message UInt8) → Option Chunking
  | [] => some s
  | input :: inputs =>
    match process f tags s input with
    | none => none
    | some s => processAll s inputs

end

/-- A file from the read stage through the chunking stage. -/
def chunkFile (f : FileItem) (tags : Nat → Nat) (size : Nat) (blocks : List (List UInt8)) :
    Option Chunking :=
  processAll (f.measured size) tags {} (blocks.map .data ++ [.stop])

/-! ## Writing and registration -/

/-- The chunks with a stop block, in the order of these blocks. -/
def stopped (out : List BlockItem) : List (Nat × ChunkItem) :=
  out.filterMap fun b => if b.content = .stop then some (b.tag, b.chunkItem) else none

/-- `TaskWrite` at the stop block of a chunk: a sole piece becomes a bulk chunk. -/
def committed (f : FileItem) (c : ChunkItem) : ChunkItem :=
  if c.isSolePiece f then c.makeBulkChunk f else c

/-- The part of a file item that the write stage fills. A bulk hash is known by its
suffix; the null hash has the suffix `none`. -/
structure Registered where
  chunks : List (Nat × Nat) := []
  bulkHash : Option Suffix := none
  nchunksInFly : Int

def registerChunk (f : FileItem) (r : Registered) (c : ChunkItem) : Option Registered :=
  match c.suffix with
  | .chunk => some { r with
      chunks := r.chunks ++ [(c.offset, c.size)]
      nchunksInFly := r.nchunksInFly - 1 }
  | suffix =>
    if c.offset = 0 ∧ c.size = f.size then some { r with
      bulkHash := some suffix
      nchunksInFly := r.nchunksInFly - 1 }
    else none

def registerAll (f : FileItem) (r : Registered) : List ChunkItem → Option Registered
  | [] => some r
  | c :: cs =>
    match registerChunk f r (committed f c) with
    | none => none
    | some r => registerAll f r cs

/-- The assertions of `TaskRegister` on a file item. -/
def taskRegister (f : FileItem) (r : Registered) : Bool :=
  (!f.hasLegacyBulkChunk || r.bulkHash.isSome) && r.nchunksInFly == 0 &&
    (decide (1 < r.chunks.length) || r.bulkHash.isSome) && r.chunks.length != 1 &&
    f.hashSuffix == r.bulkHash.getD .none

end Cvmfs.Ingestion
