import Cvmfs.Lib.Transition

/-! # Chunks complete while files are chunked

The chunking stage creates the chunk items of a file and dispatches their stop blocks. A
chunk whose stop block passed the write stage is completed by an upload task: the callback
registers the chunk with its file item, and then tests in two more steps whether the file is
processed and is to be dispatched to the registration. The test is not part of the critical
section of the registration, and the upload tasks run concurrently with each other and with
the chunking stage.

What the chunking stage does to a file item is a list of actions. The detector only decides
on the number of cuts, which is arbitrary here. -/

namespace Cvmfs.Ingestion.Completion

open Lib Function

/-- The chunk items of a file: the partial chunks in their order, and the bulk chunk. -/
inductive ChunkName where
  | piece (i : Nat)
  | bulk
  deriving DecidableEq

/-- What `TaskChunk` does to the items: the constructor of a chunk item counts it, the
dispatched stop block hands it on to the other stages. -/
inductive ChunkAction where
  | create (c : ChunkName)
  | setIsFullyChunked
  | stop (c : ChunkName)
  deriving DecidableEq

structure Layout where
  mayHaveChunks : Bool
  hasLegacyBulkChunk : Bool
  cuts : Nat
  deriving Repr

def Layout.creating (l : Layout) : List ChunkAction :=
  if l.mayHaveChunks then
    .create (.piece 0) :: ((if l.hasLegacyBulkChunk then [.create .bulk] else []) ++
      (List.range l.cuts).flatMap fun i => [.stop (.piece i), .create (.piece (i + 1))])
  else [.create .bulk]

def Layout.ending (l : Layout) : List ChunkName :=
  if l.mayHaveChunks then
    .piece l.cuts :: if l.hasLegacyBulkChunk then [.bulk] else []
  else [.bulk]

def Layout.actions (l : Layout) : List ChunkAction :=
  l.creating ++ .setIsFullyChunked :: l.ending.map .stop

def createsOf (actions : List ChunkAction) : List ChunkName :=
  actions.filterMap fun
    | .create c => some c
    | _ => none

def stopsOf (actions : List ChunkAction) : List ChunkName :=
  actions.filterMap fun
    | .stop c => some c
    | _ => none

/-! ## The file items and the upload tasks -/

/-- A file item, what the chunking stage has still to do with it, and its chunks between
their stop block and their registration. `usedAfter` records an access after the file was
dispatched. -/
structure FileState where
  todo : List ChunkAction
  nchunksInFly : Int := 0
  isFullyChunked : Bool := false
  inPipeline : List ChunkName := []
  registered : List ChunkName := []
  dispatched : Nat := 0
  usedAfter : Bool := false

namespace FileState

def access (x : FileState) : FileState := { x with usedAfter := x.usedAfter || x.dispatched != 0 }

def perform (x : FileState) : ChunkAction → FileState
  | .create _ => { x with nchunksInFly := x.nchunksInFly + 1 }
  | .setIsFullyChunked => { x with isFullyChunked := true }
  | .stop c => { x with inPipeline := x.inPipeline ++ [c] }

def registerChunk (x : FileState) (c : ChunkName) : FileState :=
  { x with
    inPipeline := x.inPipeline.erase c
    registered := x.registered ++ [c]
    nchunksInFly := x.nchunksInFly - 1 }

end FileState

/-- Where a callback is behind `RegisterChunk`: before one of the two loads of `IsProcessed`
or before `DispatchAny`. -/
inductive Place where
  | loadIsFullyChunked
  | loadNchunksInFly
  | dispatchAny
  deriving DecidableEq

structure State (File : Type) (n : Nat) where
  file : File → FileState
  task : Fin n → Option (File × Place)

inductive Event (File : Type) (n : Nat) where
  | chunk (f : File)
  | handle (f : File) (c : ChunkName)
  | onChunkComplete (t : Fin n) (f : File) (c : ChunkName)
  | advance (t : Fin n)

section

variable {File : Type} [DecidableEq File] {n : Nat}

namespace State

def setFile (s : State File n) (f : File) (x : FileState) : State File n :=
  { s with file := update s.file f x }

def setTask (s : State File n) (t : Fin n) (p : Option (File × Place)) : State File n :=
  { s with task := update s.task t p }

section

variable (s : State File n)
include s

@[simp] theorem file_setFile_self (f : File) (x : FileState) :
    (s.setFile f x).file f = x := update_self ..

theorem file_setFile_of_ne {f f'} (h : f' ≠ f) (x : FileState) :
    (s.setFile f x).file f' = s.file f' := update_of_ne h ..

@[simp] theorem task_setFile (f : File) (x : FileState) : (s.setFile f x).task = s.task := rfl

omit [DecidableEq File] in
@[simp] theorem task_setTask_self (t : Fin n) (p : Option (File × Place)) :
    (s.setTask t p).task t = p := update_self ..

omit [DecidableEq File] in
theorem task_setTask_of_ne {t t'} (h : t' ≠ t) (p : Option (File × Place)) :
    (s.setTask t p).task t' = s.task t' := update_of_ne h ..

end

/-- The next action of the chunking stage for a file. -/
def chunk (s : State File n) (f : File) : Option (State File n) :=
  match (s.file f).todo with
  | [] => none
  | a :: rest => some (s.setFile f ({ (s.file f).access with todo := rest }.perform a))

/-- The stages behind the chunking stage read the file item as long as they have blocks of
one of its chunks: the compression algorithm, and the size in `IsSolePiece`. -/
def handle (s : State File n) (f : File) (c : ChunkName) : Option (State File n) :=
  if c ∈ (s.file f).inPipeline ∨ (c ∈ stopsOf (s.file f).todo ∧ c ∉ createsOf (s.file f).todo) then
    some (s.setFile f (s.file f).access)
  else none

/-- An idle upload task runs the callback of a chunk up to `RegisterChunk`. -/
def onChunkComplete (s : State File n) (t : Fin n) (f : File) (c : ChunkName) :
    Option (State File n) :=
  if s.task t = none ∧ c ∈ (s.file f).inPipeline then
    some ((s.setFile f ((s.file f).access.registerChunk c)).setTask t
      (some (f, .loadIsFullyChunked)))
  else none

def advance (s : State File n) (t : Fin n) : Option (State File n) :=
  match s.task t with
  | none => none
  | some (f, .loadIsFullyChunked) =>
    some ((s.setFile f (s.file f).access).setTask t
      (if (s.file f).isFullyChunked then some (f, .loadNchunksInFly) else none))
  | some (f, .loadNchunksInFly) =>
    some ((s.setFile f (s.file f).access).setTask t
      (if (s.file f).nchunksInFly = 0 then some (f, .dispatchAny) else none))
  | some (f, .dispatchAny) =>
    some ((s.setFile f { s.file f with dispatched := (s.file f).dispatched + 1 }).setTask t none)

end State

def step (s : State File n) : Event File n → Option (State File n)
  | .chunk f => s.chunk f
  | .handle f c => s.handle f c
  | .onChunkComplete t f c => s.onChunkComplete t f c
  | .advance t => s.advance t

def start (layout : File → Layout) : State File n where
  file f := { todo := (layout f).actions }
  task _ := none

def system (layout : File → Layout) (n : Nat) : System (State File n) (Event File n) where
  init s := s = start layout
  step s e s' := step s e = some s'

/-- A callback of a file is between `RegisterChunk` and its end. -/
def State.Busy (s : State File n) (f : File) (t : Fin n) : Prop :=
  (s.task t).map Prod.fst = some f

instance (s : State File n) (f : File) (t : Fin n) : Decidable (s.Busy f t) :=
  inferInstanceAs (Decidable (_ = _))

omit [DecidableEq File] in
theorem State.busy_iff {s : State File n} {f : File} {t : Fin n} :
    s.Busy f t ↔ ∃ p, s.task t = some (f, p) := by
  simp [State.Busy]

/-- The registration that leaves no chunk in fly of a fully chunked file happens while no
other callback of that file is between its registration and its end. -/
def Careful (s : State File n) : Event File n → Prop
  | .onChunkComplete _ f _ =>
    (s.file f).isFullyChunked = true → (s.file f).nchunksInFly = 1 → ∀ t, ¬s.Busy f t
  | _ => True

instance (s : State File n) (e : Event File n) : Decidable (Careful s e) :=
  match e with
  | .onChunkComplete _ _ _ => inferInstanceAs (Decidable (_ → _ → _))
  | .chunk _ => .isTrue trivial
  | .handle _ _ => .isTrue trivial
  | .advance _ => .isTrue trivial

end

end Cvmfs.Ingestion.Completion
