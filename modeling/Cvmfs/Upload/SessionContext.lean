import Cvmfs.Lib.Transition
import Cvmfs.Upload.ObjectPack

/-! # Sessions with the gateway

`SessionContext` between `Initialize` and `Finalize`. Threads request buckets, fill
them and commit them; a mutex makes `NewBucket` atomic and keeps other calls out
while a bucket is committed. A commit takes several steps, since it has to wait when
a pack is dispatched and one of the two tubes is full: the queue of upload jobs, from
which the upload thread takes one job after the other, and the list of their results,
which is only read by `Finalize`.

The state has a history that no step reads: the packs dispatched, what was uploaded,
what was committed, and what `CommitBucket` answered. -/

namespace Cvmfs.Upload

open Crypto (Any Bytes)
open Lib (System)

structure Params where
  maxPackSize : Nat
  maxQueueSize : Nat

/-- Limit of the tube of results. -/
def kMaxNumJobs : Nat := 2 ^ 32 - 1

structure Commit where
  type : BucketContentType
  id : Any
  suffix : UInt8
  handle : Nat
  name : String
  deriving DecidableEq

/-- Arguments of `Finalize`; the tag is only sent. -/
structure Finalize where
  commit : Bool
  oldRootHash : String
  newRootHash : String
  deriving DecidableEq

/-- A job of the upload thread; results are known by their number. -/
structure UploadJob where
  pack : ObjectPack
  result : Nat
  deriving DecidableEq

/-- What is left to do once a pack is dispatched. -/
inductive After where
  | retry (c : Commit) (newPack : ObjectPack)
  | finalize (f : Finalize)
  deriving DecidableEq

/-- The call that is being made: none, a commit about to try the current pack, possibly for
another time, a call that dispatches the current pack, and the later stages of `Finalize`. -/
inductive Stage where
  | free
  | committing (c : Commit) (again : Bool)
  | dispatching (after : After)
  | recording (after : After) (result : Nat)
  | collecting (f : Finalize)
  | finalized (result : Bool)
  deriving DecidableEq

structure Session where
  heap : Nat → Bucket := fun _ => {}
  fresh : Nat := 0
  activeHandles : List Nat := []
  currentPack : Option ObjectPack := none
  bytesCommitted : Nat := 0
  bytesDispatched : Nat := 0
  stage : Stage := .free
  uploadJobs : List UploadJob := []
  uploadResults : List Nat := []
  worker : Option UploadJob := none
  panicked : Bool := false
  dispatched : List UploadJob := []
  uploaded : List (UploadJob × List Item × Bytes) := []
  committed : List (Nat × Bucket) := []
  answers : List (Nat × Bool) := []
  commitSent : Bool := false

namespace Session

variable (p : Params)

/-- Nothing is added to a bucket while it is being committed. -/
def Stage.commits : Stage → Option Commit
  | .committing c _ => some c
  | .dispatching (.retry c _) => some c
  | .recording (.retry c _) _ => some c
  | _ => none

def newBucket (s : Session) : Session :=
  let pack := s.currentPack.getD { limit := p.maxPackSize }
  { s with
    heap := Function.update s.heap s.fresh {}
    fresh := s.fresh + 1
    currentPack := some (pack.newBucket s.fresh)
    activeHandles := s.activeHandles ++ [s.fresh] }

def addToBucket (s : Session) (handle : Nat) (buf : Bytes) : Session :=
  { s with heap := Function.update s.heap handle ((s.heap handle).add buf) }

/-- The limit of the pack for a bucket that did not fit. -/
def newSize (b : Bucket) : Nat := if p.maxPackSize < b.capacity then b.capacity + 1 else p.maxPackSize

/-- `CommitBucket` from the point where the lock is held. -/
def tryCommit (s : Session) (c : Commit) (again : Bool) : Session :=
  match s.currentPack with
  | none => { s with stage := .free, answers := s.answers ++ [(c.handle, again)] }
  | some pack =>
    let bucket := (s.heap c.handle).label c.type c.id c.suffix c.name
    let s := { s with heap := Function.update s.heap c.handle bucket }
    if pack.full bucket.size then
      let (pack, newPack) := pack.transferAll { limit := newSize p bucket } s.activeHandles
      if pack.buckets = [] then
        { s with currentPack := some newPack, stage := .committing c true }
      else
        { s with
          currentPack := some pack
          bytesDispatched := s.bytesDispatched + pack.size
          stage := .dispatching (.retry c newPack) }
    else
      let pack' := pack.commitBucket c.handle bucket.size
      { s with
        currentPack := some pack'
        activeHandles := s.activeHandles.filter (· ≠ c.handle)
        bytesCommitted := s.bytesCommitted + (pack'.size - pack.size)
        stage := .free
        committed := s.committed ++ [(c.handle, bucket)]
        answers := s.answers ++ [(c.handle, true)] }

def pushJob (s : Session) (pack : ObjectPack) (after : After) : Session :=
  let job : UploadJob := ⟨pack, s.dispatched.length⟩
  { s with
    dispatched := s.dispatched ++ [job]
    uploadJobs := s.uploadJobs ++ [job]
    stage := .recording after job.result }

/-- The result of the job is kept, and the call goes on. -/
def pushResult (s : Session) (after : After) (result : Nat) : Session :=
  let s := { s with uploadResults := s.uploadResults ++ [result] }
  match after with
  | .retry c newPack => { s with currentPack := some newPack, stage := .committing c true }
  | .finalize f => { s with currentPack := none, stage := .collecting f }

/-- The next step of the call that holds the lock. -/
def proceed (s : Session) : Option Session :=
  match s.stage with
  | .committing c again => some (s.tryCommit p c again)
  | .dispatching after =>
    match s.currentPack with
    | none => none
    | some pack =>
      if s.uploadJobs.length = p.maxQueueSize then none else some (s.pushJob pack after)
  | .recording after result =>
    if s.uploadResults.length = kMaxNumJobs then none else some (s.pushResult after result)
  | _ => none

/-- `Finalize` up to the results of the uploads. -/
def finalize (s : Session) (f : Finalize) : Session :=
  match s.currentPack with
  | none => { s with stage := .collecting f }
  | some pack =>
    if pack.buckets = [] then { s with stage := .collecting f }
    else { s with
      bytesDispatched := s.bytesDispatched + pack.size
      stage := .dispatching (.finalize f) }

/-- `Finalize` once all results are there; `ok` is the answer to the commit request. -/
def conclude (s : Session) (f : Finalize) (ok : Bool) : Session :=
  let result := decide (s.bytesCommitted = s.bytesDispatched)
  if f.commit then
    if f.oldRootHash = "" ∨ f.newRootHash = "" then { s with stage := .finalized false }
    else { s with stage := .finalized (ok && result), commitSent := true }
  else { s with stage := .finalized result }

inductive Event where
  | newBucket
  | addToBucket (handle : Nat) (buf : Bytes)
  | commitBucket (c : Commit)
  | proceed
  | takeJob
  | doUpload (ok : Bool) (rooms : List Nat)
  | finalize (f : Finalize)
  | collect
  | conclude (ok : Bool)

def objects (s : Session) (pack : ObjectPack) : List Bucket := pack.buckets.map s.heap

/-- One atomic step. Callers use the handles they were given, commit each of them once and
call `Finalize` when all of them are committed. -/
def step (s : Session) : Event → Option Session
  | .newBucket => if s.panicked ∨ s.stage ≠ .free then none else some (s.newBucket p)
  | .addToBucket handle buf =>
    if s.panicked ∨ handle ∉ s.activeHandles ∨ (Stage.commits s.stage).map Commit.handle = some handle
    then none else some (s.addToBucket handle buf)
  | .commitBucket c =>
    if s.panicked ∨ s.stage ≠ .free ∨ c.handle ∉ s.activeHandles then none
    else some { s with stage := .committing c false }
  | .proceed => if s.panicked then none else s.proceed p
  | .takeJob =>
    match s.worker, s.uploadJobs with
    | none, job :: jobs =>
      if s.panicked then none else some { s with worker := some job, uploadJobs := jobs }
    | _, _ => none
  | .doUpload ok rooms =>
    match s.worker with
    | none => none
    | some job =>
      if s.panicked then none
      else if ok then
        -- a request that was answered has been sent to its end
        let (payload, rest) := produce rooms ((s.objects job.pack).map Bucket.content) 0
        if rest = [] then some { s with
          worker := none
          uploaded := s.uploaded ++ [(job, (s.objects job.pack).map Bucket.item, payload)] }
        else none
      else some { s with panicked := true }
  | .finalize f =>
    if s.panicked ∨ s.stage ≠ .free ∨ s.activeHandles ≠ [] then none else some (s.finalize f)
  | .collect =>
    match s.stage, s.uploadResults with
    | .collecting _, result :: results =>
      -- `Get` waits for the result
      if s.panicked ∨ result ∉ s.uploaded.map (·.1.result) then none
      else some { s with uploadResults := results }
    | _, _ => none
  | .conclude ok =>
    match s.stage with
    | .collecting f =>
      if s.panicked ∨ s.uploadResults ≠ [] then none else some (s.conclude f ok)
    | _ => none

end Session

def sessions (p : Params) : System Session Session.Event where
  init s := s = {}
  step s e s' := s.step p e = some s'

end Cvmfs.Upload
