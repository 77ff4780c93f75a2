import Mathlib.Algebra.Order.Ring.Int

/-! # The parallel catalog traversal

`CatalogTraversalParallel` walks the graph of catalogs with a pool of threads
that share two job queues, the map of the catalogs in process and the set of
the finished ones. A thread is a little program: it takes a job, loads the
catalog, pushes what the catalog references under the catalogs lock, hands the
catalog to the listener under the callback lock and finalises the job. Each
constructor of `Task` is one place between two of these actions, and
`Shared.advance` performs the next action of a thread, so that a run is a
sequence of thread numbers.

What a critical section does is one action: no other thread reads or writes the
map or the set before the lock is released, and a job that is already in the
queue gets nowhere without that lock. The listener is not atomic; it is run one
hash at a time.

Jobs are heap objects and keep an identity of their own. The map is keyed by
`job->hash`, so it is a list of jobs. Not modelled: the paths under which
catalogs are attached, log output and the option `no_close`.
-/

namespace Cvmfs.Gc

/-- What the traversal and its listeners read from a catalog database. -/
structure Catalog (H : Type) where
  nested : List H
  objects : List H
  previous : Option H
  lastModified : Nat
  deriving DecidableEq

inductive Fetch (H : Type) where
  | ok (catalog : Catalog H)
  | notFound
  | failed
  deriving DecidableEq

inductive TraversalType where
  | breadthFirst
  | depthFirst
  deriving DecidableEq

structure Parameters where
  history : Nat
  timestamp : Int
  noRepeatHistory : Bool
  ignoreLoadFailure : Bool
  serializeCallbacks : Bool
  numThreads : Nat

def Parameters.noHistory : Nat := 0

def Parameters.noTimestampThreshold : Int := 0

/-- The traversal's surroundings: the object fetcher, and whether the temporary
file of a catalog can be opened again and removed. -/
structure Env (H : Type) where
  params : Parameters
  fetch : H → Fetch H
  reopen : H → Bool
  unlink : H → Bool

/-- The effective settings of one call of `Traverse` or `TraverseList`. -/
structure Mode where
  type : TraversalType
  historyDepth : Nat
  timestampThreshold : Int
  deriving DecidableEq

/-- A listener notes the catalog it is handed and visits a list of hashes. -/
structure Listener (H κ : Type) where
  note : κ → κ
  visits : H → Catalog H → List H
  visit : κ → H → κ

structure Job (H : Type) where
  id : Nat
  hash : H
  treeLevel : Nat
  historyDepth : Nat
  deriving DecidableEq

/-- Where a thread stands in `MainProcessQueue`. -/
inductive Task (H : Type) where
  | idle
  | popPre
  | prepare (job : Job H)
  | link (job : Job H) (catalog : Catalog H)
  | report (job : Job H)
  | enter (job : Job H) (catalog : Catalog H)
  | calling (job : Job H) (rest : List H)
  | finalize (job : Job H)
  | wake (parents : List (Job H))
  | stopped
  deriving DecidableEq

/-- The state shared by the threads. In the pre queue `none` is the job with the
null hash that tells a thread to finish. -/
structure Shared (H κ : Type) where
  allocated : Nat
  pre : List (Option (Job H))
  post : List (Job H)
  processing : List (Job H)
  done : List H
  /-- The pairs of a job and a parent whose `OnChildFinished` listens to it. -/
  listeners : List (Job H × Job H)
  childrenUnprocessed : Job H → Int
  numErrors : Nat
  callbackLock : Bool
  client : κ

/-- The comparison of `IsBelowPruningThresholds`. The threshold is cast to
`unsigned`; a negative one fails the assertion. -/
def isBelowPruningThresholds {H : Type} (m : Mode) (job : Job H) (catalog : Catalog H) :
    Option Bool :=
  if m.timestampThreshold < 0 then none
  else
    let h : Bool := job.historyDepth ≥ m.historyDepth
    let t : Bool := (catalog.lastModified : Int) < m.timestampThreshold % 2 ^ 32
    some (t || h)

namespace Shared

variable {H κ : Type} [DecidableEq H]

def lookup (sh : Shared H κ) (h : H) : Option (Job H) :=
  sh.processing.find? fun j => j.hash = h

def pushJobUnlocked (sh : Shared H κ) (job : Job H) : Shared H κ :=
  { sh with
    allocated := sh.allocated + 1
    processing := job :: sh.processing.filter fun j => j.hash ≠ job.hash
    pre := some job :: sh.pre }

/-- A job for a start catalog or a referenced catalog, fresh on the heap. -/
def newJob (sh : Shared H κ) (h : H) (treeLevel historyDepth : Nat) : Job H :=
  ⟨sh.allocated, h, treeLevel, historyDepth⟩

def registerListener (m : Mode) (sh : Shared H κ) (child job : Job H) : Shared H κ :=
  match m.type with
  | .breadthFirst => sh
  | .depthFirst => { sh with listeners := sh.listeners ++ [(child, job)] }

def notifyFinished (e : Env H) (sh : Shared H κ) : Shared H κ :=
  { sh with pre := List.replicate e.params.numThreads none ++ sh.pre }

/-- The exits with an error: the counter goes up and the pool is told to stop. -/
def fail (e : Env H) (sh : Shared H κ) : Shared H κ :=
  { sh with numErrors := sh.numErrors + 1 }.notifyFinished e

/-- One reference of a catalog, in `PushNestedCatalogs` and
`PushPreviousRevision` alike. The number says whether a child was counted. -/
def pushChild (e : Env H) (m : Mode) (sh : Shared H κ) (job : Job H) (h : H)
    (treeLevel historyDepth : Nat) : Shared H κ × Nat :=
  if e.params.noRepeatHistory && decide (h ∈ sh.done) then (sh, 0)
  else
    match if e.params.noRepeatHistory then sh.lookup h else none with
    | some child => (sh.registerListener m child job, 1)
    | none =>
      let child := sh.newJob h treeLevel historyDepth
      ((sh.pushJobUnlocked child).registerListener m child job, 1)

def pushNestedCatalogs (e : Env H) (m : Mode) (job : Job H) : Shared H κ → List H → Shared H κ × Nat
  | sh, [] => (sh, 0)
  | sh, h :: hs =>
    let child := sh.pushChild e m job h (job.treeLevel + 1) job.historyDepth
    let rest := pushNestedCatalogs e m job child.1 hs
    (rest.1, child.2 + rest.2)

/-- Only root catalogs lead to a previous revision. The result is `none` where
an assertion fails. -/
def pushPreviousRevision (e : Env H) (m : Mode) (sh : Shared H κ) (job : Job H)
    (catalog : Catalog H) : Option (Shared H κ × Nat) :=
  if job.treeLevel ≠ 0 then some (sh, 0)
  else
    match catalog.previous with
    | none => some (sh, 0)
    | some p =>
      match isBelowPruningThresholds m job catalog with
      | none => none
      | some true => some (sh, 0)
      | some false => some (sh.pushChild e m job p 0 (job.historyDepth + 1))

def setChildrenUnprocessed (sh : Shared H κ) (job : Job H) (n : Int) : Shared H κ :=
  { sh with childrenUnprocessed := Function.update sh.childrenUnprocessed job n }

/-- The critical section of `ProcessJobPre`, with the number of children. -/
def pushReferences (e : Env H) (m : Mode) (sh : Shared H κ) (job : Job H)
    (catalog : Catalog H) : Option (Shared H κ × Nat) :=
  match m.type with
  | .breadthFirst =>
    match sh.pushPreviousRevision e m job catalog with
    | none => none
    | some (sh₁, k) =>
      let nested := pushNestedCatalogs e m job sh₁ catalog.nested
      some (nested.1, k + nested.2)
  | .depthFirst =>
    let nested := pushNestedCatalogs e m job sh catalog.nested
    match nested.1.pushPreviousRevision e m job catalog with
    | none => none
    | some (sh₂, k) =>
      some (sh₂.setChildrenUnprocessed job (nested.2 + k : Nat), nested.2 + k)

def finalizeJob (e : Env H) (sh : Shared H κ) (job : Job H) : Shared H κ :=
  let sh₁ := { sh with
    processing := sh.processing.filter fun j => j.hash ≠ job.hash
    done := job.hash :: sh.done }
  if sh₁.processing.isEmpty && sh₁.pre.isEmpty && sh₁.post.isEmpty then sh₁.notifyFinished e
  else sh₁

def onChildFinished (sh : Shared H κ) (job : Job H) : Shared H κ :=
  let before := sh.childrenUnprocessed job
  let sh₁ := sh.setChildrenUnprocessed job (before - 1)
  if before = 1 then { sh₁ with post := job :: sh₁.post } else sh₁

/-- **One action of a thread.** `none` means that the thread is blocked, has
finished, or has failed an assertion. -/
def advance (e : Env H) (m : Mode) (l : Listener H κ) (sh : Shared H κ) :
    Task H → Option (Shared H κ × Task H)
  | .idle =>
    match sh.post with
    | [] => some (sh, .popPre)
    | j :: rest => some ({ sh with post := rest }, .report j)
  | .popPre =>
    match sh.pre with
    | [] => none
    | none :: rest => some ({ sh with pre := rest }, .stopped)
    | some j :: rest => some ({ sh with pre := rest }, .prepare j)
  | .prepare j =>
    match e.fetch j.hash with
    | .ok c => some (sh, .link j c)
    | .notFound =>
      if e.params.ignoreLoadFailure then some (sh, .finalize j) else some (sh.fail e, .idle)
    | .failed => some (sh.fail e, .idle)
  | .link j c =>
    match sh.pushReferences e m j c with
    | none => none
    | some (sh₁, n) =>
      some (sh₁, if m.type = .breadthFirst ∨ n = 0 then .report j else .idle)
  | .report j =>
    match e.fetch j.hash, e.reopen j.hash with
    | .ok c, true => some (sh, .enter j c)
    | _, _ => some (sh.fail e, .idle)
  | .enter j c =>
    if e.params.serializeCallbacks && sh.callbackLock then none
    else
      some ({ sh with callbackLock := true, client := l.note sh.client },
        .calling j (l.visits j.hash c))
  | .calling j (x :: rest) => some ({ sh with client := l.visit sh.client x }, .calling j rest)
  | .calling j [] =>
    let sh₁ := { sh with callbackLock := false }
    if e.unlink j.hash then some (sh₁, .finalize j) else some (sh₁.fail e, .idle)
  | .finalize j =>
    let sh₁ := sh.finalizeJob e j
    match m.type with
    | .breadthFirst => some (sh₁, .idle)
    | .depthFirst =>
      some ({ sh₁ with listeners := sh₁.listeners.filter fun r => r.1 ≠ j },
        .wake ((sh₁.listeners.filter fun r => r.1 = j).map Prod.snd))
  | .wake [] => some (sh, .idle)
  | .wake (p :: ps) => some (sh.onChildFinished p, .wake ps)
  | .stopped => none

/-- The jobs that `Traverse` and `TraverseList` push, in the order of the list. -/
def pushStarts (sh : Shared H κ) : List H → Shared H κ
  | [] => sh
  | h :: hs => (sh.pushJobUnlocked (sh.newJob h 0 0)).pushStarts hs

end Shared

structure Pool (H κ : Type) where
  shared : Shared H κ
  threads : List (Task H)

namespace Pool

variable {H κ : Type} [DecidableEq H]

def step (e : Env H) (m : Mode) (l : Listener H κ) (p : Pool H κ) (i : Nat) :
    Option (Pool H κ) :=
  match p.threads[i]? with
  | none => none
  | some t =>
    match p.shared.advance e m l t with
    | none => none
    | some (sh, t') => some ⟨sh, p.threads.set i t'⟩

def spawn (e : Env H) (sh : Shared H κ) : Pool H κ :=
  ⟨sh, List.replicate e.params.numThreads .idle⟩

/-- The value of `DoTraverse` once every thread is joined; `none` before that
and where one of the closing assertions fails. -/
def join (p : Pool H κ) : Option Bool :=
  if p.threads.all (· = .stopped) then
    if p.shared.numErrors ≠ 0 then some false
    else if p.shared.processing.isEmpty && p.shared.pre.isEmpty && p.shared.post.isEmpty then
      some true
    else none
  else none

end Pool

/-- The catalogs of a start list that `TraverseList` pushes, in its order. -/
def Shared.selectStarts {H κ : Type} [DecidableEq H] (e : Env H) (sh : Shared H κ)
    (list : List H) : List H :=
  list.reverse.filter fun h => !(e.params.noRepeatHistory && decide (h ∈ sh.done))

end Cvmfs.Gc
