import Cvmfs.Lib.Transition

/-! # Replication

`CommandPull` copies a repository from a stratum 0 to a destination. One thread walks over
the catalogs: it hands the chunks of a catalog to worker threads, waits until they are done
with them, recurses into the nested catalogs, waits for the storage and stores the catalog
itself. Storing is asynchronous: an upload is in flight until it lands at the destination,
in any order. A run ends with success, with an error, or is killed at any point. Uploads
that are in flight then may land later or never.

What a catalog contains is a function of its hash. Whether an object can be fetched from
stratum 0 is part of the steps. Path filters and inclusion specs are left out here. -/

namespace Cvmfs.Replication

open Lib

section

variable {C D : Type}

/-- Objects at the destination, by kind; catalogs have hashes of their own. -/
inductive Object (C D : Type) where
  | catalog (h : C)
  | chunk (h : D)
  | history (h : D)
  | certificate (h : D)
  | metaInfo (h : D)
  deriving DecidableEq

instance {C D : Type} [DecidableEq C] [DecidableEq D] : LawfulBEq (Object C D) := inferInstance

structure Manifest (C D : Type) where
  catalogHash : C
  certificate : D
  history : Option D
  metaInfo : Option D
  garbageCollectable : Bool
  deriving DecidableEq

/-- The contents of catalogs and of tag databases. -/
structure Repository (C D : Type) where
  chunks : C → List D
  nestedCatalogs : C → List C
  previousRevision : C → Option C
  lastModified : C → Nat
  tags : D → List C

structure Options where
  preloadCache : Bool := false
  pullHistory : Bool := false
  inspectExistingCatalogs : Bool := false
  reflog : Bool := true
  timestampThreshold : Nat := 0
  deriving DecidableEq

inductive Upload (C D : Type) where
  | object (o : Object C D)
  | manifest (m : Manifest C D)
  deriving DecidableEq

/-- Where a worker is with a chunk: before `Peek`, the download, `Store` or the decrement of
`chunk_queue`. -/
inductive Stage where
  | peek
  | fetch
  | store
  | count
  deriving DecidableEq

inductive Phase (C D : Type) where
  | peek
  | load
  /-- the loop over the chunks, before `WritePipe` -/
  | send (rest : List D)
  /-- the loop over the chunks, before the increment of `chunk_queue` -/
  | count (rest : List D)
  | drain
  /-- `PullRecursion` with the nested catalogs that are left -/
  | recurse (rest : List C)
  | wait (ok : Bool)
  | store
  /-- `PullRecursion` for a catalog that is present in a preloaded cache -/
  | inspect (rest : List C)
  | done (ok : Bool) (previous : Option C)
  deriving DecidableEq

structure Frame (C D : Type) where
  hash : C
  isRoot : Bool
  isHistoric : Bool
  existing : Bool := false
  phase : Phase C D := .peek
  deriving DecidableEq

inductive Place (C : Type) where
  | history
  | historyWait
  | pull (current : C) (isHistoric : Bool)
  | pulling
  | nextTag
  | stop
  | waitAll
  | checkRoot
  | certificate
  | metaInfo
  | reflog
  | manifest
  | lastWait
  | finished
  deriving DecidableEq

/-- A run of the command. `tags` are the tagged root catalogs that are left. -/
structure Process (C D : Type) where
  options : Options
  manifest : Manifest C D
  workers : Nat
  place : Place C := .history
  retval : Bool := true
  tags : List C := []
  applyThreshold : Bool := false
  reachedExisting : Bool := false
  stack : List (Frame C D) := []
  pipe : List D := []
  chunkQueue : Int := 0
  jobs : List (D × Stage) := []
  inflight : List (Upload C D) := []
  deriving DecidableEq

structure State (C D : Type) where
  objects : List (Object C D) := []
  published : Option (Manifest C D) := none
  orphans : List (Upload C D) := []
  process : Option (Process C D) := none
  deriving DecidableEq

/-- What a step that can fail comes to. `missing` is a file that is not on the server. -/
inductive Outcome where
  | ok
  | missing
  | failed
  deriving DecidableEq

inductive Event (C D : Type) where
  | start (options : Options) (manifest : Manifest C D) (workers : Nat)
  | main (outcome : Outcome)
  | read
  | work (i : Nat)
  | upload (i : Nat)
  | late (i : Nat)
  | kill
  deriving DecidableEq

namespace State

def run (s : State C D) (p : Process C D) : State C D := { s with process := some p }

/-- A run ends, with an error or killed. -/
def abandon (s : State C D) (p : Process C D) : State C D :=
  { s with process := none, orphans := s.orphans ++ p.inflight }

def land (s : State C D) : Upload C D → State C D
  | .object o => { s with objects := o :: s.objects }
  | .manifest m => { s with published := some m }

/-- `Store`: a preloaded cache is written at once, otherwise the spooler takes the file. -/
def store (s : State C D) (p : Process C D) (o : Object C D) : State C D :=
  if p.options.preloadCache then { s with objects := o :: s.objects }.run p
  else s.run { p with inflight := p.inflight ++ [.object o] }

end State

section

variable [DecidableEq C] [DecidableEq D] (repo : Repository C D)

/-! ## Pull -/

def Options.revisit (o : Options) : Bool := o.inspectExistingCatalogs && !o.preloadCache

/-- The call continues at another phase. -/
def State.goto (s : State C D) (p : Process C D) (f : Frame C D) (fs : List (Frame C D))
    (phase : Phase C D) : State C D :=
  s.run { p with stack := { f with phase } :: fs }

/-- `Peek` for the catalog, and what follows from it. -/
def peekCatalog (s : State C D) (p : Process C D) (f : Frame C D) (fs : List (Frame C D))
    (outcome : Outcome) : State C D :=
  let existing := decide (.catalog f.hash ∈ s.objects)
  let revisitsRoot := p.options.revisit && f.isRoot
  if revisitsRoot && !existing && f.isHistoric && p.reachedExisting then
    -- not restoring a collected historic catalog
    s.goto p f fs (.done true none)
  else
    let p := { p with reachedExisting := p.reachedExisting || (revisitsRoot && existing) }
    let f := { f with existing }
    if existing && !p.options.revisit then
      if p.options.inspectExistingCatalogs then
        match outcome with
        | .ok => s.goto p f fs (.inspect (repo.nestedCatalogs f.hash))
        | _ => s.goto p f fs (.done false none)
      else s.goto p f fs (.done true none)
    else s.goto p f fs .load

/-- Download, decompression, reflog and attaching. -/
def loadCatalog (s : State C D) (p : Process C D) (f : Frame C D) (fs : List (Frame C D)) :
    Outcome → State C D
  | .failed => s.goto p f fs (.done false none)
  | .missing =>
    s.goto p f fs (.done (f.isHistoric && p.manifest.garbageCollectable && !f.existing) none)
  | .ok =>
    if p.applyThreshold && f.isRoot &&
        decide (repo.lastModified f.hash < p.options.timestampThreshold) then
      s.goto p f fs (.done true none)
    else s.goto { p with applyThreshold := true } f fs (.send (repo.chunks f.hash))

/-- A call of `Pull` returns to `PullRecursion` or to the loops of `Main`. -/
def returnFrom (s : State C D) (p : Process C D) (fs : List (Frame C D)) (ok : Bool)
    (previous : Option C) : State C D :=
  match fs with
  | [] =>
    let p := { p with stack := [], retval := p.retval && ok }
    match p.options.pullHistory, previous with
    | true, some current => s.run { p with place := .pull current true }
    | _, _ => s.run { p with place := .nextTag }
  | parent :: fs =>
    if ok then s.run { p with stack := parent :: fs }
    else
      match parent.phase with
      | .inspect _ => s.goto p parent fs (.done false none)
      | _ => s.goto p parent fs (.wait false)

/-- A step of the innermost call of `Pull`; `none` if it waits. -/
def pullStep (s : State C D) (p : Process C D) (f : Frame C D) (fs : List (Frame C D))
    (outcome : Outcome) : Option (State C D) :=
  match f.phase with
  | .peek => some (peekCatalog repo s p f fs outcome)
  | .load => some (loadCatalog repo s p f fs outcome)
  | .send [] => some (s.goto p f fs .drain)
  | .send (c :: rest) => some (s.goto { p with pipe := p.pipe ++ [c] } f fs (.count rest))
  | .count rest => some (s.goto { p with chunkQueue := p.chunkQueue + 1 } f fs (.send rest))
  | .drain =>
    if p.chunkQueue = 0 then some (s.goto p f fs (.recurse (repo.nestedCatalogs f.hash))) else none
  | .recurse [] => some (s.goto p f fs (.wait true))
  | .recurse (h :: rest) =>
    some (s.run { p with stack :=
      { hash := h, isRoot := false, isHistoric := false } :: { f with phase := .recurse rest } :: fs })
  | .wait ok =>
    if p.inflight = [] then
      if ok && !f.existing then some (s.goto p f fs .store)
      else some (s.goto p f fs (.done ok (repo.previousRevision f.hash)))
    else none
  | .store =>
    some (s.store { p with stack :=
      { f with phase := .done true (repo.previousRevision f.hash) } :: fs } (.catalog f.hash))
  | .inspect [] => some (s.goto p f fs (.done true none))
  | .inspect (h :: rest) =>
    some (s.run { p with stack :=
      { hash := h, isRoot := false, isHistoric := false } :: { f with phase := .inspect rest } :: fs })
  | .done ok previous => some (returnFrom s p fs ok previous)

/-- The ways in which a call of `Pull` goes on. -/
inductive PullMove (s : State C D) (p : Process C D) (f : Frame C D) (fs : List (Frame C D)) :
    Outcome → State C D → Prop
  | collected {outcome : Outcome} : f.phase = .peek → p.options.revisit = true →
    f.isRoot = true → .catalog f.hash ∉ s.objects → f.isHistoric = true →
    p.reachedExisting = true → PullMove s p f fs outcome (s.goto p f fs (.done true none))
  | inspect {outcome : Outcome} {reached : Bool} : f.phase = .peek →
    .catalog f.hash ∈ s.objects → p.options.revisit = false →
    PullMove s p f fs outcome (s.goto { p with reachedExisting := reached }
      { f with existing := true } fs (.inspect (repo.nestedCatalogs f.hash)))
  | inspectFails {outcome : Outcome} {reached : Bool} : f.phase = .peek →
    .catalog f.hash ∈ s.objects →
    PullMove s p f fs outcome (s.goto { p with reachedExisting := reached }
      { f with existing := true } fs (.done false none))
  | upToDate {outcome : Outcome} {reached : Bool} : f.phase = .peek →
    .catalog f.hash ∈ s.objects → p.options.revisit = false →
    PullMove s p f fs outcome (s.goto { p with reachedExisting := reached }
      { f with existing := true } fs (.done true none))
  | load {outcome : Outcome} {reached existing : Bool} : f.phase = .peek →
    (existing = true → .catalog f.hash ∈ s.objects) →
    PullMove s p f fs outcome (s.goto { p with reachedExisting := reached }
      { f with existing } fs .load)
  | loadFails {outcome : Outcome} : f.phase = .load →
    PullMove s p f fs outcome (s.goto p f fs (.done false none))
  | missing : f.phase = .load → f.isHistoric = true →
    p.manifest.garbageCollectable = true → f.existing = false →
    PullMove s p f fs .missing (s.goto p f fs (.done true none))
  | pruned {outcome : Outcome} : f.phase = .load → f.isRoot = true →
    repo.lastModified f.hash < p.options.timestampThreshold →
    PullMove s p f fs outcome (s.goto p f fs (.done true none))
  | loaded {outcome : Outcome} : f.phase = .load →
    PullMove s p f fs outcome (s.goto { p with applyThreshold := true } f fs
      (.send (repo.chunks f.hash)))
  | send {outcome : Outcome} {c : D} {rest : List D} : f.phase = .send (c :: rest) →
    PullMove s p f fs outcome (s.goto { p with pipe := p.pipe ++ [c] } f fs (.count rest))
  | count {outcome : Outcome} {rest : List D} : f.phase = .count rest →
    PullMove s p f fs outcome (s.goto { p with chunkQueue := p.chunkQueue + 1 } f fs (.send rest))
  | sent {outcome : Outcome} : f.phase = .send [] → PullMove s p f fs outcome (s.goto p f fs .drain)
  | drained {outcome : Outcome} : f.phase = .drain → p.chunkQueue = 0 →
    PullMove s p f fs outcome (s.goto p f fs (.recurse (repo.nestedCatalogs f.hash)))
  | recurse {outcome : Outcome} {h : C} {rest : List C} : f.phase = .recurse (h :: rest) →
    PullMove s p f fs outcome (s.run { p with stack :=
      { hash := h, isRoot := false, isHistoric := false } :: { f with phase := .recurse rest } :: fs })
  | recursed {outcome : Outcome} : f.phase = .recurse [] →
    PullMove s p f fs outcome (s.goto p f fs (.wait true))
  | stored {outcome : Outcome} : f.phase = .wait true → p.inflight = [] →
    PullMove s p f fs outcome (s.goto p f fs .store)
  | keep {outcome : Outcome} {ok : Bool} : f.phase = .wait ok → (ok = true → f.existing = true) →
    PullMove s p f fs outcome (s.goto p f fs (.done ok (repo.previousRevision f.hash)))
  | store {outcome : Outcome} : f.phase = .store →
    PullMove s p f fs outcome (s.store { p with stack :=
      { f with phase := .done true (repo.previousRevision f.hash) } :: fs } (.catalog f.hash))
  | inspectNested {outcome : Outcome} {h : C} {rest : List C} : f.phase = .inspect (h :: rest) →
    PullMove s p f fs outcome (s.run { p with stack :=
      { hash := h, isRoot := false, isHistoric := false } :: { f with phase := .inspect rest } :: fs })
  | inspected {outcome : Outcome} : f.phase = .inspect [] →
    PullMove s p f fs outcome (s.goto p f fs (.done true none))
  | done {outcome : Outcome} {ok : Bool} {previous : Option C} : f.phase = .done ok previous →
    PullMove s p f fs outcome (returnFrom s p fs ok previous)

section

variable {s s' : State C D} {p : Process C D} {f : Frame C D} {fs : List (Frame C D)}
  {outcome : Outcome}

theorem pullMove_of_peekCatalog (hphase : f.phase = .peek) :
    PullMove repo s p f fs outcome (peekCatalog repo s p f fs outcome) := by
  unfold peekCatalog
  dsimp only
  split
  · rename_i h
    simp only [Bool.and_eq_true, Bool.not_eq_true', decide_eq_false_iff_not] at h
    obtain ⟨⟨⟨⟨hrevisit, hroot⟩, habsent⟩, hhistoric⟩, hreached⟩ := h
    exact .collected hphase hrevisit hroot habsent hhistoric hreached
  split
  · rename_i h
    simp only [Bool.and_eq_true, Bool.not_eq_true', decide_eq_true_eq] at h
    obtain ⟨hpresent, hrevisit⟩ := h
    rw [decide_eq_true hpresent]
    split
    · split
      · exact .inspect hphase hpresent hrevisit
      · exact .inspectFails hphase hpresent
    · exact .upToDate hphase hpresent hrevisit
  · exact .load hphase of_decide_eq_true

omit [DecidableEq C] [DecidableEq D] in
theorem pullMove_of_loadCatalog (hphase : f.phase = .load) :
    PullMove repo s p f fs outcome (loadCatalog repo s p f fs outcome) := by
  cases outcome with
  | failed => exact .loadFails hphase
  | missing =>
    unfold loadCatalog
    cases h : f.isHistoric && p.manifest.garbageCollectable && !f.existing with
    | false => exact .loadFails hphase
    | true =>
      simp only [Bool.and_eq_true, Bool.not_eq_true'] at h
      exact .missing hphase h.1.1 h.1.2 h.2
  | ok =>
    unfold loadCatalog
    dsimp only
    split
    · rename_i h
      simp only [Bool.and_eq_true, decide_eq_true_eq] at h
      exact .pruned hphase h.1.2 h.2
    · exact .loaded hphase

theorem pullMove_of_pullStep (h : pullStep repo s p f fs outcome = some s') :
    PullMove repo s p f fs outcome s' := by
  unfold pullStep at h
  split at h
  · cases h
    exact pullMove_of_peekCatalog repo ‹_›
  · cases h
    exact pullMove_of_loadCatalog repo ‹_›
  · cases h
    exact .sent ‹_›
  · cases h
    exact .send ‹_›
  · cases h
    exact .count ‹_›
  · split at h
    · cases h
      exact .drained ‹_› ‹_›
    · cases h
  · cases h
    exact .recursed ‹_›
  · cases h
    exact .recurse ‹_›
  · rename_i hphase
    split at h
    · rename_i hinflight
      split at h
      · rename_i hok
        rw [Bool.and_eq_true] at hok
        cases h
        exact .stored (hok.1 ▸ hphase) hinflight
      · rename_i hkeep
        rw [Bool.and_eq_true, not_and, Bool.not_eq_true, Bool.not_eq_false'] at hkeep
        cases h
        exact .keep hphase hkeep
    · cases h
  · cases h
    exact .store ‹_›
  · cases h
    exact .inspected ‹_›
  · cases h
    exact .inspectNested ‹_›
  · cases h
    exact .done ‹_›

end

/-! ## Main -/

def Process.goto (p : Process C D) (place : Place C) : Process C D := { p with place }

/-- A step of `Main` outside of `Pull`; `none` if it waits or has returned. -/
def mainStep (s : State C D) (p : Process C D) (outcome : Outcome) : Option (State C D) :=
  match p.place with
  | .history =>
    match p.manifest.history, p.options.preloadCache with
    | some h, false =>
      match outcome with
      | .ok => some (s.store ({ p with tags := repo.tags h }.goto .historyWait) (.history h))
      | _ => some (s.abandon p)
    | _, _ => some (s.run (p.goto (.pull p.manifest.catalogHash false)))
  | .historyWait =>
    if p.inflight = [] then
      match outcome with
      | .ok => some (s.run (p.goto (.pull p.manifest.catalogHash false)))
      | _ => some (s.abandon p)
    else none
  | .pull current isHistoric =>
    some (s.run { p with
      place := .pulling, stack := [{ hash := current, isRoot := true, isHistoric }] })
  | .pulling => none
  | .nextTag =>
    match p.tags with
    | [] => some (s.run (p.goto .stop))
    | t :: tags =>
      if .catalog t ∈ s.objects ∧ p.options.inspectExistingCatalogs = false then
        some (s.run { p with tags })
      else
        some (s.run { p with
          tags, place := .pull t true, applyThreshold := false, reachedExisting := false })
  | .stop => if p.retval then some (s.run (p.goto .waitAll)) else some (s.abandon p)
  | .waitAll => if p.inflight = [] then some (s.run (p.goto .checkRoot)) else none
  | .checkRoot =>
    if .catalog p.manifest.catalogHash ∈ s.objects then some (s.run (p.goto .certificate))
    else some (s.abandon p)
  | .certificate =>
    match outcome with
    | .ok =>
      if .certificate p.manifest.certificate ∈ s.objects then some (s.run (p.goto .metaInfo))
      else some (s.store (p.goto .metaInfo) (.certificate p.manifest.certificate))
    | _ => some (s.abandon p)
  | .metaInfo =>
    match p.manifest.metaInfo with
    | none => some (s.run (p.goto .reflog))
    | some h =>
      match outcome with
      | .ok => some (s.store (p.goto .reflog) (.metaInfo h))
      | _ => some (s.abandon p)
  | .reflog =>
    if p.options.reflog && !p.options.preloadCache then
      if p.inflight = [] then
        match outcome with
        | .ok => some (s.run (p.goto .manifest))
        | _ => some (s.abandon p)
      else none
    else some (s.run (p.goto .manifest))
  | .manifest =>
    if p.options.preloadCache then some (s.run (p.goto .lastWait))
    else some (s.run { p with
      place := .lastWait, inflight := p.inflight ++ [.manifest p.manifest] })
  | .lastWait => if p.inflight = [] then some (s.run (p.goto .finished)) else none
  | .finished => none

/-- The ways in which `Main` goes on outside of `Pull`. -/
inductive MainMove (s : State C D) (p : Process C D) : State C D → Prop
  | fail : MainMove s p (s.abandon p)
  | storeHistory {h : D} : p.place = .history → p.manifest.history = some h →
    p.options.preloadCache = false →
    MainMove s p (s.store ({ p with tags := repo.tags h }.goto .historyWait) (.history h))
  | noHistory : p.place = .history →
    (∀ h, p.manifest.history = some h → p.options.preloadCache = true) →
    MainMove s p (s.run (p.goto (.pull p.manifest.catalogHash false)))
  | historyStored : p.place = .historyWait → p.inflight = [] →
    MainMove s p (s.run (p.goto (.pull p.manifest.catalogHash false)))
  | call {current : C} {isHistoric : Bool} : p.place = .pull current isHistoric →
    MainMove s p (s.run { p with
      place := .pulling, stack := [{ hash := current, isRoot := true, isHistoric }] })
  | tagsDone : p.place = .nextTag → p.tags = [] → MainMove s p (s.run (p.goto .stop))
  | tagPresent {t : C} {tags : List C} : p.place = .nextTag → p.tags = t :: tags →
    .catalog t ∈ s.objects → p.options.inspectExistingCatalogs = false →
    MainMove s p (s.run { p with tags })
  | pullTag {t : C} {tags : List C} : p.place = .nextTag → p.tags = t :: tags →
    MainMove s p (s.run { p with
      tags, place := .pull t true, applyThreshold := false, reachedExisting := false })
  | stop : p.place = .stop → p.retval = true → MainMove s p (s.run (p.goto .waitAll))
  | allStored : p.place = .waitAll → p.inflight = [] → MainMove s p (s.run (p.goto .checkRoot))
  | rootPresent : p.place = .checkRoot → .catalog p.manifest.catalogHash ∈ s.objects →
    MainMove s p (s.run (p.goto .certificate))
  | certificatePresent : p.place = .certificate →
    .certificate p.manifest.certificate ∈ s.objects → MainMove s p (s.run (p.goto .metaInfo))
  | storeCertificate : p.place = .certificate →
    MainMove s p (s.store (p.goto .metaInfo) (.certificate p.manifest.certificate))
  | noMetaInfo : p.place = .metaInfo → p.manifest.metaInfo = none →
    MainMove s p (s.run (p.goto .reflog))
  | storeMetaInfo {h : D} : p.place = .metaInfo → p.manifest.metaInfo = some h →
    MainMove s p (s.store (p.goto .reflog) (.metaInfo h))
  | reflogStored : p.place = .reflog → p.inflight = [] → MainMove s p (s.run (p.goto .manifest))
  | noReflog : p.place = .reflog → (p.options.reflog && !p.options.preloadCache) = false →
    MainMove s p (s.run (p.goto .manifest))
  | preloaded : p.place = .manifest → p.options.preloadCache = true →
    MainMove s p (s.run (p.goto .lastWait))
  | storeManifest : p.place = .manifest → p.options.preloadCache = false →
    MainMove s p (s.run { p with
      place := .lastWait, inflight := p.inflight ++ [.manifest p.manifest] })
  | finish : p.place = .lastWait → p.inflight = [] → MainMove s p (s.run (p.goto .finished))

variable {s s' : State C D} {p : Process C D}

theorem mainMove_of_mainStep {outcome} (h : mainStep repo s p outcome = some s') :
    MainMove repo s p s' := by
  unfold mainStep at h
  split at h <;> rename_i hplace
  · split at h
    · rename_i hhistory hpreload
      split at h
      · cases h
        exact .storeHistory hplace hhistory hpreload
      · cases h
        exact .fail
    · rename_i hnone
      cases h
      refine .noHistory hplace fun d hd => ?_
      cases hpreload : p.options.preloadCache with
      | true => rfl
      | false => exact absurd hpreload (hnone d hd)
  · split at h
    · rename_i hinflight
      split at h
      · cases h
        exact .historyStored hplace hinflight
      · cases h
        exact .fail
    · cases h
  · cases h
    exact .call hplace
  · cases h
  · split at h
    · rename_i htags
      cases h
      exact .tagsDone hplace htags
    rename_i htags
    split at h
    · rename_i hpresent
      cases h
      exact .tagPresent hplace htags hpresent.1 hpresent.2
    · cases h
      exact .pullTag hplace htags
  · split at h
    · rename_i hretval
      cases h
      exact .stop hplace hretval
    · cases h
      exact .fail
  · split at h
    · rename_i hinflight
      cases h
      exact .allStored hplace hinflight
    · cases h
  · split at h
    · rename_i hpresent
      cases h
      exact .rootPresent hplace hpresent
    · cases h
      exact .fail
  · split at h
    · split at h
      · rename_i hpresent
        cases h
        exact .certificatePresent hplace hpresent
      · cases h
        exact .storeCertificate hplace
    · cases h
      exact .fail
  · split at h
    · rename_i hnone
      cases h
      exact .noMetaInfo hplace hnone
    rename_i hsome
    split at h
    · cases h
      exact .storeMetaInfo hplace hsome
    · cases h
      exact .fail
  · split at h
    · split at h
      · rename_i hinflight
        split at h
        · cases h
          exact .reflogStored hplace hinflight
        · cases h
          exact .fail
      · cases h
    · rename_i hreflog
      cases h
      exact .noReflog hplace (Bool.eq_false_iff.2 hreflog)
  · split at h
    · rename_i hpreload
      cases h
      exact .preloaded hplace hpreload
    · rename_i hpreload
      cases h
      exact .storeManifest hplace (Bool.eq_false_iff.2 hpreload)
  · split at h
    · rename_i hinflight
      cases h
      exact .finish hplace hinflight
    · cases h
  · cases h

/-! ## Workers, uploads and runs -/

/-- A worker goes on with its chunk; a failed download kills the process. -/
def workStep (s : State C D) (p : Process C D) (i : Nat) : Option (State C D) :=
  match p.jobs[i]? with
  | none => none
  | some (c, .peek) =>
    let stage := if .chunk c ∈ s.objects then Stage.count else Stage.fetch
    some (s.run { p with jobs := p.jobs.set i (c, stage) })
  | some (c, .fetch) => some (s.run { p with jobs := p.jobs.set i (c, .store) })
  | some (c, .store) => some (s.store { p with jobs := p.jobs.set i (c, .count) } (.chunk c))
  | some (_, .count) =>
    some (s.run { p with jobs := p.jobs.eraseIdx i, chunkQueue := p.chunkQueue - 1 })

def runStep (s : State C D) (p : Process C D) : Event C D → Option (State C D)
  | .main outcome =>
    match p.stack with
    | [] => mainStep repo s p outcome
    | f :: fs => pullStep repo s p f fs outcome
  | .read =>
    match p.pipe with
    | [] => none
    | c :: pipe =>
      if p.jobs.length < p.workers then some (s.run { p with pipe, jobs := p.jobs ++ [(c, .peek)] })
      else none
  | .work i => workStep s p i
  | .upload i =>
    match p.inflight[i]? with
    | none => none
    | some u => some ((s.land u).run { p with inflight := p.inflight.eraseIdx i })
  | .kill => some (s.abandon p)
  | _ => none

/-- A run is started when no other one is going on, and its process goes away at any time
after it is finished. -/
def step (s : State C D) : Event C D → Option (State C D)
  | .late i =>
    match s.orphans[i]? with
    | none => none
    | some u => some (({ s with orphans := s.orphans.eraseIdx i }).land u)
  | e =>
    match s.process, e with
    | none, .start options manifest workers => some (s.run { options, manifest, workers })
    | none, _ => none
    | some p, e => runStep repo s p e

/-- The ways in which the replica and a run on it go on. -/
inductive Move (s : State C D) : Event C D → State C D → Prop
  | start (options : Options) (manifest : Manifest C D) (workers : Nat) : s.process = none →
    Move s (.start options manifest workers) (s.run { options, manifest, workers })
  | main {p : Process C D} {outcome : Outcome} {s' : State C D} : s.process = some p →
    p.stack = [] → MainMove repo s p s' → Move s (.main outcome) s'
  | pull {p : Process C D} {f : Frame C D} {fs : List (Frame C D)} {outcome : Outcome}
    {s' : State C D} : s.process = some p → p.stack = f :: fs →
    PullMove repo s p f fs outcome s' → Move s (.main outcome) s'
  | read {p : Process C D} {c : D} {pipe : List D} : s.process = some p → p.pipe = c :: pipe →
    Move s .read (s.run { p with pipe, jobs := p.jobs ++ [(c, .peek)] })
  | work {p : Process C D} {i : Nat} {c : D} {stage stage' : Stage} : s.process = some p →
    p.jobs[i]? = some (c, stage) → (stage' = .count → .chunk c ∈ s.objects) →
    Move s (.work i) (s.run { p with jobs := p.jobs.set i (c, stage') })
  | storeChunk {p : Process C D} {i : Nat} {c : D} : s.process = some p →
    p.jobs[i]? = some (c, .store) →
    Move s (.work i) (s.store { p with jobs := p.jobs.set i (c, .count) } (.chunk c))
  | countChunk {p : Process C D} {i : Nat} {c : D} : s.process = some p →
    p.jobs[i]? = some (c, .count) →
    Move s (.work i) (s.run { p with
      jobs := p.jobs.eraseIdx i, chunkQueue := p.chunkQueue - 1 })
  | upload {p : Process C D} {i : Nat} {u : Upload C D} : s.process = some p →
    p.inflight[i]? = some u →
    Move s (.upload i) ((s.land u).run { p with inflight := p.inflight.eraseIdx i })
  | late {i : Nat} {u : Upload C D} : s.orphans[i]? = some u →
    Move s (.late i) (({ s with orphans := s.orphans.eraseIdx i }).land u)
  | kill {p : Process C D} : s.process = some p → Move s .kill (s.abandon p)

theorem move_of_workStep {i} (hp : s.process = some p) (h : workStep s p i = some s') :
    Move repo s (.work i) s' := by
  unfold workStep at h
  split at h <;> rename_i hjob <;> cases h
  · refine .work hp hjob fun hstage => ?_
    split at hstage
    · assumption
    · cases hstage
  · exact .work hp hjob nofun
  · exact .storeChunk hp hjob
  · exact .countChunk hp hjob

theorem move_of_runStep {e} (hp : s.process = some p) (h : runStep repo s p e = some s') :
    Move repo s e s' := by
  unfold runStep at h
  split at h
  · split at h
    · rename_i hstack
      exact .main hp hstack (mainMove_of_mainStep repo h)
    · rename_i hstack
      exact .pull hp hstack (pullMove_of_pullStep repo h)
  · split at h
    · cases h
    rename_i hpipe
    split at h
    · cases h
      exact .read hp hpipe
    · cases h
  · exact move_of_workStep repo hp h
  · split at h
    · cases h
    · rename_i hupload
      cases h
      exact .upload hp hupload
  · cases h
    exact .kill hp
  · cases h

theorem move_of_step {e} (h : step repo s e = some s') : Move repo s e s' := by
  unfold step at h
  split at h
  · split at h
    · cases h
    · rename_i hupload
      cases h
      exact .late hupload
  split at h
  · rename_i hp _
    cases h
    exact .start _ _ _ hp
  · cases h
  · rename_i hp _
    exact move_of_runStep repo hp h

def system : System (State C D) (Event C D) where
  init s := s = {}
  step s e s' := step repo s e = some s'

end

end

end Cvmfs.Replication
