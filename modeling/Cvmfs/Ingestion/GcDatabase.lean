import Cvmfs.Lib.Delimiter
import Cvmfs.Lib.Transition
import Mathlib.Data.List.Nodup
import Mathlib.Data.List.TakeWhile

/-! # Ingest runs on a GC database

A scanner collects the paths that can be deleted in a database, and ingest runs work it off in
batches: a run reads pending rows, hands their paths, joined in one string, to the deletion phase,
publishes, and marks the rows. Scanner and runs are interleaved step by step. A row is marked only
by a run that has read it and removed its path as long as the joined paths can be told apart and
are found in the read-only tree, no run that has read nothing finds a pending row when it marks,
and neither the export of the manifest nor the commit of the marks fails. -/

namespace Cvmfs.Ingestion.GcDatabase

open Lib Lib.Delimiter List

abbrev Text := List Char

structure Row where
  id : Int
  path : Option Text
  deleted : Bool
deriving DecidableEq

def Row.mark (sel : Row → Bool) (r : Row) : Row := if sel r then { r with deleted := true } else r

@[simp] theorem Row.mark_id (sel : Row → Bool) (r : Row) : (r.mark sel).id = r.id := by
  unfold mark; split <;> rfl

@[simp] theorem Row.mark_path (sel : Row → Bool) (r : Row) : (r.mark sel).path = r.path := by
  unfold mark; split <;> rfl

@[simp] theorem Row.mark_deleted (sel : Row → Bool) (r : Row) :
    (r.mark sel).deleted = (r.deleted || sel r) := by
  unfold mark; split <;> simp [*]

@[simp] theorem Row.map_mark_false (rows : List Row) : rows.map (mark fun _ => false) = rows := by
  refine map_id'' (fun r => ?_) rows
  simp [mark]

/-- What the scanner and the runs have in common: `gc_paths` in the order of its ids, and the
largest id that was given out. -/
structure Database where
  rows : List Row
  seq : Int
  sorted : rows.Pairwise (·.id < ·.id)
  bounded : ∀ r ∈ rows, r.id ≤ seq
deriving DecidableEq

namespace Database

def update (db : Database) (sel : Row → Bool) : Database where
  rows := db.rows.map (Row.mark sel)
  seq := db.seq
  sorted := by simpa [pairwise_map] using db.sorted
  bounded := by simpa using db.bounded

variable (db : Database)

theorem sorted_concat (path : Text) :
    (db.rows ++ [⟨db.seq + 1, some path, false⟩] : List Row).Pairwise (·.id < ·.id) := by
  have := db.bounded
  simp only [pairwise_append, mem_singleton]
  exact ⟨db.sorted, by simp, by rintro r hr _ rfl; have := this r hr; simp; omega⟩

theorem bounded_concat (path : Text) :
    ∀ r ∈ (db.rows ++ [⟨db.seq + 1, some path, false⟩] : List Row), r.id ≤ db.seq + 1 := by
  intro r hr
  rcases mem_append.1 hr with hr | hr
  · have := db.bounded r hr; omega
  · simp [mem_singleton.1 hr]

/-- `INSERT OR IGNORE`: the path is unique and the id autoincremented. -/
def insert (db : Database) (path : Text) : Database :=
  if some path ∈ db.rows.map (·.path) then db
  else
    { rows := db.rows ++ [⟨db.seq + 1, some path, false⟩]
      seq := db.seq + 1
      sorted := db.sorted_concat path
      bounded := db.bounded_concat path }

def insertPaths (db : Database) (paths : List Text) : Database := paths.foldl insert db

theorem ext_id {db : Database} {r r' : Row} (hr : r ∈ db.rows) (hr' : r' ∈ db.rows)
    (h : r.id = r'.id) : r = r' := by
  have hnodup : (db.rows.map (·.id)).Nodup := pairwise_map.2 (db.sorted.imp fun h => Int.ne_of_lt h)
  exact inj_on_of_nodup_map hnodup hr hr' h

theorem insertPaths_rows (paths : List Text) :
    ∃ new, (db.insertPaths paths).rows = db.rows ++ new ∧ ∀ r ∈ new, r.deleted = false := by
  induction paths generalizing db with
  | nil => exact ⟨[], by simp [insertPaths], by simp⟩
  | cons p ps ih =>
    obtain ⟨new, hrows, hnew⟩ := ih (db.insert p)
    rw [insertPaths, foldl_cons, ← insertPaths, hrows, insert]
    split
    · exact ⟨new, rfl, hnew⟩
    · exact ⟨⟨db.seq + 1, some p, false⟩ :: new, by simp, by simpa using hnew⟩

end Database

/-! ## Reading and marking -/

inductive ReadFault
  | openDb | prepare | step
deriving DecidableEq

/-- The rows whose ids and paths are read: those without a path are passed over. -/
def readGCDatabase (db : Database) (batchSize : Int) (fault : Option ReadFault) :
    Option (List Row) :=
  if fault.isSome then none
  else
    let pending := db.rows.filter (!·.deleted)
    let selected := if 0 < batchSize then pending.take batchSize.toNat else pending
    some (selected.filter (·.path.isSome))

/-- Which of the calls on the database fail: `stepAt` is the position of the first row that cannot
be updated. -/
structure MarkFaults where
  openDb : Bool := false
  exec : Bool := false
  prepare : Bool := false
  beginTransaction : Bool := false
  stepAt : Option Nat := none
  commit : Bool := false
deriving DecidableEq

/-- A call fails whose answer is looked at, with this number of rows to update. -/
def MarkFaults.Fails (f : MarkFaults) (count : Nat) : Prop :=
  f.openDb = true ∨ f.prepare = true ∨ ∃ n ∈ f.stepAt, n < count

instance (f : MarkFaults) (count : Nat) : Decidable (f.Fails count) :=
  inferInstanceAs (Decidable (_ ∨ _ ∨ ∃ n ∈ _, _))

/-- The loop over the ids, up to the first update that fails. -/
def updateIds : Database → List Int → Option Nat → Database × Bool
  | db, [], _ => (db, true)
  | db, _ :: _, some 0 => (db, false)
  | db, id :: ids, some (n + 1) => updateIds (db.update (·.id == id)) ids (some n)
  | db, id :: ids, none => updateIds (db.update (·.id == id)) ids none

/-- The answers to `BEGIN` and `COMMIT` are not looked at. Without a transaction every update
stays; a transaction that is not committed is rolled back when the database is closed. -/
def markGCPathsDeleted (db : Database) (ids : List Int) (f : MarkFaults) : Database × Bool :=
  if f.openDb then (db, false)
  else if ids = [] then
    -- legacy behaviour: all rows that are pending by now
    if f.exec then (db, false) else (db.update (!·.deleted), true)
  else if f.prepare then (db, false)
  else
    let (db', done) := updateIds db ids f.stepAt
    if f.beginTransaction then (db', done)
    else if done && !f.commit then (db', true) else (db, done)

variable (db : Database)

theorem updateIds_rows (ids : List Int) (stop : Option Nat) :
    ∃ done, done <+: ids ∧ ((updateIds db ids stop).2 = true → done = ids) ∧
      (updateIds db ids stop).1.rows = db.rows.map (Row.mark fun r => decide (r.id ∈ done)) := by
  have hcons : ∀ (db : Database) (id : Int) (done : List Int),
      (db.update (·.id == id)).rows.map (Row.mark fun r => decide (r.id ∈ done)) =
        db.rows.map (Row.mark fun r => decide (r.id ∈ id :: done)) := by
    intro db id done
    simp only [Database.update, map_map]
    refine map_congr_left fun r _ => ?_
    by_cases h : r.id = id <;> by_cases h' : r.id ∈ done <;> simp [Row.mark, h, h']
  fun_induction updateIds db ids stop with
  | case1 db _ => exact ⟨[], by simp, by simp, by simp⟩
  | case2 db id ids => exact ⟨[], by simp, by simp, by simp⟩
  | case3 db id ids n ih | case4 db id ids ih =>
    obtain ⟨done, hpre, hall, hrows⟩ := ih
    exact ⟨id :: done, by simpa using hpre, fun h => by rw [hall h], by rw [hrows, hcons]⟩

theorem updateIds_fails {ids : List Int} {n : Nat} (h : n < ids.length) :
    (updateIds db ids (some n)).2 = false := by
  induction ids generalizing db n with
  | nil => cases h
  | cons id ids ih =>
    cases n with
    | zero => rfl
    | succ n => exact ih _ (Nat.lt_of_succ_lt_succ h)

theorem markGCPathsDeleted_fails {ids : List Int} {f : MarkFaults} (hids : ids ≠ [])
    (h : f.Fails ids.length) : (markGCPathsDeleted db ids f).2 = false := by
  unfold markGCPathsDeleted
  rw [if_neg hids]
  obtain h | h | ⟨n, hn, hlt⟩ := h
  · rw [if_pos h]
  · rw [if_pos h]
    split <;> rfl
  · rw [Option.mem_def.1 hn]
    have hfails := updateIds_fails db hlt
    split
    · rfl
    split
    · rfl
    simp only [hfails]
    split
    · rfl
    · simp

/-- Without ids every pending row can be marked, with ids no other row than theirs; where marking is
reported as done they are all marked, unless the commit fails. -/
theorem markGCPathsDeleted_rows (ids : List Int) (f : MarkFaults) :
    ∃ sel, (markGCPathsDeleted db ids f).1.rows = db.rows.map (Row.mark sel) ∧
      (∀ r, sel r = true → r.id ∈ ids ∨ ids = [] ∧ f.openDb = false ∧ f.exec = false) ∧
      ((markGCPathsDeleted db ids f).2 = true → ids ≠ [] →
        f.beginTransaction = true ∨ f.commit = false → ∀ r, r.id ∈ ids → sel r = true) := by
  have hsame : db.rows = db.rows.map (Row.mark fun _ => false) := by simp
  obtain ⟨done, hpre, hall, hrows⟩ := updateIds_rows db ids f.stepAt
  have hsub : ∀ r : Row, decide (r.id ∈ done) = true → r.id ∈ ids := fun r h =>
    hpre.subset (of_decide_eq_true h)
  unfold markGCPathsDeleted
  by_cases hopen : f.openDb = true
  · rw [if_pos hopen]
    exact ⟨_, hsame, by simp, by simp⟩
  rw [if_neg hopen]
  by_cases hids : ids = []
  · rw [if_pos hids]
    by_cases hexec : f.exec = true
    · rw [if_pos hexec]
      exact ⟨_, hsame, by simp, by simp⟩
    · rw [if_neg hexec]
      exact ⟨_, rfl, fun _ _ => .inr ⟨hids, by simpa using hopen, by simpa using hexec⟩,
        fun _ h => absurd hids h⟩
  rw [if_neg hids]
  by_cases hprep : f.prepare = true
  · rw [if_pos hprep]
    exact ⟨_, hsame, by simp, by simp⟩
  rw [if_neg hprep]
  by_cases hbegin : f.beginTransaction = true
  · simp only [hbegin, if_true]
    exact ⟨_, hrows, fun r h => .inl (hsub r h), fun h _ _ r hr => by simpa [hall h] using hr⟩
  simp only [if_neg hbegin]
  by_cases hdone : ((updateIds db ids f.stepAt).2 && !f.commit) = true
  · rw [if_pos hdone]
    rw [Bool.and_eq_true] at hdone
    exact ⟨_, hrows, fun r h => .inl (hsub r h), fun _ _ _ r hr => by simpa [hall hdone.1] using hr⟩
  rw [if_neg hdone]
  refine ⟨_, hsame, by simp, fun h _ hc => ?_⟩
  rcases hc with hc | hc
  · exact absurd hc hbegin
  · exact absurd (by simpa [hc] using h) hdone

/-! ## The paths of a run -/

def pathDelimiter : Text := ['/', '/', '/']

/-- `gc_db_batch_size`, from the value of the option. -/
def gcDbBatchSize : Option Int → Int
  | none => 1000
  | some value =>
    let size := value.bmod (2 ^ 32)
    if size < 0 then 0 else size

/-- `params.to_delete`, with the paths of the batch behind what the option gives. -/
def appendPaths (toDelete : Text) (paths : List Text) : Text :=
  paths.foldl (fun t p => (if t = [] then t else t ++ pathDelimiter) ++ p) toDelete

def toEliminate (toDelete : Text) : List Text :=
  if toDelete = [] then [] else split pathDelimiter toDelete

def splitPath (path : Text) : Text × Text :=
  if '/' ∈ path then
    ((path.reverse.dropWhile (· != '/')).tail.reverse, (path.reverse.takeWhile (· != '/')).reverse)
  else (['.'], path)

/-- A call of `Remove` with its synchronisation item. -/
structure Removal where
  parentPath : Text
  filename : Text
  fastDelete : Bool
deriving DecidableEq

def removal (fastDelete : Bool) (path : Text) : Removal :=
  let (parentPath, filename) := splitPath path
  ⟨if parentPath = ['.'] then [] else parentPath, filename, fastDelete⟩

def Removal.relativePath (r : Removal) : Text :=
  if r.parentPath = [] then r.filename else r.parentPath ++ '/' :: r.filename

inductive FileType
  | dir | file | symlink | special | unknown
deriving DecidableEq

/-- What the read-only branch has at its paths; nothing if it is not mounted. -/
abbrev Branch := List (Text × FileType)

/-- `SyncMediator::Remove`: whether the entry is removed. Of an entry that is not found there is
only a warning, unless it is named like a bundle. -/
def remove (branch : Branch) (r : Removal) : Bool :=
  match branch.lookup r.relativePath with
  | some .unknown | none => ".cvmfsbundle-".toList.isPrefixOf r.filename
  | _ => true

/-- `EnsureAllowed`, which aborts otherwise. -/
def allowed (r : Removal) : Bool :=
  r.relativePath != ".cvmfs".toList && !".cvmfs/".toList.isPrefixOf r.relativePath

/-- The deletion phase of `Traverse`: what is removed. -/
def traverse (branch : Branch) (toDelete : Text) (fastDelete : Bool) : Option (List Removal) :=
  let entries := (toEliminate toDelete).map (removal fastDelete)
  if entries.all allowed then some (entries.filter (remove branch)) else none

/-- A path of the database names an entry of the repository. -/
def Names (path relativePath : Text) : Prop :=
  path = relativePath ∨ path = '/' :: relativePath ∨ path = '.' :: '/' :: relativePath

theorem splitPath_append {path : Text} (h : '/' ∈ path) :
    (splitPath path).1 ++ '/' :: (splitPath path).2 = path := by
  rw [splitPath, if_pos h]
  have hne : path.reverse.dropWhile (· != '/') ≠ [] := by
    simpa [dropWhile_eq_nil_iff] using h
  have hhead : (path.reverse.dropWhile (· != '/')).head hne = '/' := by
    simpa using head_dropWhile_not (· != '/') hne
  have hcons := cons_head_tail hne
  rw [hhead] at hcons
  have hall := congrArg reverse (takeWhile_append_dropWhile (p := (· != '/')) (l := path.reverse))
  rw [← hcons] at hall
  simpa using hall

theorem names_removal (fastDelete : Bool) (path : Text) :
    Names path (removal fastDelete path).relativePath := by
  by_cases h : '/' ∈ path
  · have happend := splitPath_append h
    have hparent : (removal fastDelete path).parentPath =
        if (splitPath path).1 = ['.'] then [] else (splitPath path).1 := rfl
    have hfile : (removal fastDelete path).filename = (splitPath path).2 := rfl
    rw [Removal.relativePath, hfile]
    by_cases hdot : (splitPath path).1 = ['.']
    · rw [if_pos (hparent.trans (if_pos hdot))]
      rw [hdot] at happend
      exact .inr (.inr happend.symm)
    rw [hparent.trans (if_neg hdot)]
    by_cases hnil : (splitPath path).1 = []
    · rw [if_pos hnil]
      rw [hnil] at happend
      exact .inr (.inl happend.symm)
    · rw [if_neg hnil]
      exact .inl happend.symm
  · simp [Names, Removal.relativePath, removal, splitPath, h]

/-- The path is found in the read-only branch. -/
def Found (branch : Branch) (path : Text) : Prop :=
  ∃ type ∈ branch.lookup (removal true path).relativePath, type ≠ .unknown

instance (branch : Branch) (path : Text) : Decidable (Found branch path) :=
  inferInstanceAs (Decidable (∃ type ∈ _, _))

theorem remove_of_found {branch : Branch} {path : Text} (h : Found branch path) (fastDelete : Bool) :
    remove branch (removal fastDelete path) = true := by
  obtain ⟨type, htype, hknown⟩ := h
  have hlookup : branch.lookup (removal fastDelete path).relativePath = some type := htype
  rw [remove, hlookup]
  cases type with
  | unknown => exact absurd rfl hknown
  | _ => rfl

/-- The paths can be told apart in the joined string. -/
def Distinguishable (toDelete : Text) (paths : List Text) : Prop :=
  paths ≠ [] → Separable pathDelimiter paths ∧
    if toDelete = [] then paths.head? ≠ some []
    else ∀ p ∈ (split pathDelimiter toDelete).getLast?, Closed pathDelimiter p

instance (toDelete : Text) (paths : List Text) : Decidable (Distinguishable toDelete paths) :=
  inferInstanceAs (Decidable (_ → _))

theorem appendPaths_of_ne_nil {toDelete : Text} (h : toDelete ≠ []) (paths : List Text) :
    appendPaths toDelete paths = pathDelimiter.intercalate (toDelete :: paths) := by
  induction paths generalizing toDelete with
  | nil => simp [appendPaths]
  | cons p ps ih =>
    have hne : toDelete ++ pathDelimiter ++ p ≠ [] := by simp [h]
    rw [appendPaths, foldl_cons, if_neg h, ← appendPaths, ih hne, intercalate_cons_cons]
    cases ps <;> simp

theorem toEliminate_appendPaths {toDelete : Text} {paths : List Text}
    (h : Distinguishable toDelete paths) :
    toEliminate (appendPaths toDelete paths) = toEliminate toDelete ++ paths := by
  have hd : pathDelimiter ≠ [] := by decide
  cases paths with
  | nil => simp [appendPaths]
  | cons p ps =>
    obtain ⟨hsep, hfirst⟩ := h (by simp)
    have hsplit := split_intercalate hd (by simp) hsep
    by_cases h0 : toDelete = []
    · subst h0
      have hp : p ≠ [] := by simpa using hfirst
      have happ : appendPaths [] (p :: ps) = pathDelimiter.intercalate (p :: ps) := by
        rw [← appendPaths_of_ne_nil hp]
        simp [appendPaths]
      have hne : pathDelimiter.intercalate (p :: ps) ≠ [] := by
        cases ps <;> simp [hp]
      rw [toEliminate, happ, if_neg hne, hsplit]
      simp [toEliminate]
    · rw [if_neg h0] at hfirst
      rw [toEliminate, appendPaths_of_ne_nil h0, intercalate_cons_cons, append_assoc,
        if_neg (by simp [h0]), split_append hd _ hfirst, hsplit, toEliminate, if_neg h0]

/-! ## Runs -/

inductive Stage
  | read | traversed | finalized | exported
  | finished (status : Nat)
deriving DecidableEq

structure Run where
  toDelete : Text
  fastOption : Bool
  /-- the rows of `gc_batch_ids` -/
  batch : List Row
  removed : List Removal := []
  published : Bool := false
  /-- the answer of `MarkGCPathsDeleted`, which is logged -/
  report : Option Bool := none
  stage : Stage := .read
deriving DecidableEq

namespace Run

/-- What `std::string(path)` makes of the text of a row. -/
def gcPaths (run : Run) : List Text :=
  run.batch.map fun r => (r.path.getD []).takeWhile (· != '\x00')

def fastDelete (run : Run) : Bool := run.fastOption || !run.batch.isEmpty

/-- What is removed are paths of the option or of the batch, and all of those of the batch. -/
def Exact (run : Run) : Prop :=
  (∀ x ∈ run.removed, ∃ p ∈ toEliminate run.toDelete ++ run.batch.filterMap (·.path),
    Names p x.relativePath) ∧
  ∀ p ∈ run.batch.filterMap (·.path), ∃ x ∈ run.removed, Names p x.relativePath

/-- The batch can be told apart, and nothing of its paths is cut off. -/
def Legible (run : Run) : Prop :=
  Distinguishable run.toDelete run.gcPaths ∧ ∀ r ∈ run.batch, '\x00' ∉ r.path.getD []

instance (run : Run) : Decidable run.Legible := inferInstanceAs (Decidable (_ ∧ _))

end Run

inductive Action
  /-- an exit before the publication -/
  | fail (status : Nat)
  | traverse (branch : Branch)
  | finalizeSession (ok : Bool)
  | exportManifest (ok : Bool)
  | mark (faults : MarkFaults)
deriving DecidableEq

def advance (db : Database) (run : Run) : Action → Option (Database × Run)
  | .fail status =>
    if run.stage = .read ∨ run.stage = .traversed then
      some (db, { run with stage := .finished status })
    else none
  | .traverse branch =>
    if run.stage = .read then
      match traverse branch (appendPaths run.toDelete run.gcPaths) run.fastDelete with
      | some removed => some (db, { run with removed, stage := .traversed })
      | none => some (db, { run with stage := .finished 134 })
    else none
  | .finalizeSession ok =>
    if run.stage = .traversed then
      some (db, if ok then { run with published := true, stage := .finalized }
        else { run with stage := .finished 9 })
    else none
  | .exportManifest ok =>
    if run.stage = .finalized then
      some (db, { run with stage := if ok then .exported else .finished 6 })
    else none
  | .mark faults =>
    if run.stage = .exported then
      let (db', marked) := markGCPathsDeleted db (run.batch.map (·.id)) faults
      some (db', { run with report := some marked, stage := .finished 0 })
    else none

structure State where
  db : Database
  runs : List Run
deriving DecidableEq

inductive Event
  | insertPaths (paths : List Text) (ok : Bool)
  | start (toDelete : Text) (fast : Bool) (batchSize : Option Int) (fault : Option ReadFault)
  | run (k : Nat) (a : Action)
deriving DecidableEq

/-- A run with what it reads; one that cannot read returns at once. -/
def startRun (db : Database) (toDelete : Text) (fast : Bool) (batchSize : Option Int)
    (fault : Option ReadFault) : Run :=
  match readGCDatabase db (gcDbBatchSize batchSize) fault with
  | some batch => { toDelete, fastOption := fast, batch }
  | none => { toDelete, fastOption := fast, batch := [], stage := .finished 1 }

def step (s : State) : Event → Option State
  | .insertPaths paths ok => some (if ok then { s with db := s.db.insertPaths paths } else s)
  | .start toDelete fast batchSize fault =>
    some { s with runs := s.runs ++ [startRun s.db toDelete fast batchSize fault] }
  | .run k a => do
    let run ← s.runs[k]?
    let (db, run') ← advance s.db run a
    some ⟨db, s.runs.set k run'⟩

def system : System State Event where
  init s := s.runs = []
  step s e s' := step s e = some s'

/-- The side conditions of what a run does. -/
def CarefulAction (db : Database) (run : Run) : Action → Prop
  | .traverse branch => ∀ p ∈ run.batch.filterMap (·.path), Found branch p
  | .exportManifest ok => ok = true ∨ run.batch = []
  | .mark f =>
    if run.batch = [] then f.openDb = true ∨ f.exec = true ∨ ∀ r ∈ db.rows, r.deleted = true
    else f.commit = false ∨ f.beginTransaction = true ∨ f.Fails run.batch.length
  | _ => True

def Careful (s : State) : Event → Prop
  | .insertPaths _ _ => True
  | .start toDelete fast batchSize fault => (startRun s.db toDelete fast batchSize fault).Legible
  | .run k a => ∀ run ∈ s.runs[k]?, CarefulAction s.db run a

instance (db : Database) (run : Run) : ∀ a, Decidable (CarefulAction db run a)
  | .traverse _ => inferInstanceAs (Decidable (∀ p ∈ _, Found _ p))
  | .exportManifest _ => inferInstanceAs (Decidable (_ ∨ _))
  | .mark _ => inferInstanceAs (Decidable (ite _ _ _))
  | .fail _ | .finalizeSession _ => .isTrue trivial

instance (s : State) : ∀ e, Decidable (Careful s e)
  | .insertPaths _ _ => .isTrue trivial
  | .start _ _ _ _ => inferInstanceAs (Decidable (Run.Legible _))
  | .run _ _ => inferInstanceAs (Decidable (∀ run ∈ _, CarefulAction _ run _))

/-- A row is marked only by a run that has read it and whose revision removes its path. -/
def MarksOnlyRemoved (s : State) (e : Event) (s' : State) : Prop :=
  ∀ r ∈ s.db.rows, r.deleted = false → (∃ r' ∈ s'.db.rows, r'.id = r.id ∧ r'.deleted = true) →
    ∃ k f, e = .run k (.mark f) ∧ ∃ run ∈ s.runs[k]?, r ∈ run.batch ∧ run.published = true ∧
      run.Exact ∧ ∃ p, r.path = some p ∧ ∃ x ∈ run.removed, Names p x.relativePath

/-- Every row of the batch is marked, or the failure is reported. -/
def Accounted (db : Database) (run : Run) : Prop :=
  run.report = some false ∨ ∀ r ∈ run.batch, ∃ r' ∈ db.rows, r'.id = r.id ∧ r'.deleted = true

/-! ## What the steps preserve -/

/-- Every row is still there, and none that was deleted is pending again. -/
def Evolves (db db' : Database) : Prop :=
  ∀ r ∈ db.rows, ∃ r' ∈ db'.rows, r'.id = r.id ∧ r'.path = r.path ∧
    (r.deleted = true → r'.deleted = true)

theorem Evolves.refl : Evolves db db := fun r hr => ⟨r, hr, rfl, rfl, id⟩

theorem Evolves.insertPaths (paths : List Text) : Evolves db (db.insertPaths paths) := by
  intro r hr
  obtain ⟨new, hrows, -⟩ := db.insertPaths_rows paths
  exact ⟨r, by simp [hrows, hr], rfl, rfl, id⟩

theorem Evolves.markGCPathsDeleted (ids : List Int) (f : MarkFaults) :
    Evolves db (markGCPathsDeleted db ids f).1 := by
  intro r hr
  obtain ⟨sel, hrows, -⟩ := markGCPathsDeleted_rows db ids f
  exact ⟨r.mark sel, by simpa [hrows] using ⟨r, hr, rfl⟩, by simp, by simp, by simp +contextual⟩

structure Sound (db : Database) (run : Run) : Prop where
  known : ∀ r ∈ run.batch, r.deleted = false ∧ r.path.isSome = true ∧
    ∃ r' ∈ db.rows, r'.id = r.id ∧ r'.path = r.path
  legible : run.Legible
  exact_removed : run.stage = .traversed ∨ run.published = true → run.Exact
  unpublished : run.stage = .read ∨ run.stage = .traversed → run.published = false
  published : run.stage = .finalized ∨ run.stage = .exported → run.published = true
  accounted : ∀ status, run.stage = .finished status → run.published = true → Accounted db run

variable {db db' : Database} {run run' : Run}

section

variable (h : Sound db run)
include h

theorem Sound.evolves (he : Evolves db db') : Sound db' run := by
  refine ⟨fun r hr => ?_, h.legible, h.exact_removed, h.unpublished, h.published, ?_⟩
  · obtain ⟨hdel, hsome, r', hr', hid, hpath⟩ := h.known r hr
    obtain ⟨r'', hr'', hid', hpath', -⟩ := he r' hr'
    exact ⟨hdel, hsome, r'', hr'', hid'.trans hid, hpath'.trans hpath⟩
  intro status hs hp
  refine (h.accounted status hs hp).imp id fun hall r hr => ?_
  obtain ⟨r', hr', hid, hdel⟩ := hall r hr
  obtain ⟨r'', hr'', hid', -, hdel'⟩ := he r' hr'
  exact ⟨r'', hr'', hid'.trans hid, hdel' hdel⟩

omit h in
theorem startRun_sound {toDelete : Text} {fast : Bool} {batchSize : Option Int}
    {fault : Option ReadFault} (h : (startRun db toDelete fast batchSize fault).Legible) :
    Sound db (startRun db toDelete fast batchSize fault) := by
  unfold startRun at h ⊢
  cases hread : readGCDatabase db (gcDbBatchSize batchSize) fault with
  | none =>
    simp only [hread] at h
    exact ⟨by simp, h, by simp, by simp, by simp, by simp⟩
  | some batch =>
    simp only [hread] at h
    refine ⟨fun r hr => ?_, h, by simp, by simp, by simp, by simp⟩
    unfold readGCDatabase at hread
    split at hread
    · cases hread
    simp only [Option.some.injEq] at hread
    subst hread
    obtain ⟨hr, hsome⟩ := mem_filter.1 hr
    have hr : r ∈ db.rows.filter (!·.deleted) := by
      split at hr
      · exact mem_of_mem_take hr
      · exact hr
    obtain ⟨hr, hdel⟩ := mem_filter.1 hr
    exact ⟨by simpa using hdel, hsome, r, hr, rfl, rfl⟩

theorem Sound.gcPaths_eq : run.gcPaths = run.batch.filterMap (·.path) := by
  have hall : ∀ r ∈ run.batch, r.path = some ((r.path.getD []).takeWhile (· != '\x00')) := by
    intro r hr
    obtain ⟨-, hsome, -⟩ := h.known r hr
    obtain ⟨p, hp⟩ := Option.isSome_iff_exists.1 hsome
    have hnul := h.legible.2 r hr
    rw [hp, Option.getD_some] at hnul ⊢
    have hall : ∀ c ∈ p, (c != '\x00') = true := fun c hc => bne_iff_ne.2 fun h0 => hnul (h0 ▸ hc)
    rw [takeWhile_eq_self_iff.2 hall]
  rw [Run.gcPaths, filterMap_congr hall, filterMap_eq_map']

theorem Sound.exact_traverse {branch : Branch} {removed : List Removal}
    (hfound : ∀ p ∈ run.batch.filterMap (·.path), Found branch p)
    (hr : traverse branch (appendPaths run.toDelete run.gcPaths) run.fastDelete = some removed) :
    { run with removed, stage := .traversed }.Exact := by
  rw [traverse, toEliminate_appendPaths h.legible.1, h.gcPaths_eq] at hr
  obtain ⟨-, ⟨⟩⟩ := Option.ite_none_right_eq_some.1 hr
  refine ⟨fun x hx => ?_, fun p hp => ⟨removal run.fastDelete p, ?_, names_removal _ p⟩⟩
  · obtain ⟨p, hp, rfl⟩ := mem_map.1 (mem_of_mem_filter hx)
    exact ⟨p, hp, names_removal _ p⟩
  · exact mem_filter.2 ⟨mem_map_of_mem (mem_append_right _ hp), remove_of_found (hfound p hp) _⟩

theorem accounted_mark {f : MarkFaults}
    (hf : run.batch ≠ [] →
      f.commit = false ∨ f.beginTransaction = true ∨ f.Fails run.batch.length) :
    (markGCPathsDeleted db (run.batch.map (·.id)) f).2 = false ∨ ∀ r ∈ run.batch,
      ∃ r' ∈ (markGCPathsDeleted db (run.batch.map (·.id)) f).1.rows,
        r'.id = r.id ∧ r'.deleted = true := by
  obtain ⟨sel, hrows, -, hall⟩ := markGCPathsDeleted_rows db (run.batch.map (·.id)) f
  cases hm : (markGCPathsDeleted db (run.batch.map (·.id)) f).2 with
  | false => exact .inl rfl
  | true =>
    right
    intro r hr
    obtain ⟨-, -, r', hr', hid, -⟩ := h.known r hr
    have hne : run.batch ≠ [] := ne_nil_of_mem hr
    have hc : f.beginTransaction = true ∨ f.commit = false := by
      rcases hf hne with hc | hb | hfails
      · exact .inr hc
      · exact .inl hb
      · rw [markGCPathsDeleted_fails db (by simpa using hne) (by simpa using hfails)] at hm
        cases hm
    have hsel : sel r' = true :=
      hall hm (by simpa using hne) hc r' (by rw [hid]; exact mem_map_of_mem hr)
    exact ⟨r'.mark sel, by rw [hrows]; exact mem_map_of_mem hr', by simp [hid], by simp [hsel]⟩

theorem Sound.advance {a : Action} (hc : CarefulAction db run a)
    (ha : advance db run a = some (db', run')) : Evolves db db' ∧ Sound db' run' := by
  cases a with
  | fail status =>
    obtain ⟨hs, ha⟩ := Option.ite_none_right_eq_some.1 ha
    cases ha
    have hp := h.unpublished hs
    exact ⟨.refl _, h.known, h.legible, by simp [hp], by simp, by simp, by simp [hp]⟩
  | traverse branch =>
    obtain ⟨hs, ha⟩ := Option.ite_none_right_eq_some.1 ha
    have hp := h.unpublished (.inl hs)
    split at ha
    case h_1 removed hr =>
      cases ha
      exact ⟨.refl _, h.known, h.legible, fun _ => h.exact_traverse hc hr, fun _ => hp, by simp,
        by simp⟩
    case h_2 =>
      cases ha
      exact ⟨.refl _, h.known, h.legible, by simp [hp], by simp, by simp, by simp [hp]⟩
  | finalizeSession ok =>
    obtain ⟨hs, ha⟩ := Option.ite_none_right_eq_some.1 ha
    cases ha
    have hp := h.unpublished (.inr hs)
    refine ⟨.refl _, ?_⟩
    cases ok with
    | false => exact ⟨h.known, h.legible, by simp [hp], by simp, by simp, by simp [hp]⟩
    | true =>
      exact ⟨h.known, h.legible, fun _ => h.exact_removed (.inl hs), by simp, by simp, by simp⟩
  | exportManifest ok =>
    obtain ⟨hs, ha⟩ := Option.ite_none_right_eq_some.1 ha
    cases ha
    have hp := h.published (.inl hs)
    refine ⟨.refl _, h.known, h.legible, fun _ => h.exact_removed (.inr hp), ?_, fun _ => hp, ?_⟩
    · cases ok <;> simp
    · rcases hc with rfl | hc
      · simp
      · exact fun _ _ _ => .inr (by simp [hc])
  | mark f =>
    simp only [GcDatabase.advance, Option.ite_none_right_eq_some, Option.some.injEq,
      Prod.mk.injEq] at ha
    obtain ⟨hs, rfl, rfl⟩ := ha
    have hp := h.published (.inr hs)
    have he := Evolves.markGCPathsDeleted db (run.batch.map (·.id)) f
    refine ⟨he, (h.evolves he).known, h.legible, fun _ => h.exact_removed (.inr hp), by simp,
      by simp, fun _ _ _ => ?_⟩
    refine (accounted_mark h fun hne => ?_).imp (fun hf => by rw [hf]) id
    simpa only [CarefulAction, if_neg hne] using hc

end

theorem step_sound {s s' : State} {e : Event} (h : ∀ run ∈ s.runs, Sound s.db run)
    (hc : Careful s e) (hs : step s e = some s') : ∀ run ∈ s'.runs, Sound s'.db run := by
  cases e with
  | insertPaths paths ok =>
    cases hs
    cases ok with
    | false => exact h
    | true => exact fun run hr => (h run hr).evolves (.insertPaths s.db paths)
  | start toDelete fast batchSize fault =>
    cases hs
    intro run hr
    rcases mem_append.1 hr with hr | hr
    · exact h run hr
    · rw [mem_singleton.1 hr]
      exact startRun_sound hc
  | run k a =>
    obtain ⟨run, hrun, hs⟩ := Option.bind_eq_some_iff.1 hs
    obtain ⟨⟨db, run'⟩, ha, hs⟩ := Option.bind_eq_some_iff.1 hs
    cases hs
    obtain ⟨he, hr'⟩ := (h run (mem_of_getElem? hrun)).advance (hc run hrun) ha
    intro r hr
    rcases mem_or_eq_of_mem_set hr with hr | rfl
    · exact (h r hr).evolves he
    · exact hr'

theorem step_mark {s s' : State} {e : Event} (hs : step s e = some s')
    {r r' : Row} (hr : r ∈ s.db.rows) (hdel : r.deleted = false) (hr' : r' ∈ s'.db.rows)
    (hid : r'.id = r.id) (hdel' : r'.deleted = true) :
    ∃ k f run, e = .run k (.mark f) ∧ s.runs[k]? = some run ∧ run.stage = .exported ∧
      s'.db = (markGCPathsDeleted s.db (run.batch.map (·.id)) f).1 := by
  have hgone : r ∉ s'.db.rows := by
    intro hmem
    rw [Database.ext_id hr' hmem hid, hdel] at hdel'
    cases hdel'
  cases e with
  | insertPaths paths ok =>
    cases hs
    cases ok with
    | false => exact absurd hr hgone
    | true =>
      obtain ⟨new, hrows, -⟩ := s.db.insertPaths_rows paths
      exact absurd (by simp [hrows, hr]) hgone
  | start toDelete fast batchSize fault =>
    cases hs
    exact absurd hr hgone
  | run k a =>
    obtain ⟨run, hrun, hs⟩ := Option.bind_eq_some_iff.1 hs
    obtain ⟨⟨db, run'⟩, ha, hs⟩ := Option.bind_eq_some_iff.1 hs
    cases hs
    cases a with
    | mark f =>
      simp only [advance, Option.ite_none_right_eq_some, Option.some.injEq, Prod.mk.injEq] at ha
      exact ⟨k, f, run, rfl, hrun, ha.1, ha.2.1.symm⟩
    | fail status | finalizeSession ok | exportManifest ok =>
      obtain ⟨-, ha⟩ := Option.ite_none_right_eq_some.1 ha
      cases ha
      exact absurd hr hgone
    | traverse branch =>
      obtain ⟨-, ha⟩ := Option.ite_none_right_eq_some.1 ha
      split at ha <;> cases ha <;> exact absurd hr hgone

theorem Sound.mem_batch {f : MarkFaults} {r r' : Row} (h : Sound db run)
    (hc : CarefulAction db run (.mark f)) (hr : r ∈ db.rows) (hdel : r.deleted = false)
    (hr' : r' ∈ (markGCPathsDeleted db (run.batch.map (·.id)) f).1.rows) (hid : r'.id = r.id)
    (hdel' : r'.deleted = true) : r ∈ run.batch := by
  obtain ⟨sel, hrows, hsel, -⟩ := markGCPathsDeleted_rows db (run.batch.map (·.id)) f
  rw [hrows] at hr'
  obtain ⟨r₀, hr₀, rfl⟩ := mem_map.1 hr'
  obtain rfl := Database.ext_id hr₀ hr (by simpa using hid)
  rw [Row.mark_deleted, hdel, Bool.false_or] at hdel'
  rcases hsel r₀ hdel' with hmem | ⟨hnil, hopen, hexec⟩
  · obtain ⟨b, hb, hbid⟩ := mem_map.1 hmem
    obtain ⟨hbdel, -, r₁, hr₁, hid₁, hpath⟩ := h.known b hb
    obtain rfl := Database.ext_id hr₁ hr₀ (hid₁.trans hbid)
    have : b = r₁ := by
      cases b
      cases r₁
      simp_all
    exact this ▸ hb
  · rw [CarefulAction, if_pos (by simpa using hnil), hopen, hexec] at hc
    have hall : ∀ r ∈ db.rows, r.deleted = true := by simpa using hc
    rw [hall r₀ hr₀] at hdel
    cases hdel

def emptyDatabase : Database := ⟨[], 0, by simp, by simp⟩

/-- A run up to its marks: the scanner finds `before`, which are directories, in front of it and
`meanwhile` after the run has read. -/
def publication (before meanwhile : List Text) : List Event :=
  [.insertPaths before true, .start [] false none none, .insertPaths meanwhile true,
    .run 0 (.traverse (before.map (·, .dir))), .run 0 (.finalizeSession true),
    .run 0 (.exportManifest true)]

end Cvmfs.Ingestion.GcDatabase
