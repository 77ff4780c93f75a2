import Cvmfs.Glue.Entries

/-! # The kernel's page cache

The tracker together with what the kernel may have cached. A file that is open, not directly,
may bring pages of its content into the page cache of its inode; an open that does not keep
the cache drops everything cached before it at some time before the file is closed; an
eviction drops the pages of the inode. -/

namespace Cvmfs.Glue

open Lib (Table System)
open Function Lib.Table Record Nat Int

variable {Hash : Type}

/-- Content that may be cached, and since when. -/
structure Page (Hash : Type) where
  inode : Inode
  hash : Hash
  cached : Nat

/-- An open file; `flushes` says that it was opened without `keep_cache`. -/
structure Handle (Hash : Type) where
  inode : Inode
  hash : Hash
  opened : Nat
  flushes : Bool
  flushed : Bool := false

structure PageCache (Hash : Type) where
  tracker : PageCacheTracker Hash := {}
  clock : Nat := 0
  handles : Table Nat (Handle Hash) := .empty
  pages : List (Page Hash) := []

inductive FileEvent (Hash : Type) where
  | openFile (fh : Nat) (inode : Inode) (hash : Hash) (info : Stat)
  /-- Pages of an open file are brought into the cache. -/
  | read (fh : Nat)
  /-- What was cached before the file was opened is dropped. -/
  | flush (fh : Nat)
  | closeFile (fh : Nat)
  | isStale (dirent : Dirent Hash)
  | evict (inode : Inode)

namespace PageCache

def openFiles (s : PageCache Hash) (inode : Inode) : Nat :=
  s.handles.sum fun _ h => if h.inode = inode then 1 else 0

def step [DecidableEq Hash] (null : Hash) (s : PageCache Hash) :
    FileEvent Hash → Option (PageCache Hash)
  | .openFile fh inode hash info =>
    match s.handles.find? fh, s.tracker.openFile inode hash info with
    | none, .ok (d, tracker) =>
      some { s with
        tracker
        clock := s.clock + 1
        handles := if d.directIo then s.handles
          else s.handles.put fh { inode, hash, opened := s.clock, flushes := !d.keepCache } }
    | _, _ => none
  | .read fh =>
    match s.handles.find? fh with
    | none => none
    | some h => some { s with
        clock := s.clock + 1
        pages := { inode := h.inode, hash := h.hash, cached := s.clock } :: s.pages }
  | .flush fh =>
    match s.handles.find? fh with
    | none => none
    | some h => some { s with
        handles := s.handles.put fh { h with flushed := true }
        pages := s.pages.filter fun p => decide (p.inode ≠ h.inode ∨ h.opened ≤ p.cached) }
  | .closeFile fh =>
    match s.handles.find? fh with
    | none => none
    | some h =>
      if h.flushes = true ∧ h.flushed = false then none
      else
        match s.tracker.closeFile false h.inode with
        | .ok tracker => some { s with tracker, handles := s.handles.erase fh }
        | .error _ => none
  | .isStale dirent =>
    match s.tracker.isStale null dirent with
    | .ok (_, tracker) => some { s with tracker }
    | .error _ => none
  | .evict inode =>
    some { s with
      tracker := s.tracker.evict inode
      pages := s.pages.filter fun p => decide (p.inode ≠ inode) }

/-- Only inodes without open files are evicted. -/
def ForgetsClosed (s : PageCache Hash) : FileEvent Hash → Prop
  | .evict inode => ∀ fh h, s.handles.find? fh = some h → h.inode ≠ inode
  | _ => True

/-- Moreover files have a content hash, and less than 2^31 files are open on an inode. -/
def Careful (null : Hash) (s : PageCache Hash) : FileEvent Hash → Prop
  | .openFile _ inode hash _ => hash ≠ null ∧ s.openFiles inode < 2 ^ 31 - 1
  | e => s.ForgetsClosed e

end PageCache

def pageCache [DecidableEq Hash] (null : Hash) : System (PageCache Hash) (FileEvent Hash) where
  init s := s = {}
  step s e s' := s.step null e = some s'

/-! ## Invariant -/

namespace PageCache

/-- What the tracker knows of each inode fits to what may be cached. Outside of a transition
the cache has the content of the record only; in a transition every open file drops what was
cached before it, and what is cached since then has the content of the record. -/
structure Fresh (null : Hash) (s : PageCache Hash) : Prop where
  exact : s.tracker.Exact
  count : ∀ i, (s.tracker.record i).opened = s.openFiles i
  absent : ∀ i, s.tracker.record i = none → ∀ p ∈ s.pages, p.inode ≠ i
  content : ∀ fh h n g, s.handles.find? fh = some h → s.tracker.record h.inode = some (n, g) →
    g ≠ null → h.hash = g
  settled : ∀ i n g, s.tracker.record i = some (n, g) → 0 ≤ n → g ≠ null →
    ∀ p ∈ s.pages, p.inode = i → p.hash = g
  transit : ∀ fh h n g, s.handles.find? fh = some h → s.tracker.record h.inode = some (n, g) →
    n < 0 → g ≠ null → h.flushes = true ∧
      ∀ p ∈ s.pages, p.inode = h.inode → h.opened ≤ p.cached → p.hash = g
  flushed : ∀ fh h, s.handles.find? fh = some h → h.flushed = true →
    ∀ p ∈ s.pages, p.inode = h.inode → h.opened ≤ p.cached
  opened : ∀ fh h, s.handles.find? fh = some h → h.opened < s.clock
  cached : ∀ p ∈ s.pages, p.cached < s.clock

variable {null : Hash} {s s' : PageCache Hash}

theorem one_le_openFiles {fh h} (hf : s.handles.find? fh = some h) : 1 ≤ s.openFiles h.inode := by
  have := sum_erase (fun (_ : Nat) (h' : Handle Hash) => if h'.inode = h.inode then 1 else 0) hf
  rw [if_pos rfl] at this
  unfold openFiles
  omega

namespace Fresh

variable {fh : Nat} {f : Handle Hash}

theorem record_of_handle (h : s.Fresh null) (hf : s.handles.find? fh = some f) :
    ∃ n g, s.tracker.record f.inode = some (n, g) ∧ n ≠ 0 := by
  have hone := one_le_openFiles hf
  have hcount := h.count f.inode
  cases hr : s.tracker.record f.inode with
  | none =>
    rw [hr] at hcount
    simp only [Record.opened] at hcount
    omega
  | some r =>
    obtain ⟨n, g⟩ := r
    rw [hr] at hcount
    simp only [Record.opened] at hcount
    exact ⟨n, g, rfl, by omega⟩

theorem not_handle (h : s.Fresh null) {i} (hzero : (s.tracker.record i).opened = 0)
    (hf : s.handles.find? fh = some f) : f.inode ≠ i := by
  rintro rfl
  obtain ⟨n, g, hr, hn⟩ := h.record_of_handle hf
  rw [hr] at hzero
  exact hn (natAbs_eq_zero.1 hzero)

theorem init : Fresh null ({} : PageCache Hash) := by
  have hexact : ({} : PageCacheTracker Hash).Exact :=
    ⟨rfl, Lib.Indexes.empty, nofun, fun _ => Nat.two_pow_pos 31⟩
  refine ⟨hexact, fun _ => rfl, fun _ _ _ h => ?_, fun _ _ _ _ h => ?_, fun _ _ _ h => ?_,
    fun _ _ _ _ h => ?_, fun _ _ h => ?_, fun _ _ h => ?_, fun _ h => ?_⟩ <;> cases h

theorem read (h : s.Fresh null) (hf : s.handles.find? fh = some f) :
    Fresh null { s with
      clock := s.clock + 1
      pages := { inode := f.inode, hash := f.hash, cached := s.clock } :: s.pages } := by
  refine ⟨h.exact, h.count, ?_, h.content, ?_, ?_, ?_, ?_, ?_⟩
  · intro i hnone p hp
    rcases List.mem_cons.1 hp with rfl | hp
    · exact h.not_handle (by rw [hnone]; rfl) hf
    · exact h.absent i hnone p hp
  · intro i n g hr hn hg p hp hpi
    rcases List.mem_cons.1 hp with rfl | hp
    · subst hpi
      exact h.content fh f n g hf hr hg
    · exact h.settled i n g hr hn hg p hp hpi
  · intro fh' f' n g hf' hr hn hg
    obtain ⟨hflush, hpages⟩ := h.transit fh' f' n g hf' hr hn hg
    refine ⟨hflush, fun p hp hpi hc => ?_⟩
    rcases List.mem_cons.1 hp with rfl | hp
    · rw [← show f.inode = f'.inode from hpi] at hr
      exact h.content fh f n g hf hr hg
    · exact hpages p hp hpi hc
  · intro fh' f' hf' hflushed p hp hpi
    rcases List.mem_cons.1 hp with rfl | hp
    · exact le_of_lt (h.opened fh' f' hf')
    · exact h.flushed fh' f' hf' hflushed p hp hpi
  · exact fun fh' f' hf' => lt_succ_of_lt (h.opened fh' f' hf')
  · intro p hp
    rcases List.mem_cons.1 hp with rfl | hp
    · exact lt_succ_self _
    · exact lt_succ_of_lt (h.cached p hp)

theorem flush (h : s.Fresh null) (hf : s.handles.find? fh = some f) :
    Fresh null { s with
      handles := s.handles.put fh { f with flushed := true }
      pages := s.pages.filter fun p => decide (p.inode ≠ f.inode ∨ f.opened ≤ p.cached) } := by
  have hsub : ∀ {p}, p ∈ s.pages.filter (fun p => decide (p.inode ≠ f.inode ∨ f.opened ≤ p.cached)) →
      p ∈ s.pages := fun hp => (List.mem_filter.1 hp).1
  -- a handle after the step is one before it, up to the mark
  have hold : ∀ {fh' f'}, (s.handles.put fh { f with flushed := true }).find? fh' = some f' →
      ∃ f'', s.handles.find? fh' = some f'' ∧ f'.inode = f''.inode ∧ f'.hash = f''.hash ∧
        f'.opened = f''.opened ∧ f'.flushes = f''.flushes ∧
        (f'.flushed = f''.flushed ∨ f'' = f) := by
    intro fh' f' hf'
    rcases of_put hf' with ⟨rfl, rfl⟩ | ⟨-, hf'⟩
    · exact ⟨f, hf, rfl, rfl, rfl, rfl, .inr rfl⟩
    · exact ⟨f', hf', rfl, rfl, rfl, rfl, .inl rfl⟩
  refine ⟨h.exact, fun i => ?_, fun i hn p hp => h.absent i hn p (hsub hp), ?_,
    fun i n g hr hn hg p hp => h.settled i n g hr hn hg p (hsub hp), ?_, ?_, ?_,
    fun p hp => h.cached p (hsub hp)⟩
  · have hsum := sum_put (fun (_ : Nat) (h' : Handle Hash) => if h'.inode = i then 1 else 0)
      (u := { f with flushed := true }) hf
    have := h.count i
    simp only [openFiles] at this ⊢
    dsimp only at hsum
    omega
  · intro fh' f' n g hf' hr hg
    obtain ⟨f'', hf'', hi, hh, -⟩ := hold hf'
    rw [hh]
    exact h.content fh' f'' n g hf'' (hi ▸ hr) hg
  · intro fh' f' n g hf' hr hn hg
    obtain ⟨f'', hf'', hi, -, ho, hfl, -⟩ := hold hf'
    rw [hi] at hr ⊢
    rw [ho, hfl]
    obtain ⟨hflush, hpages⟩ := h.transit fh' f'' n g hf'' hr hn hg
    exact ⟨hflush, fun p hp => hpages p (hsub hp)⟩
  · intro fh' f' hf' hflushed p hp hpi
    obtain ⟨f'', hf'', hi, -, ho, -, hcase⟩ := hold hf'
    rw [hi] at hpi
    rw [ho]
    rcases hcase with heq | rfl
    · exact h.flushed fh' f'' hf'' (heq ▸ hflushed) p (hsub hp) hpi
    · have := of_decide_eq_true (List.mem_filter.1 hp).2
      exact this.resolve_left fun hne => hne hpi
  · intro fh' f' hf'
    obtain ⟨f'', hf'', -, -, ho, -⟩ := hold hf'
    rw [ho]
    exact h.opened fh' f'' hf''

variable {t : PageCacheTracker Hash}

section

variable (h : s.Fresh null)
include h

/-- A file is opened and tracked: all files of the inode have its content, and so has the
cache, or all files of the inode drop what was cached before they were opened. -/
theorem track {m} (hnone : s.handles.find? fh = none) (hexact : t.Exact)
    (hrecord : t.record = update s.tracker.record f.inode (some (m, f.hash)))
    (hcount : m.natAbs = (s.tracker.record f.inode).opened + 1) (hopened : f.opened = s.clock)
    (hflushed : f.flushed = false)
    (hhandles : ∀ fh' f', s.handles.find? fh' = some f' → f'.inode = f.inode → f'.hash = f.hash)
    (hsettled : 0 ≤ m → ∀ p ∈ s.pages, p.inode = f.inode → p.hash = f.hash)
    (hflush : m < 0 → f.flushes = true)
    (htransit : m < 0 → ∀ fh' f', s.handles.find? fh' = some f' → f'.inode = f.inode →
      f'.flushes = true ∧ ∀ p ∈ s.pages, p.inode = f.inode → f'.opened ≤ p.cached →
        p.hash = f.hash) :
    Fresh null { s with
      tracker := t
      clock := s.clock + 1
      handles := s.handles.put fh f } := by
  have hself : t.record f.inode = some (m, f.hash) := by
    rw [hrecord, update_self]
  have hother : ∀ {i}, i ≠ f.inode → t.record i = s.tracker.record i := by
    intro i hi
    rw [hrecord, update_of_ne hi]
  refine ⟨hexact, fun i => ?_, fun i hn => ?_, ?_, ?_, ?_, ?_, ?_,
    fun p hp => lt_succ_of_lt (h.cached p hp)⟩
  · have hsum := sum_put_of_none
      (fun (_ : Nat) (h' : Handle Hash) => if h'.inode = i then 1 else 0) (v := f) hnone
    have hi := h.count i
    simp only [openFiles] at hi ⊢
    rw [hsum]
    by_cases heq : i = f.inode
    · subst heq
      rw [hself, if_pos rfl]
      simp only [Record.opened]
      omega
    · rw [hother heq, if_neg (Ne.symm heq), zero_add]
      exact hi
  · by_cases heq : i = f.inode
    · subst heq
      rw [hself] at hn
      cases hn
    · exact h.absent i (hother heq ▸ hn)
  · intro fh' f' n g hf' hr hg
    by_cases heq : f'.inode = f.inode
    · rw [heq, hself] at hr
      cases hr
      rcases of_put hf' with ⟨-, rfl⟩ | ⟨-, hf'⟩
      · rfl
      · exact hhandles fh' f' hf' heq
    · rw [hother heq] at hr
      rcases of_put hf' with ⟨-, rfl⟩ | ⟨-, hf'⟩
      · exact absurd rfl heq
      · exact h.content fh' f' n g hf' hr hg
  · intro i n g hr hn hg p hp hpi
    by_cases heq : i = f.inode
    · subst heq
      rw [hself] at hr
      cases hr
      exact hsettled hn p hp hpi
    · exact h.settled i n g (hother heq ▸ hr) hn hg p hp hpi
  · intro fh' f' n g hf' hr hn hg
    by_cases heq : f'.inode = f.inode
    · rw [heq, hself] at hr
      cases hr
      rcases of_put hf' with ⟨-, rfl⟩ | ⟨-, hf'⟩
      · refine ⟨hflush hn, fun p hp _ hle => ?_⟩
        have := h.cached p hp
        omega
      · rw [heq]
        exact htransit hn fh' f' hf' heq
    · rw [hother heq] at hr
      rcases of_put hf' with ⟨-, rfl⟩ | ⟨-, hf'⟩
      · exact absurd rfl heq
      · exact h.transit fh' f' n g hf' hr hn hg
  · intro fh' f' hf' hflushed' p hp hpi
    rcases of_put hf' with ⟨-, rfl⟩ | ⟨-, hf'⟩
    · rw [hflushed] at hflushed'
      cases hflushed'
    · exact h.flushed fh' f' hf' hflushed' p hp hpi
  · intro fh' f' hf'
    rcases of_put hf' with ⟨-, rfl⟩ | ⟨-, hf'⟩
    · rw [hopened]
      exact lt_succ_self _
    · exact lt_succ_of_lt (h.opened fh' f' hf')

theorem openFile [DecidableEq Hash] {inode hash info d} (hnone : s.handles.find? fh = none)
    (hhash : hash ≠ null) (hlt : s.openFiles inode < 2 ^ 31 - 1)
    (ho : s.tracker.openFile inode hash info = .ok (d, t)) :
    Fresh null { s with
      tracker := t
      clock := s.clock + 1
      handles := if d.directIo then s.handles
        else s.handles.put fh { inode, hash, opened := s.clock, flushes := !d.keepCache } } := by
  obtain ⟨hexact, hd, hrecord⟩ := h.exact.openFile ho (h.count inode ▸ hlt)
  cases hr : s.tracker.record inode with
  | none =>
    rw [hr] at hd hrecord
    subst hd
    refine h.track (f := { inode, hash, opened := s.clock, flushes := false }) hnone hexact hrecord
      (by rw [hr]; rfl) rfl rfl (fun fh' f' hf' hi => ?_) (fun _ p hp hpi => ?_) nofun nofun
    · exact absurd hi (h.not_handle (by rw [hr]; rfl) hf')
    · exact absurd hpi (h.absent inode hr p hp)
  | some r =>
    obtain ⟨n, g⟩ := r
    rw [hr] at hd hrecord
    by_cases hg : g = hash
    · subst hg
      by_cases hn : n < 0
      · rw [openFile_transit hn] at hd hrecord
        subst hd
        refine h.track (f := { inode, hash := g, opened := s.clock, flushes := true }) hnone hexact
          hrecord (by rw [hr]; simp only [Record.opened]; omega) rfl rfl
          (fun fh' f' hf' hi => h.content fh' f' n g hf' (hi ▸ hr) hhash)
          (fun hpos => by omega) (fun _ => rfl) (fun _ fh' f' hf' hi => ?_)
        have := h.transit fh' f' n g hf' (hi ▸ hr) hn hhash
        rwa [hi] at this
      · rw [openFile_same (not_lt.1 hn)] at hd hrecord
        subst hd
        exact h.track (f := { inode, hash := g, opened := s.clock, flushes := false }) hnone hexact
          hrecord (by rw [hr]; simp only [Record.opened]; omega) rfl rfl
          (fun fh' f' hf' hi => h.content fh' f' n g hf' (hi ▸ hr) hhash)
          (fun _ => h.settled inode n g hr (not_lt.1 hn) hhash) (fun hneg => by omega)
          (fun hneg => by omega)
    by_cases hn : n = 0
    · subst hn
      rw [openFile_replace hg] at hd hrecord
      subst hd
      exact h.track (f := { inode, hash, opened := s.clock, flushes := true }) hnone hexact
        hrecord (by rw [hr]; rfl) rfl rfl
        (fun fh' f' hf' hi => absurd hi (h.not_handle (by rw [hr]; rfl) hf'))
        (fun hpos => by omega) (fun _ => rfl)
        (fun _ fh' f' hf' hi => absurd hi (h.not_handle (by rw [hr]; rfl) hf'))
    -- the file is read directly, without the page cache
    rw [openFile_direct hg hn] at hd hrecord
    subst hd
    rw [← hr, update_eq_self] at hrecord
    refine ⟨hexact, ?_, ?_, ?_, ?_, ?_, h.flushed,
      fun fh' f' hf' => lt_succ_of_lt (h.opened fh' f' hf'),
      fun p hp => lt_succ_of_lt (h.cached p hp)⟩
    all_goals dsimp only; rw [hrecord]
    · exact h.count
    · exact h.absent
    · exact h.content
    · exact h.settled
    · exact h.transit

theorem closeFile (hf : s.handles.find? fh = some f)
    (hflush : ¬ (f.flushes = true ∧ f.flushed = false))
    (hc : s.tracker.closeFile false f.inode = .ok t) :
    Fresh null { s with tracker := t, handles := s.handles.erase fh } := by
  obtain ⟨n, g, hr, hn⟩ := h.record_of_handle hf
  have hpos : 0 < (s.tracker.record f.inode).opened := by
    rw [hr]
    exact natAbs_pos.2 hn
  obtain ⟨t', ht', hexact, hrecord⟩ := h.exact.closeFile false hpos
  obtain rfl : t' = t := by
    rw [hc] at ht'
    cases ht'
    rfl
  have hself : t'.record f.inode = some (((n.natAbs - 1 : Nat) : Int), g) := by
    rw [hrecord, update_self, hr]
    rfl
  have hother : ∀ {i}, i ≠ f.inode → t'.record i = s.tracker.record i := by
    intro i hi
    rw [hrecord, update_of_ne hi]
  have hold : ∀ {fh' f'}, (s.handles.erase fh).find? fh' = some f' → s.handles.find? fh' = some f' :=
    fun hf' => (of_erase hf').2
  -- the content of the records is the same
  have hcontent : ∀ {i n' g'}, t'.record i = some (n', g') →
      ∃ n'', s.tracker.record i = some (n'', g') := by
    intro i n' g' hi
    by_cases heq : i = f.inode
    · subst heq
      rw [hself] at hi
      cases hi
      exact ⟨n, hr⟩
    · exact ⟨n', hother heq ▸ hi⟩
  refine ⟨hexact, fun i => ?_, fun i hnone => ?_, ?_, ?_, ?_,
    fun fh' f' hf' => h.flushed fh' f' (hold hf'), fun fh' f' hf' => h.opened fh' f' (hold hf'),
    h.cached⟩
  · have hsum := sum_erase (fun (_ : Nat) (h' : Handle Hash) => if h'.inode = i then 1 else 0) hf
    have hi := h.count i
    have hcount := opened_closeFile (s.tracker.record f.inode)
    rw [hrecord, update_apply]
    simp only [openFiles] at hi ⊢
    split
    next heq =>
      subst heq
      rw [if_pos rfl] at hsum
      omega
    next hne =>
      rw [if_neg (Ne.symm hne)] at hsum
      omega
  · by_cases heq : i = f.inode
    · subst heq
      rw [hself] at hnone
      cases hnone
    · exact h.absent i (hother heq ▸ hnone)
  · intro fh' f' n' g' hf' hr' hg
    obtain ⟨n'', hn''⟩ := hcontent hr'
    exact h.content fh' f' n'' g' (hold hf') hn'' hg
  · intro i n' g' hr' hn' hg p hp hpi
    by_cases heq : i = f.inode
    · subst heq
      rw [hself] at hr'
      cases hr'
      by_cases hneg : n < 0
      · -- the file has dropped what was cached before it was opened
        obtain ⟨hflushes, hpages⟩ := h.transit fh f n g hf hr hneg hg
        have hflushed : f.flushed = true := by
          by_contra hno
          exact hflush ⟨hflushes, Bool.eq_false_of_not_eq_true hno⟩
        exact hpages p hp hpi (h.flushed fh f hf hflushed p hp hpi)
      · exact h.settled f.inode n g hr (not_lt.1 hneg) hg p hp hpi
    · exact h.settled i n' g' (hother heq ▸ hr') hn' hg p hp hpi
  · intro fh' f' n' g' hf' hr' hn' hg
    by_cases heq : f'.inode = f.inode
    · rw [heq, hself] at hr'
      cases hr'
      omega
    · exact h.transit fh' f' n' g' (hold hf') (hother heq ▸ hr') hn' hg

theorem isStale [DecidableEq Hash] {dirent stale}
    (hc : s.tracker.isStale null dirent = .ok (stale, t)) : Fresh null { s with tracker := t } := by
  obtain ⟨stale', t', ht', hexact, hcase⟩ := h.exact.isStale null dirent
  rw [hc] at ht'
  cases ht'
  rcases hcase with rfl | ⟨n, g, hr, hn, hrecord⟩
  · exact h
  -- the changed record has the null hash, about which nothing is said
  have hother : ∀ {i n' g'}, t.record i = some (n', g') → g' ≠ null →
      s.tracker.record i = some (n', g') := by
    intro i n' g' hi hg
    rw [hrecord, update_apply] at hi
    split at hi
    · cases hi
      exact absurd rfl hg
    · exact hi
  refine ⟨hexact, fun i => ?_, fun i hnone => ?_,
    fun fh f n' g' hf hr' hg => h.content fh f n' g' hf (hother hr' hg) hg,
    fun i n' g' hr' hn' hg => h.settled i n' g' (hother hr' hg) hn' hg,
    fun fh f n' g' hf hr' hn' hg => h.transit fh f n' g' hf (hother hr' hg) hn' hg,
    h.flushed, h.opened, h.cached⟩
  · have hi := h.count i
    rw [hrecord, update_apply]
    split
    next heq =>
      subst heq
      rw [hr] at hi
      exact hi
    · exact hi
  · rw [hrecord, update_apply] at hnone
    split at hnone
    · cases hnone
    · exact h.absent i hnone

theorem evict {inode} (hclosed : ∀ fh f, s.handles.find? fh = some f → f.inode ≠ inode) :
    Fresh null { s with
      tracker := s.tracker.evict inode
      pages := s.pages.filter fun p => decide (p.inode ≠ inode) } := by
  have hzero : (s.tracker.record inode).opened = 0 := by
    rw [h.count, openFiles]
    have hsum : (s.handles.sum fun _ f => if f.inode = inode then 1 else 0) =
        s.handles.sum fun _ _ => 0 :=
      sum_congr fun fh f hf => if_neg (hclosed fh f hf)
    rw [hsum]
    simp [sum]
  obtain ⟨hexact, hrecord⟩ := h.exact.evict hzero
  have hsub : ∀ {p}, p ∈ s.pages.filter (fun p => decide (p.inode ≠ inode)) → p ∈ s.pages :=
    fun hp => (List.mem_filter.1 hp).1
  have hother : ∀ {i r}, (s.tracker.evict inode).record i = some r →
      s.tracker.record i = some r := by
    intro i r hi
    rw [hrecord, update_apply] at hi
    split at hi
    · cases hi
    · exact hi
  refine ⟨hexact, fun i => ?_, fun i hnone p hp => ?_,
    fun fh f n g hf hr => h.content fh f n g hf (hother hr),
    fun i n g hr hn hg p hp => h.settled i n g (hother hr) hn hg p (hsub hp), ?_,
    fun fh f hf hflushed p hp => h.flushed fh f hf hflushed p (hsub hp), h.opened,
    fun p hp => h.cached p (hsub hp)⟩
  · have hi := h.count i
    rw [hrecord, update_apply]
    split
    next heq =>
      subst heq
      exact hzero.symm.trans hi
    · exact hi
  · rw [hrecord, update_apply] at hnone
    split at hnone
    next heq =>
      subst heq
      exact of_decide_eq_true (List.mem_filter.1 hp).2
    · exact h.absent i hnone p (hsub hp)
  · intro fh f n g hf hr hn hg
    obtain ⟨hflush, hpages⟩ := h.transit fh f n g hf (hother hr) hn hg
    exact ⟨hflush, fun p hp => hpages p (hsub hp)⟩

end

end Fresh

variable [DecidableEq Hash]

theorem Fresh.step {e} (h : s.Fresh null) (hc : s.Careful null e) (he : s.step null e = some s') :
    s'.Fresh null := by
  unfold PageCache.step at he
  cases e with
  | openFile fh inode hash info =>
    dsimp only at he
    split at he
    next d tracker hnone ho =>
      cases he
      exact h.openFile hnone hc.1 hc.2 ho
    · cases he
  | read fh =>
    dsimp only at he
    split at he
    · cases he
    next f hf =>
      cases he
      exact h.read hf
  | flush fh =>
    dsimp only at he
    split at he
    · cases he
    next f hf =>
      cases he
      exact h.flush hf
  | closeFile fh =>
    dsimp only at he
    split at he
    · cases he
    next f hf =>
      split at he
      · cases he
      next hflush =>
        split at he
        next t ht =>
          cases he
          exact h.closeFile hf hflush ht
        · cases he
  | isStale dirent =>
    dsimp only at he
    split at he
    next stale t ht =>
      cases he
      exact h.isStale ht
    · cases he
  | evict inode =>
    cases he
    exact h.evict hc

theorem fresh_of_reach (h : (pageCache null).Reach (Careful null) s) : s.Fresh null := by
  refine h.invariant ?_ fun s e s' hs hc he => hs.step hc he
  rintro s rfl
  exact Fresh.init

/-- An open that keeps the cache and uses it finds nothing but the content of its file: in every
run that opens files with a content hash and less than 2^31 times at once, and that evicts
inodes without open files. -/
theorem served_fresh {fh : Nat} {inode : Inode} {hash : Hash} {info : Stat} {d : OpenDirectives}
    {t : PageCacheTracker Hash} (h : (pageCache null).Reach (Careful null) s)
    (hc : s.Careful null (.openFile fh inode hash info))
    (ho : s.tracker.openFile inode hash info = .ok (d, t)) (hkeep : d.keepCache = true)
    (hdirect : d.directIo = false) : ∀ p ∈ s.pages, p.inode = inode → p.hash = hash := by
  have hs := fresh_of_reach h
  obtain ⟨-, hd, -⟩ := hs.exact.openFile ho (hs.count inode ▸ hc.2)
  intro p hp hpi
  cases hr : s.tracker.record inode with
  | none => exact absurd hpi (hs.absent inode hr p hp)
  | some r =>
    obtain ⟨n, g⟩ := r
    rw [hr] at hd
    by_cases hg : g = hash
    · subst hg
      by_cases hn : n < 0
      · rw [openFile_transit hn] at hd
        subst hd
        cases hkeep
      · exact hs.settled inode n g hr (not_lt.1 hn) hc.1 p hp hpi
    by_cases hn : n = 0
    · subst hn
      rw [openFile_replace hg] at hd
      subst hd
      cases hkeep
    · rw [openFile_direct hg hn] at hd
      subst hd
      cases hdirect

/-! ## Runs -/

def fileStat : Stat := { ino := ⟨1, Nat.one_pos⟩, mtime := 0, size := 0 }

def carefully (s : PageCache Nat) (e : FileEvent Nat) : Option (PageCache Nat) :=
  match e with
  | .openFile _ inode hash _ =>
    if hash ≠ 0 ∧ s.openFiles inode < 2 ^ 31 - 1 then s.step 0 e else none
  | .evict _ => none
  | _ => s.step 0 e

theorem careful_of_carefully {s s' e} (h : carefully s e = some s') :
    s.Careful 0 e ∧ s.step 0 e = some s' := by
  cases e with
  | openFile fh inode hash info =>
    unfold carefully at h
    dsimp only at h
    split at h
    next hc => exact ⟨hc, h⟩
    · cases h
  | evict => cases h
  | _ => exact ⟨trivial, h⟩

/-- A file is read, closed, opened with another content, flushed, read and closed. -/
def newContent : List (FileEvent Nat) :=
  [.openFile 0 fileStat.ino 7 fileStat, .read 0, .closeFile 0,
    .openFile 1 fileStat.ino 8 fileStat, .flush 1, .read 1, .closeFile 1]

theorem served_fresh_newContent :
    ∃ s d t, (pageCache 0).Reach (Careful 0) s ∧ s.tracker.openFile 1 8 fileStat = .ok (d, t) ∧
      d = { keepCache := true } ∧ s.pages ≠ [] ∧ ∀ p ∈ s.pages, p.inode = 1 → p.hash = 8 := by
  have hrun : newContent.foldlM carefully {} = some _ := rfl
  have hreach := System.Reach.followIf (S := pageCache 0)
    (fun _ _ _ h => careful_of_carefully h) (.init rfl) hrun
  refine ⟨_, { keepCache := true }, _, hreach, rfl, rfl, List.cons_ne_nil _ _, ?_⟩
  exact served_fresh hreach (show Careful 0 _ (.openFile 2 1 8 fileStat) from
    ⟨by decide, by decide⟩) (show _ = Except.ok ({ keepCache := true }, _) from rfl) rfl rfl

/-- The null hash marks a stale inode: a file with the null hash gets the old content. -/
theorem null_hash_served_stale :
    ∃ s d t, (pageCache 0).Reach ForgetsClosed s ∧ s.tracker.openFile 1 0 fileStat = .ok (d, t) ∧
      d.keepCache = true ∧ d.directIo = false ∧ ∃ p ∈ s.pages, p.inode = 1 ∧ p.hash ≠ 0 := by
  have hfirst : (pageCache 0).Reach ForgetsClosed _ :=
    .step (.init rfl) (show ForgetsClosed _ (.openFile 0 1 7 fileStat) from trivial) rfl
  have hread := hfirst.step (show ForgetsClosed _ (.read 0) from trivial) rfl
  have hstale := hread.step (show ForgetsClosed _ (.isStale
    { inode := 1, checksum := 8, isChunkedFile := false, mtime := 0 }) from trivial) rfl
  exact ⟨_, _, _, hstale, rfl, rfl, rfl, _, .head _, rfl, by decide⟩

end PageCache

end Cvmfs.Glue
