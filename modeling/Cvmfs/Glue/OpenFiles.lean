import Cvmfs.Glue.Entries

/-! # Open files and their stat structs

The entries of the tracker and the vector of stat structs correspond exactly as long as no
inode has 2^31 open files: every open inode has its own position, no position is unused, and
the counter of an entry is the number of its open files. So the checks in `Close` and
`GetInfoIfOpen` never fail. -/

namespace Cvmfs.Glue

open Function PageCacheTracker
open Lib (Table System)

variable {Hash : Type}

/-! ## Runs -/

/-- The tracker, and for each inode how often a file was opened, directly excepted, and how
often an open file was closed. -/
structure OpenFiles (Hash : Type) where
  tracker : PageCacheTracker Hash := {}
  opens : Inode → Nat := fun _ => 0
  closes : Inode → Nat := fun _ => 0

inductive Call (Hash : Type) where
  | openFile (inode : Inode) (hash : Hash) (info : Stat)
  | closeFile (inode : Inode)
  | isStale (dirent : Dirent Hash)
  | getInfoIfOpen (inode : Inode)
  | evict (inode : Inode)

variable [DecidableEq Hash]

namespace OpenFiles

def call (null : Hash) (suppressAsserts : Bool) (s : OpenFiles Hash) :
    Call Hash → Except Fault (OpenFiles Hash)
  | .openFile inode hash info => do
    let (d, tracker) ← s.tracker.openFile inode hash info
    .ok { s with
      tracker
      opens := if d.directIo then s.opens
        else update s.opens inode (s.opens inode + 1) }
  | .closeFile inode => do
    let tracker ← s.tracker.closeFile suppressAsserts inode
    .ok { s with
      tracker
      closes := if s.closes inode < s.opens inode
        then update s.closes inode (s.closes inode + 1) else s.closes }
  | .isStale dirent => do
    let (_, tracker) ← s.tracker.isStale null dirent
    .ok { s with tracker }
  | .getInfoIfOpen inode => do
    let _ ← s.tracker.getInfoIfOpen inode
    .ok s
  | .evict inode => .ok { s with tracker := s.tracker.evict inode }

/-- Only inodes without open files are evicted. -/
def ForgetsClosed (s : OpenFiles Hash) : Call Hash → Prop
  | .evict inode => s.opens inode = s.closes inode
  | _ => True

/-- Moreover an inode has less than 2^31 open files. -/
def Proper (s : OpenFiles Hash) : Call Hash → Prop
  | .openFile inode _ _ => s.opens inode - s.closes inode < 2 ^ 31 - 1
  | c => s.ForgetsClosed c

end OpenFiles

def openFiles (null : Hash) (suppressAsserts : Bool) : System (OpenFiles Hash) (Call Hash) where
  init s := s = {}
  step s c s' := s.call null suppressAsserts c = .ok s'

namespace OpenFiles

omit [DecidableEq Hash] in
/-- The tracker is exact and its counters are right. -/
structure Counted (s : OpenFiles Hash) : Prop where
  exact : s.tracker.Exact
  opens : ∀ i, s.opens i = s.closes i + (s.tracker.record i).opened

omit [DecidableEq Hash] in
theorem Counted.init : Counted ({} : OpenFiles Hash) := by
  refine ⟨⟨rfl, Lib.Indexes.empty, fun i e h => ?_, fun i => ?_⟩, fun i => rfl⟩
  · cases h
  · exact Nat.two_pow_pos 31

variable {null : Hash} {suppressAsserts : Bool} {s s' : OpenFiles Hash} {c : Call Hash}

variable {inode : Inode} {t : PageCacheTracker Hash}

section

variable (h : s.Counted)
include h

theorem Counted.openFile {hash info d} (hp : s.Proper (.openFile inode hash info))
    (ho : s.tracker.openFile inode hash info = .ok (d, t)) :
    d = ((s.tracker.record inode).openFile hash).1 ∧ t.record = update s.tracker.record inode
        ((s.tracker.record inode).openFile hash).2 ∧
      Counted { s with
        tracker := t
        opens := if d.directIo then s.opens
          else update s.opens inode (s.opens inode + 1) } := by
  have hlt : s.opens inode - s.closes inode < 2 ^ 31 - 1 := hp
  have hinode := h.opens inode
  obtain ⟨hexact, hd, hrecord⟩ := h.exact.openFile ho (by omega)
  refine ⟨hd, hrecord, hexact, fun i => ?_⟩
  have hcount := Record.opened_openFile hash (s.tracker.record inode)
  have hi := h.opens i
  rw [← hd] at hcount
  dsimp only
  rw [hrecord, update_apply]
  by_cases heq : i = inode
  · subst heq
    rw [if_pos rfl, hcount]
    cases d.directIo with
    | true => exact hi
    | false =>
      rw [if_neg (by simp), if_neg (by simp), update_self]
      omega
  · rw [if_neg heq]
    cases d.directIo with
    | true => exact hi
    | false =>
      rw [if_neg (by simp), update_of_ne heq]
      exact hi

omit [DecidableEq Hash] in
theorem Counted.closeFile (hc : s.tracker.closeFile suppressAsserts inode = .ok t) :
    (s.closes inode < s.opens inode → t.record = update s.tracker.record inode
        (s.tracker.record inode).closeFile) ∧
      (¬ s.closes inode < s.opens inode → t = s.tracker) ∧
      Counted { s with
        tracker := t
        closes := if s.closes inode < s.opens inode
          then update s.closes inode (s.closes inode + 1) else s.closes } := by
  have hinode := h.opens inode
  by_cases hlt : s.closes inode < s.opens inode
  · have hpos : 0 < (s.tracker.record inode).opened := by omega
    obtain ⟨t', ht', hexact, hrecord⟩ := h.exact.closeFile suppressAsserts hpos
    obtain rfl : t' = t := by
      rw [hc] at ht'
      cases ht'
      rfl
    refine ⟨fun _ => hrecord, fun hn => absurd hlt hn, hexact, fun i => ?_⟩
    have hi := h.opens i
    have hcount := Record.opened_closeFile (s.tracker.record inode)
    dsimp only
    rw [if_pos hlt, hrecord, update_apply, update_apply]
    split
    next heq =>
      subst heq
      omega
    · exact hi
  have hsame : t = s.tracker := by
    have hzero : (s.tracker.record inode).opened = 0 := by omega
    rcases h.exact.closeFile_of_not_open suppressAsserts hzero with heq | heq | heq <;>
      rw [hc] at heq <;> cases heq
    rfl
  subst hsame
  refine ⟨fun hn => absurd hn hlt, fun _ => rfl, ?_⟩
  rw [if_neg hlt]
  exact h

theorem Counted.isStale {dirent stale}
    (hc : s.tracker.isStale null dirent = .ok (stale, t)) :
    (t = s.tracker ∨ ∃ n g, s.tracker.record dirent.inode = some (n, g) ∧ n ≠ 0 ∧
      t.record = update s.tracker.record dirent.inode (some (n, null))) ∧
      Counted { s with tracker := t } := by
  obtain ⟨stale', t', ht', hexact, hrecord⟩ := h.exact.isStale null dirent
  rw [hc] at ht'
  cases ht'
  refine ⟨hrecord, hexact, fun i => ?_⟩
  have hi := h.opens i
  rcases hrecord with rfl | ⟨n, g, hng, -, hrecord⟩
  · exact hi
  rw [hrecord, update_apply]
  split
  next heq =>
    subst heq
    rw [hng] at hi
    exact hi
  · exact hi

omit [DecidableEq Hash] in
theorem Counted.evict (hp : s.opens inode = s.closes inode) :
    (s.tracker.evict inode).record = update s.tracker.record inode none ∧
      Counted { s with tracker := s.tracker.evict inode } := by
  have hinode := h.opens inode
  have hzero : (s.tracker.record inode).opened = 0 := by omega
  obtain ⟨hexact, hrecord⟩ := h.exact.evict hzero
  refine ⟨hrecord, hexact, fun i => ?_⟩
  rw [hrecord, update_apply]
  split
  next heq =>
    subst heq
    exact hp
  · exact h.opens i

omit h in
theorem bind_eq_ok {α β : Type} {x : Except Fault α} {f : α → Except Fault β} {b}
    (h : (x >>= f) = .ok b) : ∃ a, x = .ok a ∧ f a = .ok b := by
  cases x with
  | error => cases h
  | ok a => exact ⟨a, rfl, h⟩

theorem Counted.call (hp : s.Proper c)
    (hc : s.call null suppressAsserts c = .ok s') : s'.Counted := by
  cases c with
  | openFile inode hash info =>
    obtain ⟨r, ho, hc⟩ := bind_eq_ok hc
    cases hc
    exact (h.openFile hp ho).2.2
  | closeFile inode =>
    obtain ⟨t, ho, hc⟩ := bind_eq_ok hc
    cases hc
    exact (h.closeFile ho).2.2
  | isStale dirent =>
    obtain ⟨r, ho, hc⟩ := bind_eq_ok hc
    cases hc
    exact (h.isStale ho).2
  | getInfoIfOpen inode =>
    obtain ⟨r, -, hc⟩ := bind_eq_ok hc
    cases hc
    exact h
  | evict inode =>
    cases hc
    exact (h.evict hp).2

omit h in
theorem counted_of_reach (h : (openFiles null suppressAsserts).Reach Proper s) : s.Counted := by
  refine h.invariant ?_ fun s c s' hs hp hc => hs.call hp hc
  rintro s rfl
  exact Counted.init

/-- The entries of the tracker and the vector of stat structs correspond, the counters are
right, and no check fails. -/
structure Corresponds (suppressAsserts : Bool) (null : Hash) (s : OpenFiles Hash) : Prop where
  indexed : ∀ i e, s.tracker.map.find? i = some e → (0 ≤ e.idxStat ↔ e.nopen ≠ 0)
  stat : ∀ i e, s.tracker.map.find? i = some e → e.nopen ≠ 0 →
    ∃ info, s.tracker.statStore[e.idxStat.toNat]? = some info ∧ info.ino = i
  distinct : ∀ i j e f, s.tracker.map.find? i = some e → s.tracker.map.find? j = some f →
    e.nopen ≠ 0 → f.nopen ≠ 0 → e.idxStat = f.idxStat → i = j
  dense : ∀ n : Nat, n < s.tracker.statStore.length ↔
    ∃ i e, s.tracker.map.find? i = some e ∧ e.nopen ≠ 0 ∧ e.idxStat = n
  counted : ∀ i e, s.tracker.map.find? i = some e → (e.nopen.natAbs : Int) = s.opens i - s.closes i
  absent : ∀ i, s.tracker.map.find? i = none → s.opens i = s.closes i
  closes : ∀ i f, s.tracker.closeFile suppressAsserts i = .error f →
    (f = .notFound ∨ f = .notOpen) ∧ s.opens i = s.closes i
  info : ∀ i, ∃ r, s.tracker.getInfoIfOpen i = .ok r
  stale : ∀ d, ∃ r, s.tracker.isStale null d = .ok r

omit [DecidableEq Hash] in
theorem Counted.closeFile_error {i f} (hf : s.tracker.closeFile suppressAsserts i = .error f) :
    (f = .notFound ∨ f = .notOpen) ∧ s.opens i = s.closes i := by
  have hi := h.opens i
  by_cases hpos : 0 < (s.tracker.record i).opened
  · obtain ⟨t, ht, -⟩ := h.exact.closeFile suppressAsserts hpos
    rw [hf] at ht
    cases ht
  refine ⟨?_, by omega⟩
  have hzero : (s.tracker.record i).opened = 0 := by omega
  rcases h.exact.closeFile_of_not_open suppressAsserts hzero with heq | heq | heq <;>
    rw [hf] at heq <;> cases heq
  · exact .inl rfl
  · exact .inr rfl

end

/-- In every run that evicts inodes without open files only, and in which no inode has 2^31
open files. -/
theorem corresponds_of_proper (h : (openFiles null suppressAsserts).Reach Proper s) :
    s.Corresponds suppressAsserts null := by
  have hs := counted_of_reach h
  have hexact := hs.exact
  have hstat : ∀ i e, s.tracker.map.find? i = some e → e.nopen ≠ 0 →
      ∃ info, s.tracker.statStore[e.idxStat.toNat]? = some info ∧ info.ino = i :=
    fun i e he hopen => hexact.index.get (hexact.position_eq_some he hopen)
  refine ⟨hexact.indexed, hstat, ?_, ?_, ?_, ?_, fun i f => hs.closeFile_error, ?_, ?_⟩
  · intro i j e f he hf heopen hfopen heq
    obtain ⟨info, hinfo, rfl⟩ := hstat i e he heopen
    obtain ⟨info', hinfo', rfl⟩ := hstat j f hf hfopen
    rw [heq, hinfo'] at hinfo
    cases hinfo
    rfl
  · intro n
    constructor
    · intro hn
      have hget := List.getElem?_eq_getElem hn
      obtain ⟨e, he, hopen, hidx⟩ := hexact.find?_of_position (hexact.index.position_getElem hget)
      exact ⟨_, e, he, hopen, hidx⟩
    · rintro ⟨i, e, he, hopen, hidx⟩
      have := hexact.index.lt (hexact.position_eq_some he hopen)
      rwa [hidx, Int.toNat_natCast] at this
  · intro i e he
    have := hs.opens i
    rw [record_of_find? he] at this
    simp only [Record.opened] at this
    omega
  · intro i hnone
    have := hs.opens i
    rwa [record_of_none hnone] at this
  · intro i
    obtain ⟨r, hr, -⟩ := hexact.getInfoIfOpen i
    exact ⟨r, hr⟩
  · intro d
    obtain ⟨stale, t, ht, -⟩ := hexact.isStale null d
    exact ⟨_, ht⟩

/-! ## Two inodes -/

theorem reach_call {G : OpenFiles Nat → Call Nat → Prop} {s s'} (h : (openFiles 0 false).Reach G s)
    (c : Call Nat) (hg : G s c) (hc : s.call 0 false c = .ok s') :
    (openFiles 0 false).Reach G s' := h.step hg hc

def statOf (inode : Inode) : Stat := { ino := inode, mtime := 0, size := 0 }

/-- The first of two open inodes is closed: the `stat` of the other one moves to its place. -/
theorem corresponds_of_proper_swap : ∃ s, (openFiles 0 false).Reach Proper s ∧
      s.tracker.map.find? 2 = some { nopen := 1, idxStat := 0, hash := 8 } ∧
      s.Corresponds false 0 := by
  have hfirst := reach_call (G := Proper) (.init rfl) (.openFile 1 7 (statOf 1))
    (by decide : 0 - 0 < 2 ^ 31 - 1) rfl
  have hsecond := reach_call hfirst (.openFile 2 8 (statOf 2)) (by decide : 0 - 0 < 2 ^ 31 - 1) rfl
  have hclose := reach_call hsecond (.closeFile 1) trivial rfl
  exact ⟨_, hclose, rfl, corresponds_of_proper hclose⟩

/-! ## Too many open files -/

/-- One inode with a number of open files and a value of its counter. -/
def Holds (s : OpenFiles Nat) (n : Nat) (nopen : Int) : Prop :=
  s.tracker.isActive = true ∧ s.tracker.map.find? 1 = some { nopen, idxStat := 0, hash := 7 } ∧
    s.opens 1 = n ∧ s.closes 1 = 0

theorem Holds.openFile {s n nopen} (h : Holds s n nopen)
    (hs : (openFiles 0 false).Reach ForgetsClosed s) (hne : nopen ≠ 0) :
    ∃ s', (openFiles 0 false).Reach ForgetsClosed s' ∧
      Holds s' (n + 1) (int32 (if nopen < 0 then nopen - 1 else nopen + 1)) := by
  obtain ⟨hactive, hfind, hopens, hcloses⟩ := h
  have hopen : s.tracker.openFile 1 7 (statOf 1) = .ok ({ keepCache := decide (0 < nopen) },
      s.tracker.put 1
        { nopen := int32 (if nopen < 0 then nopen - 1 else nopen + 1), idxStat := 0, hash := 7 }) := by
    rw [PageCacheTracker.openFile, if_neg (by simp [hactive]), if_neg (by decide), hfind]
    dsimp only
    rw [if_pos rfl]
    split
    next hneg => simp [Int.not_lt.2 (Int.le_of_lt hneg)]
    next hneg => simp [show 0 < nopen by omega]
  have hcall : s.call 0 false (.openFile 1 7 (statOf 1)) = .ok { s with
      tracker := s.tracker.put 1
        { nopen := int32 (if nopen < 0 then nopen - 1 else nopen + 1), idxStat := 0, hash := 7 }
      opens := update s.opens 1 (s.opens 1 + 1) } := by
    rw [OpenFiles.call, hopen]
    rfl
  refine ⟨_, reach_call hs (.openFile 1 7 (statOf 1)) trivial hcall, hactive, ?_, ?_, hcloses⟩
  · exact (Table.find?_put ..).trans (if_pos rfl)
  · rw [← hopens]
    exact update_self (1 : Inode) (s.opens 1 + 1) s.opens

theorem holds_of_lt {n} (hn : n + 1 < 2 ^ 31) :
    ∃ s, (openFiles 0 false).Reach ForgetsClosed s ∧ Holds s (n + 1) (n + 1) := by
  induction n with
  | zero =>
    exact ⟨_, reach_call (.init rfl) (.openFile 1 7 (statOf 1)) trivial rfl, rfl, rfl, rfl, rfl⟩
  | succ n ih =>
    obtain ⟨s, hs, hold⟩ := ih (by omega)
    obtain ⟨s', hs', hold'⟩ := hold.openFile hs (by omega)
    refine ⟨s', hs', ?_⟩
    rw [if_neg (by omega), int32_eq (by omega)] at hold'
    exact hold'

/-- The counter overflows: with 2^31 + 1 open files of an inode it is 2^31 - 1. -/
theorem nopen_overflows : ∃ s, (openFiles 0 false).Reach ForgetsClosed s ∧
      ∃ e, s.tracker.map.find? 1 = some e ∧ (e.nopen.natAbs : Int) ≠ s.opens 1 - s.closes 1 := by
  obtain ⟨s, hs, hold⟩ := holds_of_lt (show 2147483646 + 1 < 2 ^ 31 by decide)
  obtain ⟨s', hs', hold'⟩ := hold.openFile hs (by decide)
  obtain ⟨s'', hs'', hold''⟩ := hold'.openFile hs' (by decide)
  obtain ⟨-, hfind, hopens, hcloses⟩ := hold''
  refine ⟨s'', hs'', _, hfind, ?_⟩
  rw [hopens, hcloses]
  decide

end OpenFiles

end Cvmfs.Glue
