import Cvmfs.Glue.PageCacheTracker
import Cvmfs.Lib.DenseIndex

/-! # Entries and stat structs

An entry of the tracker as a record of its inode, and the positions of the stat structs as an
index of a dense store. Each method keeps the index exact and changes one record, as long as
the counters stay in the range of their type. -/

namespace Cvmfs.Glue

open Function Lib.Table StatStore Int

variable {Hash : Type}

theorem int32_eq {n} (h : n.natAbs < 2 ^ 31) : int32 n = n := by
  have hneg : -(2 ^ 31 : Int) < n := by omega
  have hpos : n < (2 ^ 31 : Int) := by omega
  unfold int32
  rw [bmod_eq_of_le] <;> omega

/-! ## What the methods do -/

namespace PageCacheTracker

inductive Opens (t : PageCacheTracker Hash) (inode : Inode) (hash : Hash) (info : Stat) :
    OpenDirectives → PageCacheTracker Hash → Prop
  | inactive : t.isActive = false → Opens t inode hash info {} t
  | fresh : t.isActive = true → info.ino = inode → t.map.find? inode = none →
      Opens t inode hash info { keepCache := true }
        { t with
          statStore := t.statStore ++ [info]
          map := t.map.put inode { nopen := 1, idxStat := t.statStore.length, hash } }
  | transit {entry} : t.isActive = true → t.map.find? inode = some entry → entry.hash = hash →
      entry.nopen < 0 →
      Opens t inode hash info {} (t.put inode { entry with nopen := int32 (entry.nopen - 1) })
  | reopen {entry} : t.isActive = true → info.ino = inode → t.map.find? inode = some entry →
      entry.hash = hash → entry.nopen = 0 →
      Opens t inode hash info { keepCache := true }
        { t with
          statStore := t.statStore ++ [info]
          map := t.map.put inode { entry with nopen := 1, idxStat := t.statStore.length } }
  | again {entry} : t.isActive = true → t.map.find? inode = some entry → entry.hash = hash →
      0 < entry.nopen →
      Opens t inode hash info { keepCache := true }
        (t.put inode { entry with nopen := int32 (entry.nopen + 1) })
  | direct {entry} : t.isActive = true → t.map.find? inode = some entry → entry.hash ≠ hash →
      entry.nopen ≠ 0 → Opens t inode hash info { keepCache := true, directIo := true } t
  | replace {entry} : t.isActive = true → info.ino = inode → t.map.find? inode = some entry →
      entry.hash ≠ hash → entry.nopen = 0 →
      Opens t inode hash info {}
        { t with
          statStore := t.statStore ++ [info]
          map := t.map.put inode { nopen := -1, idxStat := t.statStore.length, hash } }

variable [DecidableEq Hash] {t t' : PageCacheTracker Hash} {inode : Inode} {hash : Hash}
  {info : Stat} {d : OpenDirectives}

theorem opens_of_openFile (h : t.openFile inode hash info = .ok (d, t')) :
    t.Opens inode hash info d t' := by
  unfold openFile at h
  split at h
  next hactive =>
    cases h
    exact .inactive hactive
  next hactive =>
    have hactive := Bool.eq_true_of_not_eq_false hactive
    split at h
    · cases h
    next hino =>
      have hino := (not_not.1 hino).symm
      split at h
      next hnone =>
        unfold add at h
        split at h
        · cases h
          exact .fresh hactive hino hnone
        · cases h
      next entry hentry =>
        split at h
        next hhash =>
          split at h
          next hneg =>
            cases h
            exact .transit hactive hentry hhash hneg
          next hneg =>
            split at h
            next hzero =>
              unfold add at h
              split at h
              · cases h
                exact .reopen hactive hino hentry hhash hzero
              · cases h
            next hzero =>
              cases h
              exact .again hactive hentry hhash (by omega)
        next hhash =>
          split at h
          next hopen =>
            cases h
            exact .direct hactive hentry hhash hopen
          next hopen =>
            unfold add at h
            split at h
            · cases h
              exact .replace hactive hino hentry hhash (not_not.1 hopen)
            · cases h

end PageCacheTracker

/-! ## Records

What the tracker knows of an inode, apart from the position of the `stat`: the counter and the
hash. Each method changes the record of one inode. -/

abbrev Record (Hash : Type) := Option (Int × Hash)

namespace Record

def opened : Record Hash → Nat
  | none => 0
  | some (n, _) => n.natAbs

def openFile [DecidableEq Hash] (hash : Hash) : Record Hash → OpenDirectives × Record Hash
  | none => ({ keepCache := true }, some (1, hash))
  | some (n, g) =>
    if g = hash then
      if n < 0 then ({}, some (n - 1, g)) else ({ keepCache := true }, some (n + 1, g))
    else if n ≠ 0 then ({ keepCache := true, directIo := true }, some (n, g))
    else ({}, some (-1, hash))

section

variable [DecidableEq Hash] {hash g : Hash} {n : Int}

theorem openFile_transit (hn : n < 0) :
    openFile hash (some (n, hash)) = ({}, some (n - 1, hash)) := by
  rw [openFile, if_pos rfl, if_pos hn]

theorem openFile_same (hn : 0 ≤ n) :
    openFile hash (some (n, hash)) = ({ keepCache := true }, some (n + 1, hash)) := by
  rw [openFile, if_pos rfl, if_neg (not_lt.2 hn)]

theorem openFile_direct (hg : g ≠ hash) (hn : n ≠ 0) :
    openFile hash (some (n, g)) = ({ keepCache := true, directIo := true }, some (n, g)) := by
  rw [openFile, if_neg hg, if_pos hn]

theorem openFile_replace (hg : g ≠ hash) : openFile hash (some (0, g)) = ({}, some (-1, hash)) := by
  rw [openFile, if_neg hg, if_neg (not_not.2 rfl)]

end

/-- The first file to be closed ends the transition. -/
def closeFile : Record Hash → Record Hash
  | none => none
  | some (n, g) => some ((n.natAbs - 1 : Nat), g)

theorem opened_openFile [DecidableEq Hash] (hash : Hash) (r : Record Hash) :
    (r.openFile hash).2.opened =
      if (r.openFile hash).1.directIo then r.opened else r.opened + 1 := by
  rcases r with _ | ⟨n, g⟩
  · rfl
  simp only [openFile]
  split
  · split <;> simp only [opened, Bool.false_eq_true, if_false] <;> omega
  split
  · rfl
  next hzero =>
    rw [not_not] at hzero
    subst hzero
    rfl

theorem opened_closeFile (r : Record Hash) : r.closeFile.opened = r.opened - 1 := by
  rcases r with _ | ⟨n, g⟩
  · rfl
  · exact natAbs_natCast _

end Record

/-! ## Correspondence -/

def Entry.record (e : Entry Hash) : Record Hash := some (e.nopen, e.hash)

def Entry.position (e : Entry Hash) : Option Nat :=
  if 0 ≤ e.idxStat then some e.idxStat.toNat else none

namespace PageCacheTracker

def record (t : PageCacheTracker Hash) : Inode → Record Hash := t.map.view Entry.record none

def position (t : PageCacheTracker Hash) : Inode → Option Nat := t.map.view Entry.position none

/-- The entries and the vector of stat structs fit together. -/
structure Exact (t : PageCacheTracker Hash) : Prop where
  active : t.isActive = true
  index : Lib.Indexes Stat.ino t.statStore t.position
  indexed : ∀ i e, t.map.find? i = some e → (0 ≤ e.idxStat ↔ e.nopen ≠ 0)
  bounded : ∀ i, (t.record i).opened < 2 ^ 31

variable {t : PageCacheTracker Hash} {inode : Inode} {entry : Entry Hash}

theorem record_of_find? (h : t.map.find? inode = some entry) :
    t.record inode = some (entry.nopen, entry.hash) := view_of_find? h

theorem record_of_none (h : t.map.find? inode = none) : t.record inode = none :=
  view_of_none h

theorem position_of_find? (h : t.map.find? inode = some entry) :
    t.position inode = entry.position := view_of_find? h

namespace Exact

section

variable (h : t.Exact) (ht : t.map.find? inode = some entry)
include h ht

theorem position_eq_none (hzero : entry.nopen = 0) : t.position inode = none := by
  rw [position_of_find? ht, Entry.position, if_neg]
  exact fun hidx => (h.indexed _ _ ht).1 hidx hzero

theorem position_eq_some (hopen : entry.nopen ≠ 0) :
    t.position inode = some entry.idxStat.toNat := by
  rw [position_of_find? ht, Entry.position, if_pos ((h.indexed _ _ ht).2 hopen)]

theorem natAbs_lt : entry.nopen.natAbs < 2 ^ 31 := by
  have := h.bounded inode
  rwa [record_of_find? ht] at this

end

section

variable (h : t.Exact)
include h

theorem append {info} (hino : info.ino = inode) (hnone : t.position inode = none)
    {nopen} (hash : Hash) (hopen : nopen ≠ 0) (hlt : nopen.natAbs < 2 ^ 31) :
    PageCacheTracker.Exact { t with
      statStore := t.statStore ++ [info]
      map := t.map.put inode { nopen, idxStat := t.statStore.length, hash } } := by
  subst hino
  refine ⟨h.active, ?_, ?_, ?_⟩
  · have := h.index.append (v := info) hnone
    rw [position, view_put]
    exact this
  · intro i e he
    rcases of_put he with ⟨rfl, rfl⟩ | ⟨-, he⟩
    · exact iff_of_true (natCast_nonneg _) hopen
    · exact h.indexed i e he
  intro i
  rw [record, view_put, update_apply]
  split
  · exact hlt
  · exact h.bounded i

theorem put (ht : t.map.find? inode = some entry) {nopen} (hash : Hash)
    (hopen : nopen ≠ 0 ↔ entry.nopen ≠ 0) (hlt : nopen.natAbs < 2 ^ 31) :
    (t.put inode { entry with nopen, hash }).Exact := by
  refine ⟨h.active, ?_, ?_, ?_⟩
  · have hsame : (t.map.put inode { entry with nopen, hash }).view Entry.position none =
        t.position := view_put_same ht rfl
    rw [show (t.put inode { entry with nopen, hash }).position = t.position from hsame]
    exact h.index
  · intro i e he
    rcases of_put he with ⟨rfl, rfl⟩ | ⟨-, he⟩
    · exact (h.indexed _ _ ht).trans hopen.symm
    · exact h.indexed i e he
  · intro i
    rw [record, PageCacheTracker.put, view_put, update_apply]
    split
    · exact hlt
    · exact h.bounded i

variable [DecidableEq Hash] {t' : PageCacheTracker Hash} {hash : Hash} {info : Stat}
  {d : OpenDirectives}

theorem openFile (ho : t.openFile inode hash info = .ok (d, t'))
    (hlt : (t.record inode).opened < 2 ^ 31 - 1) :
    t'.Exact ∧ d = ((t.record inode).openFile hash).1 ∧
      t'.record = update t.record inode ((t.record inode).openFile hash).2 := by
  have hupdate : ∀ e : Entry Hash, (t.map.put inode e).view Entry.record none =
      update t.record inode e.record := fun e => view_put ..
  cases opens_of_openFile ho with
  | inactive hinactive => exact absurd (h.active.symm.trans hinactive) (by simp)
  | fresh _ hino hnone =>
    rw [record_of_none hnone]
    exact ⟨h.append hino (view_of_none hnone) hash (by decide) (by decide), rfl, hupdate _⟩
  | @transit entry _ ht hhash hneg =>
    rw [record_of_find? ht] at hlt ⊢
    simp only [Record.opened] at hlt
    have hint : int32 (entry.nopen - 1) = entry.nopen - 1 := int32_eq (by omega)
    subst hhash
    rw [Record.openFile_transit hneg, hint]
    exact ⟨h.put ht entry.hash ⟨fun _ => by omega, fun _ => by omega⟩ (by omega), rfl, hupdate _⟩
  | @reopen entry _ hino ht hhash hzero =>
    subst hhash
    rw [record_of_find? ht]
    rw [hzero, Record.openFile_same (le_refl _)]
    exact ⟨h.append hino (h.position_eq_none ht hzero) entry.hash (by decide) (by decide), rfl,
      hupdate _⟩
  | @again entry _ ht hhash hpos =>
    rw [record_of_find? ht] at hlt ⊢
    simp only [Record.opened] at hlt
    have hint : int32 (entry.nopen + 1) = entry.nopen + 1 := int32_eq (by omega)
    subst hhash
    rw [Record.openFile_same (le_of_lt hpos), hint]
    exact ⟨h.put ht entry.hash ⟨fun _ => by omega, fun _ => by omega⟩ (by omega), rfl, hupdate _⟩
  | @direct entry _ ht hhash hopen =>
    have hrecord := record_of_find? ht
    rw [hrecord]
    rw [Record.openFile_direct hhash hopen]
    refine ⟨h, rfl, ?_⟩
    rw [← hrecord, update_eq_self]
  | @replace entry _ hino ht hhash hzero =>
    rw [record_of_find? ht]
    rw [hzero, Record.openFile_replace hhash]
    exact ⟨h.append hino (h.position_eq_none ht hzero) hash (by decide) (by decide), rfl, hupdate _⟩

omit [DecidableEq Hash] in
theorem find?_of_position {n} (hn : t.position inode = some n) :
    ∃ entry, t.map.find? inode = some entry ∧ entry.nopen ≠ 0 ∧ entry.idxStat = n := by
  cases ht : t.map.find? inode with
  | none =>
    rw [position, view_of_none ht] at hn
    cases hn
  | some entry =>
    rw [position_of_find? ht, Entry.position] at hn
    split at hn
    next hidx =>
      cases hn
      exact ⟨entry, rfl, (h.indexed _ _ ht).1 hidx, (toNat_of_nonneg hidx).symm⟩
    · cases hn

omit [DecidableEq Hash] in
theorem erase (ht : t.map.find? inode = some entry) (hopen : entry.nopen ≠ 0) :
    ∃ back entryUpdate, t.map.find? back = some entryUpdate ∧
      ∃ statStore, erase t.statStore entry.idxStat = .ok (back, statStore) ∧
        PageCacheTracker.Exact { t with
          statStore
          map := (t.map.put back { entryUpdate with idxStat := entry.idxStat }).put
            inode { entry with nopen := 0, idxStat := -1 } } := by
  have hposition := h.position_eq_some ht hopen
  have hidx := (h.indexed _ _ ht).2 hopen
  have hlt := h.index.lt hposition
  obtain ⟨back, hback⟩ : ∃ back, t.statStore.getLast? = some back := by
    cases hback : t.statStore.getLast? with
    | none =>
      rw [List.getLast?_eq_none_iff.1 hback] at hlt
      cases hlt
    | some back => exact ⟨back, rfl⟩
  have hlast : t.statStore[t.statStore.length - 1]? = some back := by
    rw [← hback, List.getLast?_eq_getElem?]
  obtain ⟨entryUpdate, hu, hopenUpdate, -⟩ := h.find?_of_position (h.index.position_getElem hlast)
  refine ⟨back.ino, entryUpdate, hu, (t.statStore.set entry.idxStat.toNat back).dropLast, ?_,
    h.active, ?_, ?_, ?_⟩
  · rw [StatStore.erase, hback]
    exact if_pos ⟨hidx, by omega⟩
  · have hindex := h.index.swapRemove hposition hback
    have hnew : Entry.position { entryUpdate with idxStat := entry.idxStat } =
        some entry.idxStat.toNat := if_pos hidx
    rw [position, view_put, view_put, hnew]
    exact hindex
  · intro i e he
    rcases of_put he with ⟨rfl, rfl⟩ | ⟨-, he⟩
    · exact iff_of_false (show ¬ (0 : Int) ≤ -1 by decide) (not_not.2 rfl)
    · rcases of_put he with ⟨rfl, rfl⟩ | ⟨-, he⟩
      · exact iff_of_true hidx hopenUpdate
      · exact h.indexed i e he
  intro i
  rw [record, view_put, update_apply]
  split
  · exact Nat.two_pow_pos 31
  have hsame : (t.map.put back.ino { entryUpdate with idxStat := entry.idxStat }).view
      Entry.record none = t.record := view_put_same hu rfl
  rw [hsame]
  exact h.bounded i

omit [DecidableEq Hash] in
theorem closeFile (suppressAsserts : Bool) (hpos : 0 < (t.record inode).opened) :
    ∃ t', t.closeFile suppressAsserts inode = .ok t' ∧ t'.Exact ∧
      t'.record = update t.record inode (t.record inode).closeFile := by
  cases ht : t.map.find? inode with
  | none =>
    rw [record_of_none ht] at hpos
    cases hpos
  | some entry =>
    have hbound := h.natAbs_lt ht
    rw [record_of_find? ht] at hpos ⊢
    simp only [Record.opened] at hpos
    have hopen : entry.nopen ≠ 0 := by omega
    -- the counter of the entry after the call
    have hint : int32 ((if entry.nopen < 0 then int32 (-entry.nopen) else entry.nopen) - 1) =
        (entry.nopen.natAbs - 1 : Nat) := by
      split
      · rw [int32_eq (by omega : (-entry.nopen).natAbs < 2 ^ 31), int32_eq (by omega)]
        omega
      · rw [int32_eq (by omega)]
        omega
    rw [PageCacheTracker.closeFile, if_neg (by simp [h.active]), ht]
    dsimp only
    rw [if_neg hopen, hint]
    by_cases hone : entry.nopen.natAbs = 1
    · obtain ⟨back, entryUpdate, hu, statStore, hstore, hexact⟩ := h.erase ht hopen
      have hidx := (h.indexed _ _ ht).2 hopen
      rw [hone]
      refine ⟨_, ?_, hexact, ?_⟩
      · rw [if_pos (show ((1 - 1 : Nat) : Int) = 0 from rfl), if_neg (not_lt.2 hidx), hstore]
        dsimp only [bind, Except.bind]
        rw [hu]
        rfl
      · have hsame : (t.map.put back { entryUpdate with idxStat := entry.idxStat }).view
            Entry.record none = t.record := view_put_same hu rfl
        rw [record, view_put, hsame, Record.closeFile, hone]
        rfl
    · rw [if_neg (by omega)]
      refine ⟨_, rfl, h.put ht entry.hash ⟨fun _ => hopen, fun _ => by omega⟩ (by omega), ?_⟩
      exact view_put ..

omit [DecidableEq Hash] in
theorem closeFile_of_not_open (suppressAsserts : Bool) (hzero : (t.record inode).opened = 0) :
    t.closeFile suppressAsserts inode = .ok t ∨
      t.closeFile suppressAsserts inode = .error .notFound ∨
      t.closeFile suppressAsserts inode = .error .notOpen := by
  rw [PageCacheTracker.closeFile, if_neg (by simp [h.active])]
  cases ht : t.map.find? inode with
  | none =>
    cases suppressAsserts with
    | false => exact .inr (.inl rfl)
    | true => exact .inl rfl
  | some entry =>
    rw [record_of_find? ht] at hzero
    have hnopen : entry.nopen = 0 := natAbs_eq_zero.1 hzero
    dsimp only
    rw [if_pos hnopen]
    cases suppressAsserts with
    | false => exact .inr (.inr rfl)
    | true => exact .inl rfl

omit [DecidableEq Hash] in
theorem get (ht : t.map.find? inode = some entry) (hopen : entry.nopen ≠ 0) :
    ∃ info, get t.statStore entry.idxStat = .ok info ∧ info.ino = inode := by
  obtain ⟨info, hinfo, hino⟩ := h.index.get (h.position_eq_some ht hopen)
  refine ⟨info, ?_, hino⟩
  rw [StatStore.get, if_pos ((h.indexed _ _ ht).2 hopen), hinfo]

omit [DecidableEq Hash] in
theorem getInfoIfOpen (inode : Inode) : ∃ r, t.getInfoIfOpen inode = .ok r ∧
    ∀ hash info, r = some (hash, info) → info.ino = inode := by
  unfold PageCacheTracker.getInfoIfOpen
  cases ht : t.map.find? inode with
  | none => exact ⟨none, rfl, nofun⟩
  | some entry =>
    dsimp only
    split
    · exact ⟨none, rfl, nofun⟩
    next hopen =>
      obtain ⟨info, hget, hino⟩ := h.get ht hopen
      rw [if_neg (not_lt.2 ((h.indexed _ _ ht).2 hopen)), hget]
      refine ⟨some (entry.hash, info), rfl, fun hash info' heq => ?_⟩
      cases heq
      exact hino

theorem isStale (null : Hash) (dirent : Dirent Hash) :
    ∃ stale t', t.isStale null dirent = .ok (stale, t') ∧ t'.Exact ∧
      (t' = t ∨ ∃ n g, t.record dirent.inode = some (n, g) ∧ n ≠ 0 ∧
        t'.record = update t.record dirent.inode (some (n, null))) := by
  unfold PageCacheTracker.isStale
  cases ht : t.map.find? dirent.inode with
  | none => exact ⟨false, t, rfl, h, .inl rfl⟩
  | some entry =>
    dsimp only
    split
    · exact ⟨true, t, rfl, h, .inl rfl⟩
    split
    · exact ⟨false, t, rfl, h, .inl rfl⟩
    next hopen =>
    split
    · exact ⟨false, t, rfl, h, .inl rfl⟩
    obtain ⟨info, hget, -⟩ := h.get ht hopen
    obtain ⟨stale, hstale⟩ : ∃ stale, t.changed entry dirent = .ok stale := by
      unfold changed
      split
      · rw [hget]
        exact ⟨_, rfl⟩
      · exact ⟨_, rfl⟩
    rw [hstale]
    cases stale with
    | false => exact ⟨false, t, rfl, h, .inl rfl⟩
    | true =>
      refine ⟨true, _, rfl, h.put ht null Iff.rfl (h.natAbs_lt ht), .inr
        ⟨entry.nopen, entry.hash, record_of_find? ht, hopen, ?_⟩⟩
      exact view_put ..

omit [DecidableEq Hash] in
theorem evict (hzero : (t.record inode).opened = 0) :
    (t.evict inode).Exact ∧ (t.evict inode).record = update t.record inode none := by
  have hevict : t.evict inode = { t with map := t.map.erase inode } := by
    simp [PageCacheTracker.evict, h.active]
  have hrecord : (t.evict inode).record = update t.record inode none := by
    rw [hevict, record, view_erase]
    rfl
  have hposition : t.position inode = none := by
    cases ht : t.map.find? inode with
    | none => exact view_of_none ht
    | some entry =>
      rw [record_of_find? ht] at hzero
      exact h.position_eq_none ht (natAbs_eq_zero.1 hzero)
  refine ⟨⟨?_, ?_, ?_, ?_⟩, hrecord⟩
  · rw [hevict]
    exact h.active
  · have hsame : (t.evict inode).position = t.position := by
      rw [hevict, position, view_erase]
      exact update_eq_iff.2 ⟨hposition.symm, fun _ _ => rfl⟩
    rw [hsame, hevict]
    exact h.index
  · intro i e he
    rw [hevict] at he
    exact h.indexed i e (of_erase he).2
  · intro i
    rw [hrecord, update_apply]
    split
    · exact Nat.two_pow_pos 31
    · exact h.bounded i

end

end Exact

end PageCacheTracker

end Cvmfs.Glue
