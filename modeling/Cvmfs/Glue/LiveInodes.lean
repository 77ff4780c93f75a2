import Cvmfs.Glue.InodeTracker

/-! # Live inodes

What the inode tracker is for: each live inode has a path and the number of times that it was
got and put since it entered the tracker. As long as an inode is used with one path, and a path
gets a new inode by `ReplaceInode` or after the old one is put, the three tables of the tracker
mirror the live inodes. -/

namespace Cvmfs.Glue

open Lib (System)
open Function Lib.Table Option PathMap

structure Life where
  path : Path
  gets : Nat
  puts : Nat
  deriving DecidableEq

namespace Life

def references (l : Life) : Nat := l.gets - l.puts

/-- An inode is got, and enters the tracker if it is not live. -/
def get (path : Path) (amount : Nat) : Option Life → Life
  | some l => { path, gets := l.gets + amount, puts := l.puts }
  | none => { path, gets := amount, puts := 0 }

/-- An inode is put; it leaves the tracker with the last reference. -/
def put (amount : Nat) : Option Life → Option Life
  | some l => if l.gets = l.puts + amount then none else some { l with puts := l.puts + amount }
  | none => none

end Life

abbrev Live := Inode → Option Life

def Live.replace (live : Live) (oldInode newInode : Inode) : Live :=
  match live oldInode with
  | some l => update (update live oldInode none) newInode (some ⟨l.path, 0, 0⟩)
  | none => live

/-! ## The path map -/

namespace PathMap

/-- One reference is held on each path in the map. -/
def held (m : PathMap) : Path → Nat := m.map.view (fun _ => 1) 0

/-- The path store has the paths of the map and their parents. -/
def Sound (m : PathMap) : Prop := PathStore.Sound m.pathStore m.held

variable {m : PathMap} {path : Path} {inode : Inode}

theorem contains_eq_false (h : m.map.find? path = none) : m.map.contains path = false := by
  rw [contains, h]
  rfl

theorem insert_of_find? (h : m.map.find? path = some inode) (inode' : Inode) :
    m.insert path inode' = m := if_pos (contains_eq_true.2 ⟨_, h⟩)

theorem insert_of_none (h : m.map.find? path = none) (inode : Inode) : m.insert path inode =
      { map := m.map.put path inode, pathStore := PathStore.insert path m.pathStore } :=
  if_neg (by rw [contains_eq_false h]; exact Bool.false_ne_true)

theorem erase_of_find? (h : m.map.find? path = some inode) :
    m.erase path = { map := m.map.erase path, pathStore := PathStore.erase path m.pathStore } :=
  if_pos (contains_eq_true.2 ⟨_, h⟩)

theorem Sound.insert (h : m.Sound) (hnone : m.map.find? path = none) (inode : Inode) :
    (m.insert path inode).Sound := by
  have hheld : m.held path = 0 := view_of_none hnone
  have hstore := PathStore.Sound.insert h path
  rw [hheld] at hstore
  rw [insert_of_none hnone, Sound, held, view_put]
  exact hstore

section

variable (h : m.Sound) (hfind : m.map.find? path = some inode)
include h hfind

theorem Sound.erase : (m.erase path).Sound := by
  have hheld : m.held path = 1 := view_of_find? hfind
  have hstore := PathStore.Sound.erase h (p := path) (by rw [hheld]; exact Nat.zero_lt_one)
  rw [hheld] at hstore
  rw [erase_of_find? hfind, Sound, held, view_erase]
  exact hstore

theorem Sound.replace (newInode : Inode) : (m.replace path newInode).Sound := by
  have hheld : (m.replace path newInode).held = m.held := view_put_same hfind rfl
  rw [Sound, hheld]
  exact h

theorem Sound.lookupPath : m.lookupPath path = .ok (some path) := by
  have hheld : m.held path = 1 := view_of_find? hfind
  obtain ⟨info, hinfo⟩ := PathStore.Sound.present h path (by omega)
  exact PathStore.Sound.lookup h hinfo

end

end PathMap

/-! ## The tables -/

namespace InodeTracker

/-- The tables of the tracker are those of the live inodes. -/
structure Mirrors (t : InodeTracker) (live : Live) : Prop where
  references : ∀ i, t.references.find? i = (live i).map Life.references
  inodeExMap : ∀ i, t.inodeExMap.find? i = (live i).map Life.path
  map : ∀ p i, t.pathMap.map.find? p = some i ↔ ∃ l, live i = some l ∧ l.path = p
  pathMap : t.pathMap.Sound
  puts : ∀ i l, live i = some l → l.puts ≤ l.gets
  small : ∀ i l, live i = some l → l.references < 2 ^ 32

namespace Mirrors

variable {t : InodeTracker} {live : Live} {inode : Inode} {path : Path}

theorem empty : Mirrors {} fun _ => none := by
  refine ⟨fun _ => rfl, fun _ => rfl, fun p i => ?_, PathStore.Sound.empty, nofun, nofun⟩
  constructor
  · exact nofun
  · rintro ⟨l, hl, -⟩
    cases hl

section

variable (h : t.Mirrors live)
include h

theorem findInode {l} (hl : live inode = some l) :
    t.findInode l.path = some inode := (h.map l.path inode).2 ⟨l, hl, rfl⟩

theorem findPath (inode : Inode) : t.findPath inode = .ok ((live inode).map Life.path) := by
  rw [InodeTracker.findPath, h.inodeExMap]
  cases hl : live inode with
  | none => rfl
  | some l =>
    have hlookup := h.pathMap.lookupPath (h.findInode hl)
    simp only [map_some, hlookup]

theorem findDentry (inode : Inode) : ∃ r, t.findDentry inode = .ok r := by
  rw [InodeTracker.findDentry, h.findPath]
  cases live inode with
  | none | some l => exact ⟨_, rfl⟩

theorem path_inj {i j l k} (hl : live i = some l) (hk : live j = some k) (heq : l.path = k.path) :
    i = j :=
  some.inj ((h.findInode hl).symm.trans (heq ▸ h.findInode hk))

theorem set {t' : InodeTracker} {o : Option Life} (hold : ∀ l, live inode = some l → l.path = path)
    (hother : ∀ j l, live j = some l → l.path = path → j = inode)
    (hnew : ∀ l, o = some l → l.path = path ∧ l.puts ≤ l.gets ∧ l.references < 2 ^ 32)
    (hrefs : ∀ i, t'.references.find? i =
      if i = inode then o.map Life.references else t.references.find? i)
    (hex : ∀ i, t'.inodeExMap.find? i = if i = inode then o.map Life.path else t.inodeExMap.find? i)
    (hmap : ∀ p, t'.pathMap.map.find? p =
      if p = path then o.map fun _ => inode else t.pathMap.map.find? p)
    (hsound : t'.pathMap.Sound) : t'.Mirrors (update live inode o) := by
  have hlives : ∀ i l, update live inode o i = some l →
      l.puts ≤ l.gets ∧ l.references < 2 ^ 32 := by
    intro i l hl
    rw [update_apply] at hl
    split at hl
    · exact (hnew l hl).2
    · exact ⟨h.puts i l hl, h.small i l hl⟩
  refine ⟨fun i => ?_, fun i => ?_, fun p i => ?_, hsound, fun i l hl => (hlives i l hl).1,
    fun i l hl => (hlives i l hl).2⟩
  · rw [hrefs, update_apply, h.references, apply_ite (Option.map _)]
  · rw [hex, update_apply, h.inodeExMap, apply_ite (Option.map _)]
  rw [hmap]
  by_cases hi : i = inode
  · subst hi
    rw [update_self]
    by_cases hp : p = path
    · subst hp
      rw [if_pos rfl]
      cases o with
      | none => simp
      | some l => simp [(hnew l rfl).1]
    -- the inode has, and had, no other path
    rw [if_neg hp, h.map]
    constructor
    · rintro ⟨l, hl, hlp⟩
      exact absurd (hlp.symm.trans (hold l hl)) hp
    · rintro ⟨l, hl, hlp⟩
      exact absurd (hlp.symm.trans (hnew l hl).1) hp
  rw [update_of_ne hi]
  by_cases hp : p = path
  · -- the path has, and had, no other inode
    subst hp
    rw [if_pos rfl]
    constructor
    · intro heq
      obtain ⟨l, -, rfl⟩ := map_eq_some_iff.1 heq
      exact absurd rfl hi
    · rintro ⟨l, hl, hlp⟩
      exact absurd (hother i l hl hlp) hi
  · rw [if_neg hp]
    exact h.map p i

theorem vfsGetBy (amount : Nat) (hpath : ∀ l, live inode = some l → l.path = path)
    (hinode : ∀ j l, live j = some l → l.path = path → j = inode)
    (hsmall : ((live inode).map Life.references).getD 0 + amount < 2 ^ 32) :
    (t.vfsGetBy inode amount path).Mirrors
      (update live inode (some (Life.get path amount (live inode)))) := by
  have hget : (Life.get path amount (live inode)).references =
      ((live inode).map Life.references).getD 0 + amount ∧
      (Life.get path amount (live inode)).puts ≤ (Life.get path amount (live inode)).gets := by
    cases hl : live inode with
    | none => simp [Life.get, Life.references]
    | some l =>
      have := h.puts inode l hl
      simp only [Life.get, Life.references, map_some, getD_some]
      omega
  have hnew : (Life.get path amount (live inode)).path = path := by
    cases live inode <;> rfl
  -- the path is in the map exactly if the inode is live
  have hmap : (t.pathMap.insert path inode).Sound ∧ ∀ p, (t.pathMap.insert path inode).map.find? p =
        if p = path then some inode else t.pathMap.map.find? p := by
    cases hl : live inode with
    | some l =>
      have hfind := h.findInode hl
      obtain rfl := hpath l hl
      rw [insert_of_find? hfind]
      refine ⟨h.pathMap, fun p => ?_⟩
      split
      next hp => exact hp ▸ hfind
      · rfl
    | none =>
      have hnone : t.pathMap.map.find? path = none := by
        cases hf : t.pathMap.map.find? path with
        | none => rfl
        | some j =>
          obtain ⟨l, hj, hlp⟩ := (h.map path j).1 hf
          obtain rfl := hinode j l hj hlp
          rw [hl] at hj
          cases hj
      refine ⟨h.pathMap.insert hnone inode, fun p => ?_⟩
      rw [insert_of_none hnone, find?_put]
  refine h.set hpath hinode ?_ (fun i => ?_) (fun i => ?_) hmap.2 hmap.1
  · intro l hl
    cases hl
    exact ⟨hnew, hget.2, hget.1 ▸ hsmall⟩
  · rw [InodeTracker.vfsGetBy, InodeReferences.get, find?_put, h.references,
      Nat.mod_eq_of_lt hsmall, map_some, hget.1]
  · rw [InodeTracker.vfsGetBy, find?_put, map_some, hnew]

theorem vfsPut (inode : Inode) (amount : Nat)
    (hle : ∀ l, live inode = some l → amount ≤ l.references) :
    ∃ removed t', t.vfsPut inode amount = .ok (removed, t') ∧
      t'.Mirrors (update live inode (Life.put amount (live inode))) := by
  rw [InodeTracker.vfsPut, InodeReferences.put, h.references]
  cases hl : live inode with
  | none =>
    refine ⟨false, t, rfl, ?_⟩
    rw [Life.put, ← hl, update_eq_self]
    exact h
  | some l =>
    have hamount := hle l hl
    have hputs := h.puts inode l hl
    have hfind := h.findInode hl
    have hself : ∀ k, live inode = some k → k.path = l.path := fun k hk =>
      congrArg Life.path (some.inj (hk.symm.trans hl))
    have hother : ∀ j k, live j = some k → k.path = l.path → j = inode := fun j k hk =>
      h.path_inj hk hl
    simp only [map_some]
    rw [if_neg (Nat.not_lt.2 hamount)]
    by_cases heq : l.references = amount
    · rw [if_pos heq, h.inodeExMap, hl]
      have hput : Life.put amount (some l) = none := by
        rw [Life.put, if_pos]
        simp only [Life.references] at heq
        omega
      rw [hput]
      refine ⟨true, _, rfl, h.set hself hother (by simp) (find?_erase _ _) (find?_erase _ _)
        (fun p => ?_) (h.pathMap.erase hfind)⟩
      rw [erase_of_find? hfind, find?_erase, map_none]
    rw [if_neg heq]
    have hput : Life.put amount (some l) = some { l with puts := l.puts + amount } := by
      rw [Life.put, if_neg]
      intro hgets
      simp only [Life.references] at heq
      omega
    rw [hput]
    have hsmall := h.small inode l hl
    simp only [Life.references] at hamount heq hsmall
    refine ⟨false, _, rfl, h.set hself hother ?_ (fun i => ?_) (fun i => ?_) (fun p => ?_)
      h.pathMap⟩
    · intro k hk
      cases hk
      simp only [Life.references, true_and]
      omega
    · rw [find?_put, map_some, Life.references, Life.references, Nat.sub_sub]
    · split
      next hi => rw [hi, h.inodeExMap, hl, map_some, map_some]
      · rfl
    · split
      next hp => exact hp ▸ hfind
      · rfl

theorem replaceInode (oldInode newInode : Inode)
    (hpath : ∀ l k, live oldInode = some l → live newInode = some k → k.path = l.path) :
    (t.replaceInode oldInode newInode).2.Mirrors (live.replace oldInode newInode) := by
  rw [InodeTracker.replaceInode, Live.replace, h.inodeExMap]
  cases hl : live oldInode with
  | none => exact h
  | some l =>
    have hfind := h.findInode hl
    -- the old inode leaves the tables, and the new one enters them
    have hgone : InodeTracker.Mirrors
        { t with
          references := t.references.erase oldInode
          inodeExMap := t.inodeExMap.erase oldInode
          pathMap := t.pathMap.erase l.path } (update live oldInode none) := by
      refine h.set (fun k hk => congrArg Life.path (some.inj (hk.symm.trans hl)))
        (fun j k hk => h.path_inj hk hl) nofun (find?_erase _ _) (find?_erase _ _) (fun p => ?_)
        (h.pathMap.erase hfind)
      rw [erase_of_find? hfind, find?_erase, map_none]
    have hleft : ∀ j k, update live oldInode none j = some k → j ≠ oldInode ∧ live j = some k := by
      intro j k hk
      rw [update_apply] at hk
      split at hk
      · cases hk
      · exact ⟨‹_›, hk⟩
    refine hgone.set (fun k hk => hpath l k hl (hleft _ k hk).2) ?_ ?_ (find?_put _ _ · _)
      (find?_put _ _ · _) (fun p => ?_) (h.pathMap.replace hfind newInode)
    · intro j k hk hkp
      exact absurd (h.path_inj (hleft j k hk).2 hl hkp) (hleft j k hk).1
    · intro k hk
      cases hk
      exact ⟨rfl, Nat.le_refl _, Nat.two_pow_pos 32⟩
    rw [erase_of_find? hfind]
    refine (find?_put ..).trans ?_
    split
    · rfl
    · rw [find?_erase, if_neg ‹_›]

end

end Mirrors

end InodeTracker

/-! ## Runs -/

structure LiveInodes where
  tracker : InodeTracker := {}
  live : Live := fun _ => none

inductive TrackerCall where
  | vfsGetBy (inode : Inode) (amount : Nat) (path : Path)
  | vfsPut (inode : Inode) (amount : Nat)
  | replaceInode (oldInode newInode : Inode)

namespace LiveInodes

def call (s : LiveInodes) : TrackerCall → Except TrackerFault LiveInodes
  | .vfsGetBy inode amount path =>
    .ok
      { tracker := s.tracker.vfsGetBy inode amount path
        live := update s.live inode (some (Life.get path amount (s.live inode))) }
  | .vfsPut inode amount => do
    let (_, tracker) ← s.tracker.vfsPut inode amount
    .ok { tracker, live := update s.live inode (Life.put amount (s.live inode)) }
  | .replaceInode oldInode newInode =>
    .ok
      { tracker := (s.tracker.replaceInode oldInode newInode).2
        live := s.live.replace oldInode newInode }

/-- A live inode is used with its path only, a path with a live inode gets another one by
`ReplaceInode` only, and a live inode is not put more often than it was got. -/
def OnePath (s : LiveInodes) : TrackerCall → Prop
  | .vfsGetBy inode _ path => (∀ l, s.live inode = some l → l.path = path) ∧
      ∀ j l, s.live j = some l → l.path = path → j = inode
  | .vfsPut inode amount => ∀ l, s.live inode = some l → amount ≤ l.gets - l.puts
  | .replaceInode oldInode newInode => ∀ l k, s.live oldInode = some l →
      s.live newInode = some k → k.path = l.path

/-- Moreover the references of an inode fit into the counter. -/
def Proper (s : LiveInodes) : TrackerCall → Prop
  | .vfsGetBy inode amount path => s.OnePath (.vfsGetBy inode amount path) ∧
      ((s.live inode).map Life.references).getD 0 + amount < 2 ^ 32
  | c => s.OnePath c

end LiveInodes

def liveInodes : System LiveInodes TrackerCall where
  init s := s = {}
  step s c s' := s.call c = .ok s'

namespace LiveInodes

variable {s s' : LiveInodes} {c : TrackerCall}

theorem mirrors_call (h : s.tracker.Mirrors s.live) (hp : s.Proper c) (hc : s.call c = .ok s') :
    s'.tracker.Mirrors s'.live := by
  cases c with
  | vfsGetBy inode amount path =>
    cases hc
    exact h.vfsGetBy amount hp.1.1 hp.1.2 hp.2
  | vfsPut inode amount =>
    obtain ⟨removed, t, ht, hmirrors⟩ := h.vfsPut inode amount hp
    rw [call, ht] at hc
    cases hc
    exact hmirrors
  | replaceInode oldInode newInode =>
    cases hc
    exact h.replaceInode oldInode newInode hp

theorem mirrors_of_reach (h : liveInodes.Reach Proper s) : s.tracker.Mirrors s.live := by
  refine h.invariant ?_ fun s c s' hs hp hc => mirrors_call hs hp hc
  rintro s rfl
  exact InodeTracker.Mirrors.empty

/-- The maps are inverse to each other on the live inodes. -/
structure Inverse (s : LiveInodes) : Prop where
  entries : ∀ i, s.tracker.references.contains i = s.tracker.inodeExMap.contains i
  findPath : ∀ i l, s.live i = some l → s.tracker.findPath i = .ok (some l.path)
  findInode : ∀ i l, s.live i = some l → s.tracker.findInode l.path = some i
  gone : ∀ i, s.live i = none → s.tracker.findPath i = .ok none
  found : ∀ p i, s.tracker.findInode p = some i → ∃ l, s.live i = some l ∧ l.path = p
  references : ∀ i n, s.tracker.references.find? i = some n ↔
    ∃ l, s.live i = some l ∧ (n : Int) = l.gets - l.puts
  puts : ∀ i n, s.Proper (.vfsPut i n) → ∃ s', s.call (.vfsPut i n) = .ok s'

/-- In every run in which an inode is used with one path, a path gets a new inode by `ReplaceInode`
or after the old one is put, puts do not exceed gets, and the references fit into 32 bits. -/
theorem inverse_of_proper (h : liveInodes.Reach Proper s) : s.Inverse := by
  have hs := mirrors_of_reach h
  refine ⟨fun i => ?_, fun i l hl => ?_, fun i l hl => hs.findInode hl, fun i hi => ?_,
    fun p i => (hs.map p i).1, fun i n => ?_, fun i n hp => ?_⟩
  · rw [contains, contains, hs.references, hs.inodeExMap, isSome_map, isSome_map]
  · rw [hs.findPath, hl]
    rfl
  · rw [hs.findPath, hi]
    rfl
  · rw [hs.references, map_eq_some_iff]
    refine exists_congr fun l => and_congr_right fun hl => ?_
    have := hs.puts i l hl
    simp only [Life.references]
    omega
  · obtain ⟨removed, t, ht, -⟩ := hs.vfsPut i n hp
    exact ⟨_, by rw [call, ht]; rfl⟩

theorem reach_call {G : LiveInodes → TrackerCall → Prop} {s s'} (h : liveInodes.Reach G s)
    (c : TrackerCall) (hg : G s c) (hc : s.call c = .ok s') : liveInodes.Reach G s' := h.step hg hc

/-- An inode is got twice and replaced. -/
theorem inverse_of_proper_replaced :
    ∃ s, liveInodes.Reach Proper s ∧ s.tracker.findInode ["a"] = some 8 ∧
      s.tracker.findPath 7 = .ok none ∧ s.Inverse := by
  have hget := reach_call (G := Proper) (.init rfl) (.vfsGetBy 7 2 ["a"])
    ⟨⟨nofun, nofun⟩, by decide⟩ rfl
  have hreplace := reach_call hget (.replaceInode 7 8) (fun _ _ _ h => nomatch h) rfl
  exact ⟨_, hreplace, rfl, rfl, inverse_of_proper hreplace⟩

/-- The counter of references overflows. -/
theorem references_overflow :
    ∃ s, liveInodes.Reach OnePath s ∧ ∃ l, s.live 7 = some l ∧ l.gets - l.puts = 2 ^ 32 ∧
      s.tracker.references.find? 7 = some 0 := by
  have hget := reach_call (G := OnePath) (.init rfl) (.vfsGetBy 7 (2 ^ 31) ["a"]) ⟨nofun, nofun⟩ rfl
  have hagain := reach_call hget (.vfsGetBy 7 (2 ^ 31) ["a"]) ⟨?_, ?_⟩ rfl
  · exact ⟨_, hagain, _, rfl, rfl, rfl⟩
  · intro l hl
    cases hl
    rfl
  · intro j l hl _
    by_contra hne
    cases (update_of_ne hne _ _).symm.trans hl

end LiveInodes

end Cvmfs.Glue
