import Cvmfs.Glue.LiveInodes

/-! # Lookups and forgets

The inode tracker under the callbacks of the kernel. A lookup of a path is answered with its live
inode, or with an inode of the catalog if there is none or if it was found stale; a forget takes
back some of the replies that were given for an inode. The tracker does not fail as long as an
inode that is answered anew is not referenced by the kernel. Hard links and replaced inodes that
are answered again break it. -/

namespace Cvmfs.Glue

open Function Option
open Lib (System)

/-- The tracker and the replies given for each inode and not forgotten. -/
structure Lookups where
  tracker : InodeTracker := {}
  replies : Inode → Nat := fun _ => 0

inductive LookupEvent where
  /-- `stale` says what `FixupOpenInode` found; `inode` is the one in the catalog. -/
  | lookup (path : Path) (inode : Inode) (stale : Bool)
  | forget (inode : Inode) (amount : Nat)

namespace Lookups

def answer (s : Lookups) (path : Path) (inode : Inode) (stale : Bool) : Inode :=
  match s.tracker.findInode path with
  | none => inode
  | some liveInode => if stale then inode else liveInode

/-- The tracker after `ReplaceInode`, if the live inode is stale; it is another one than the
inode of the catalog. -/
def fixup (s : Lookups) (path : Path) (inode : Inode) (stale : Bool) : Option InodeTracker :=
  match s.tracker.findInode path with
  | none => some s.tracker
  | some liveInode =>
    if stale = false then some s.tracker
    else if inode = liveInode then none
    else some (s.tracker.replaceInode liveInode inode).2

def step (s : Lookups) : LookupEvent → Option Lookups
  | .lookup path inode stale =>
    (s.fixup path inode stale).map fun tracker =>
      let answered := s.answer path inode stale
      { tracker := tracker.vfsGet answered path
        replies := update s.replies answered (s.replies answered + 1) }
  | .forget inode amount =>
    if amount ≤ s.replies inode then
      match s.tracker.vfsPut inode amount with
      | .ok (_, tracker) =>
        some { tracker, replies := update s.replies inode (s.replies inode - amount) }
      | .error _ => none
    else none

/-- The inode is answered for a path for the first time. -/
def Anew (s : Lookups) (path : Path) (stale : Bool) : Prop :=
  s.tracker.findInode path = none ∨ stale = true

/-- The kernel has no references on an inode that is answered anew, and less than 2^32 on any
other. -/
def Careful (s : Lookups) : LookupEvent → Prop
  | .lookup path inode stale => (s.Anew path stale → s.replies inode = 0) ∧
      s.replies (s.answer path inode stale) + 1 < 2 ^ 32
  | .forget _ _ => True

/-- No check of the tracker fails, whatever the kernel may ask. -/
structure Safe (s : Lookups) : Prop where
  vfsPut : ∀ i n, n ≤ s.replies i → ∃ r, s.tracker.vfsPut i n = .ok r
  findPath : ∀ i, ∃ r, s.tracker.findPath i = .ok r
  findDentry : ∀ i, ∃ r, s.tracker.findDentry i = .ok r

/-- The references of the live inodes are those of the kernel. -/
def Held (s : Lookups) (live : Live) : Prop :=
  ∀ i l, live i = some l → l.references = s.replies i ∧ 0 < s.replies i

end Lookups

def lookups : System Lookups LookupEvent where
  init s := s = {}
  step s e s' := s.step e = some s'

namespace Lookups

variable {s s' : Lookups} {live : Live}

variable {inode : Inode}

theorem Held.not_live (h : s.Held live) (hzero : s.replies inode = 0) : live inode = none := by
  cases hl : live inode with
  | none => rfl
  | some l =>
    have := (h inode l hl).2
    omega

theorem held_get {t : InodeTracker} {path : Path} (hm : t.Mirrors live)
    (hpath : ∀ l, live inode = some l → l.path = path)
    (hinode : ∀ j l, live j = some l → l.path = path → j = inode)
    (hself : ((live inode).map Life.references).getD 0 = s.replies inode)
    (hother : ∀ i l, i ≠ inode → live i = some l → l.references = s.replies i ∧ 0 < s.replies i)
    (hsmall : s.replies inode + 1 < 2 ^ 32) : ∃ live', (t.vfsGet inode path).Mirrors live' ∧ Held
      { tracker := t.vfsGet inode path
        replies := update s.replies inode (s.replies inode + 1) } live' := by
  have hget := hm.vfsGetBy 1 hpath hinode (hself ▸ hsmall)
  refine ⟨_, hget, fun i l hl => ?_⟩
  dsimp only
  rw [update_apply] at hl ⊢
  split at hl
  next hi =>
    rw [if_pos hi, ← hself]
    refine ⟨?_, Nat.succ_pos _⟩
    cases hl
    cases hlive : live inode with
    | none => rfl
    | some l =>
      have := hm.puts inode l hlive
      simp only [Life.get, Life.references, map_some, getD_some]
      omega
  next hi =>
    rw [if_neg hi]
    exact hother i l hi hl

theorem held_lookup (hm : s.tracker.Mirrors live) (h : s.Held live) {path : Path} {stale : Bool}
    (hc : s.Careful (.lookup path inode stale)) (hs : s.step (.lookup path inode stale) = some s') :
    ∃ live', s'.tracker.Mirrors live' ∧ s'.Held live' := by
  obtain ⟨t, ht, rfl⟩ := map_eq_some_iff.1 hs
  obtain ⟨hanew, hsmall⟩ := hc
  cases hf : s.tracker.findInode path with
  | none =>
    have hzero := hanew (.inl hf)
    have hnone := h.not_live hzero
    have hanswer : s.answer path inode stale = inode := by rw [answer, hf]
    rw [fixup, hf] at ht
    cases ht
    rw [hanswer] at hsmall ⊢
    refine held_get hm (by rw [hnone]; exact nofun) (fun j l hj hl => ?_)
      (by rw [hnone, hzero]; rfl) (fun i l _ => h i l) hsmall
    cases hf.symm.trans ((hm.map path j).2 ⟨l, hj, hl⟩)
  | some liveInode =>
    obtain ⟨l, hl, rfl⟩ := (hm.map path liveInode).1 hf
    rw [fixup, hf] at ht
    dsimp only at ht
    split at ht
    next hstale =>
      have hanswer : s.answer l.path inode stale = liveInode := by
        rw [answer, hf, hstale]
        rfl
      cases ht
      rw [hanswer] at hsmall ⊢
      refine held_get hm (fun k hk => ?_) (fun j k hj hk => hm.path_inj hj hl hk) ?_
        (fun i k _ => h i k) hsmall
      · rw [hl] at hk
        cases hk
        rfl
      · rw [hl]
        exact (h liveInode l hl).1
    next hstale =>
      obtain ⟨hne, ht⟩ := ite_none_left_eq_some.1 ht
      -- the references on the live inode are dropped with it
      have hstale := Bool.eq_true_of_not_eq_false hstale
      have hanswer : s.answer l.path inode stale = inode := by
        rw [answer, hf, hstale]
        rfl
      have hzero := hanew (.inr hstale)
      have hnone := h.not_live hzero
      cases ht
      rw [hanswer] at hsmall ⊢
      have hreplace := hm.replaceInode liveInode inode (by
        intro k k' _ hk'
        rw [hnone] at hk'
        cases hk')
      have hlive : live.replace liveInode inode =
          update (update live liveInode none) inode (some ⟨l.path, 0, 0⟩) := by
        rw [Live.replace, hl]
      rw [hlive] at hreplace
      have hself : update (update live liveInode none) inode
          (some ⟨l.path, 0, 0⟩) inode = some ⟨l.path, 0, 0⟩ := update_self ..
      refine held_get hreplace (fun k hk => ?_) (fun j k hj hk => ?_) ?_ (fun i k hi hk => ?_) hsmall
      · rw [hself] at hk
        cases hk
        rfl
      · exact hreplace.path_inj hj hself hk
      · rw [hself, hzero]
        rfl
      · rw [update_of_ne hi, update_apply] at hk
        obtain ⟨-, hk⟩ := ite_none_left_eq_some.1 hk
        exact h i k hk

theorem held_forget (hm : s.tracker.Mirrors live) (h : s.Held live) {amount}
    (hs : s.step (.forget inode amount) = some s') :
    ∃ live', s'.tracker.Mirrors live' ∧ s'.Held live' := by
  unfold step at hs
  dsimp only at hs
  split at hs
  swap
  · cases hs
  next hle =>
  obtain ⟨removed, t, ht, hput⟩ := hm.vfsPut inode amount
    fun l hl => (h inode l hl).1 ▸ hle
  rw [ht] at hs
  cases hs
  refine ⟨_, hput, fun i l hl => ?_⟩
  dsimp only
  rw [update_apply] at hl ⊢
  split at hl
  next hi =>
    rw [if_pos hi]
    cases hk : live inode with
    | none =>
      rw [hk] at hl
      cases hl
    | some k =>
      obtain ⟨hrefs, -⟩ := h inode k hk
      have hputs := hm.puts inode k hk
      rw [hk, Life.put] at hl
      split at hl
      · cases hl
      · cases hl
        simp only [Life.references] at hrefs ⊢
        omega
  next hi =>
    rw [if_neg hi]
    exact h i l hl

theorem held_of_reach (h : lookups.Reach Careful s) :
    ∃ live, s.tracker.Mirrors live ∧ s.Held live := by
  refine h.invariant (P := fun s => ∃ live, s.tracker.Mirrors live ∧ s.Held live) ?_
    fun s e s' hs hc he => ?_
  · rintro s rfl
    exact ⟨_, InodeTracker.Mirrors.empty, nofun⟩
  obtain ⟨live, hm, hheld⟩ := hs
  cases e with
  | lookup path inode stale => exact held_lookup hm hheld hc he
  | forget inode amount => exact held_forget hm hheld he

/-- No check fails in a run in which inodes that are answered anew are not referenced. -/
theorem safe_of_careful (h : lookups.Reach Careful s) : s.Safe := by
  obtain ⟨live, hm, hheld⟩ := held_of_reach h
  refine ⟨fun i n hn => ?_, fun i => ⟨_, hm.findPath i⟩, hm.findDentry⟩
  obtain ⟨removed, t, ht, -⟩ := hm.vfsPut i n
    fun l hl => (hheld i l hl).1 ▸ hn
  exact ⟨_, ht⟩

/-- Lookups with unreferenced inodes of the catalog. -/
def carefully (s : Lookups) (e : LookupEvent) : Option Lookups :=
  match e with
  | .lookup path inode stale =>
    if s.replies inode = 0 ∧ s.replies (s.answer path inode stale) + 1 < 2 ^ 32 then s.step e
    else none
  | .forget _ _ => s.step e

theorem careful_of_carefully {e} (h : carefully s e = some s') :
    s.Careful e ∧ s.step e = some s' := by
  cases e with
  | lookup path inode stale =>
    unfold carefully at h
    dsimp only at h
    split at h
    next hc => exact ⟨⟨fun _ => hc.1, hc.2⟩, h⟩
    · cases h
  | forget => exact ⟨trivial, h⟩

/-- An inode is replaced and its references are forgotten. -/
theorem safe_of_careful_replaced :
    ∃ s, lookups.Reach Careful s ∧ s.tracker.findInode ["p"] = some 2 ∧ s.Safe := by
  have hrun : [.lookup ["p"] 1 false, .lookup ["p"] 2 true, .forget 1 1].foldlM carefully {} =
    some _ := rfl
  have hreach := System.Reach.followIf (S := lookups) (fun _ _ _ h => careful_of_carefully h)
    (.init rfl) hrun
  exact ⟨_, hreach, rfl, safe_of_careful hreach⟩

/-! ## Hard links -/

theorem reach_of_events (es : List LookupEvent) (h : es.foldlM step {} = some s) :
    lookups.Reach System.anyStep s :=
  System.Reach.follow (S := lookups) (fun _ _ _ h => h) (.init rfl) h

/-- Two paths with one inode: it is replaced for one of them and answered again for the other.
The tracker counts the last reply only, the kernel forgets all three. -/
theorem hard_link_mismatch : ∃ s, lookups.Reach System.anyStep s ∧ s.replies 1 = 3 ∧
      s.tracker.vfsPut 1 3 = .error .refcountMismatch :=
  ⟨_, reach_of_events [.lookup ["p"] 1 false, .lookup ["q"] 1 false, .lookup ["q"] 2 true,
    .lookup ["p"] 1 false] rfl, rfl, rfl⟩

/-- Two paths with one inode that is forgotten: the first path stays in the map. It is then
answered with a new inode and again with the old one, and erased with the new one. -/
theorem hard_link_missing_path :
    ∃ s, lookups.Reach System.anyStep s ∧ s.tracker.findPath 1 = .error .missingPath :=
  ⟨_, reach_of_events [.lookup ["p"] 1 false, .lookup ["q"] 1 false, .forget 1 2,
    .lookup ["p"] 2 true, .lookup ["p"] 1 false, .forget 2 1] rfl, rfl⟩

end Lookups

end Cvmfs.Glue
