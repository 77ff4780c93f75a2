import Cvmfs.Lib.Transition

/-! # The inode maps of the NFS export

Two tables keep the inodes that were given to NFS clients: paths by inode, and inodes by the hash
of the path. The next number lives in memory; it is read when a session starts and stored when it
ends, under a key of the second table. Lookups do not take the lock. All that an interleaving of
calls over any number of sessions relies on is one invariant: whatever the second table has is
smaller than the next number, and the first table had it before. -/

namespace Cvmfs.NfsMaps

open Lib Function Option Nat List

abbrev Path := List Char

def seqKey : Path := "?seq".toList

variable {K : Type} [DecidableEq K] (md5 : Path → K) (rootInode : Nat)

structure Databases (K : Type) where
  inode2path : Nat → Option Path
  path2inode : K → Option Nat

def Databases.findInode (db : Databases K) (key : K) : Nat := (db.path2inode key).getD 0

def Databases.putInode2Path (db : Databases K) (inode : Nat) (path : Path) : Databases K :=
  { db with inode2path := update db.inode2path inode (some path) }

def Databases.putPath2Inode (db : Databases K) (key : K) (inode : Nat) : Databases K :=
  { db with path2inode := update db.path2inode key (some inode) }

/-- The call of `GetInode` that holds the lock, with the number it issues. -/
structure Issue where
  path : Path
  inode : Nat
  /-- whether `PutInode2Path` has returned -/
  stored : Bool := false

structure Session where
  seq : Nat
  residueClass : Nat := 1
  remainder : Nat := 0
  /-- the calls of `GetInode` that have not found their path without the lock -/
  waiting : List Path := []
  holder : Option Issue := none

/-- Issues the next number. -/
def Session.issue (ses : Session) (path : Path) : Session :=
  { ses with
    seq := (ses.seq + ses.residueClass) % 2 ^ 64
    holder := some { path, inode := ses.seq } }

def Session.setInodeResidue (ses : Session) (residueClass remainder : Nat) : Session :=
  if residueClass < 2 then { ses with residueClass := 1, remainder := 0 }
  else
    { ses with
      residueClass
      remainder := remainder % residueClass
      seq := ((ses.seq / residueClass + 1) * residueClass + remainder % residueClass) % 2 ^ 64 }

structure State (K : Type) where
  db : Databases K
  session : Option Session := none
  /-- a call of `Create` has not returned -/
  crashed : Bool := false
  /-- what `GetInode` has returned so far, in all sessions -/
  answers : List (Path × Nat) := []

def State.empty : State K := { db := ⟨fun _ => none, fun _ => none⟩ }

/-- `Create` with both databases open. The root path takes the first number. -/
def create (db : Databases K) : Databases K × Session :=
  let seq := db.findInode (md5 seqKey)
  if seq ≠ 0 then (db, { seq })
  else if db.findInode (md5 []) ≠ 0 then (db, { seq := rootInode })
  else
    ((db.putInode2Path rootInode []).putPath2Inode (md5 []) rootInode,
      { seq := (rootInode + 1) % 2 ^ 64 })

/-- The destructor writes to `db_path2inode_`; `none` when it is not open. -/
def destroy (db : Option (Databases K)) (seq : Nat) : Option (Databases K) :=
  db.map fun db => db.putPath2Inode (md5 seqKey) seq

inductive Event
  | create (failing : Bool)
  | setInodeResidue (residueClass remainder : Nat)
  | getInode (path : Path)
  | lock (k : Nat)
  | putInode2Path
  | putPath2Inode
  | destroy

/-- What is done with the maps of a session. The lock is free where there is no holder. -/
def act (s : State K) (ses : Session) : Event → Option (State K)
  | .create _ => none
  | .setInodeResidue residueClass remainder =>
    if ses.holder.isSome then none
    else some { s with session := some (ses.setInodeResidue residueClass remainder) }
  | .getInode path =>
    let inode := s.db.findInode (md5 path)
    some (if inode ≠ 0 then { s with answers := (path, inode) :: s.answers }
      else { s with session := some { ses with waiting := path :: ses.waiting } })
  | .lock k => do
    let path ← ses.waiting[k]?
    if ses.holder.isSome then none
    else
      let inode := s.db.findInode (md5 path)
      let ses := { ses with waiting := ses.waiting.eraseIdx k }
      some (if inode ≠ 0 then
          { s with session := some ses, answers := (path, inode) :: s.answers }
        else { s with session := some (ses.issue path) })
  | .putInode2Path => do
    let h ← ses.holder
    if h.stored then none
    else
      some { s with
        db := s.db.putInode2Path h.inode h.path
        session := some { ses with holder := some { h with stored := true } } }
  | .putPath2Inode => do
    let h ← ses.holder
    if h.stored then
      some { s with
        db := s.db.putPath2Inode (md5 h.path) h.inode
        session := some { ses with holder := none }
        answers := (h.path, h.inode) :: s.answers }
    else none
  | .destroy =>
    if ses.waiting.isEmpty ∧ ses.holder.isNone then
      (destroy md5 (some s.db) ses.seq).map fun db => { s with db, session := none }
    else none

/-- Where `Create` cannot open a database, the maps are destroyed before it returns. -/
def step (s : State K) (e : Event) : Option (State K) :=
  match s.session, e with
  | none, .create true =>
    some { s with crashed := (destroy md5 (none : Option (Databases K)) 0).isNone }
  | none, .create false =>
    let (db, ses) := create md5 rootInode s.db
    some { s with db, session := some ses }
  | none, _ => none
  | some ses, e => act md5 s ses e

def system : System (State K) Event where
  init s := s = .empty
  step s e s' := step md5 rootInode s e = some s'

/-- Both databases can be opened, and the numbers that are issued do not wrap. -/
def Careful (paths : Set Path) (s : State K) : Event → Prop
  | .create failing => failing = false ∧ rootInode + 1 < 2 ^ 64
  | .setInodeResidue residueClass remainder => 2 ≤ residueClass → ∀ ses ∈ s.session,
    (ses.seq / residueClass + 1) * residueClass + remainder % residueClass < 2 ^ 64
  | .getInode path => path ∈ paths
  | .lock k => ∀ ses ∈ s.session, ∀ p ∈ ses.waiting[k]?, s.db.findInode (md5 p) = 0 →
    ses.seq + ses.residueClass < 2 ^ 64
  | _ => True

instance (paths : Set Path) [DecidablePred (· ∈ paths)] (s : State K) :
    ∀ e, Decidable (Careful md5 rootInode paths s e)
  | .create _ => inferInstanceAs (Decidable (_ ∧ _))
  | .setInodeResidue _ _ => inferInstanceAs (Decidable (_ → ∀ ses ∈ s.session, _))
  | .getInode p => inferInstanceAs (Decidable (p ∈ paths))
  | .lock k => inferInstanceAs (Decidable (∀ ses ∈ s.session, ∀ p ∈ ses.waiting[k]?, _))
  | .putInode2Path | .putPath2Inode | .destroy => .isTrue trivial

/-! ## The invariant -/

def State.next (s : State K) : Nat :=
  match s.session with
  | some ses => ses.seq
  | none => s.db.findInode (md5 seqKey)

structure Issue.Fresh (paths : Set Path) (db : Databases K) (seq : Nat) (h : Issue) : Prop where
  path : h.path ∈ paths
  absent : db.path2inode (md5 h.path) = none
  inode : h.inode ≠ 0 ∧ h.inode < seq
  unused : ∀ p ∈ paths, db.path2inode (md5 p) ≠ some h.inode
  stored : h.stored = true → db.inode2path h.inode = some h.path

structure Session.Sound (paths : Set Path) (db : Databases K) (ses : Session) : Prop where
  seq_pos : ses.seq ≠ 0
  class_pos : 0 < ses.residueClass
  residue : ses.seq % ses.residueClass = ses.remainder
  waiting : ∀ p ∈ ses.waiting, p ∈ paths
  holder : ∀ h ∈ ses.holder, h.Fresh md5 paths db ses.seq

structure State.Sound (paths : Set Path) (s : State K) : Prop where
  running : s.crashed = false
  known : ∀ p ∈ paths, ∀ i, s.db.path2inode (md5 p) = some i →
    i ≠ 0 ∧ i < s.next md5 ∧ s.db.inode2path i = some p
  root : s.next md5 ≠ 0 → s.db.path2inode (md5 []) = some rootInode
  answered : ∀ a ∈ s.answers, a.1 ∈ paths ∧ s.db.path2inode (md5 a.1) = some a.2
  session : ∀ ses ∈ s.session, ses.Sound md5 paths s.db

variable {md5 rootInode} {paths : Set Path} {s s' : State K} {ses : Session} {db : Databases K}

theorem path2inode_put (hinj : Set.InjOn md5 (insert seqKey paths)) {p q : Path}
    (hp : p ∈ insert seqKey paths) (hq : q ∈ insert seqKey paths) (i : Nat) :
    (db.putPath2Inode (md5 q) i).path2inode (md5 p) =
      if p = q then some i else db.path2inode (md5 p) := by
  by_cases hpq : p = q
  · simp [Databases.putPath2Inode, hpq]
  · have hne : md5 p ≠ md5 q := fun he => hpq (hinj hp hq he)
    simp [Databases.putPath2Inode, hpq, hne]

section

omit [DecidableEq K]

theorem findInode_eq {key : K} (h : db.findInode key ≠ 0) :
    db.path2inode key = some (db.findInode key) := by
  unfold Databases.findInode at h ⊢
  cases hkey : db.path2inode key with
  | none => simp [hkey] at h
  | some i => rfl

section

variable (h : State.Sound md5 rootInode paths s)
include h

theorem State.Sound.absent {p : Path} (hp : p ∈ paths)
    (h0 : s.db.findInode (md5 p) = 0) : s.db.path2inode (md5 p) = none := by
  cases hkey : s.db.path2inode (md5 p) with
  | none => rfl
  | some i => exact absurd (by simpa [Databases.findInode, hkey] using h0) (h.known p hp i hkey).1

theorem State.Sound.of_session
    (hses : s.session = some ses) : s.db.path2inode (md5 []) = some rootInode ∧
      ∀ p ∈ paths, ∀ i, s.db.path2inode (md5 p) = some i →
        i ≠ 0 ∧ i < ses.seq ∧ s.db.inode2path i = some p := by
  have hnext : s.next md5 = ses.seq := by simp [State.next, hses]
  exact ⟨h.root (hnext ▸ (h.session ses hses).seq_pos), hnext ▸ h.known⟩

theorem State.Sound.advance (hses : s.session = some ses)
    {ses' : Session} (hs' : ses'.Sound md5 paths s.db) (hle : ses.seq ≤ ses'.seq) :
    State.Sound md5 rootInode paths { s with session := some ses' } := by
  obtain ⟨hroot, hknown⟩ := h.of_session hses
  refine ⟨h.running, fun p hp i hi => ?_, fun _ => hroot, h.answered, fun x hx => ?_⟩
  · obtain ⟨h0, hlt, hpath⟩ := hknown p hp i hi
    exact ⟨h0, hlt.trans_le hle, hpath⟩
  · obtain rfl := mem_some_iff.1 hx
    exact hs'

theorem State.Sound.answer {p : Path} (hp : p ∈ paths)
    (h0 : s.db.findInode (md5 p) ≠ 0) :
    State.Sound md5 rootInode paths
      { s with answers := (p, s.db.findInode (md5 p)) :: s.answers } := by
  refine ⟨h.running, h.known, h.root, fun a ha => ?_, h.session⟩
  rcases mem_cons.1 ha with rfl | ha
  · exact ⟨hp, findInode_eq h0⟩
  · exact h.answered a ha

end

theorem Session.Sound.issue (h : ses.Sound md5 paths s.db) (hs : State.Sound md5 rootInode paths s)
    (hses : s.session = some ses) (hlt : ses.seq + ses.residueClass < 2 ^ 64) {p : Path}
    (hp : p ∈ paths) (h0 : s.db.findInode (md5 p) = 0) : (ses.issue p).Sound md5 paths s.db := by
  have hpos := h.class_pos
  have hseq : (ses.issue p).seq = ses.seq + ses.residueClass := mod_eq_of_lt hlt
  refine ⟨by omega, hpos, ?_, h.waiting, ?_⟩
  · rw [hseq]
    exact (add_mod_right _ _).trans h.residue
  intro x hx
  obtain rfl := mem_some_iff.1 hx
  have hseq0 := h.seq_pos
  refine ⟨hp, hs.absent hp h0, ⟨hseq0, by simp only [hseq]; omega⟩, fun q hq hi => ?_, by simp⟩
  exact lt_irrefl _ ((hs.of_session hses).2 q hq _ hi).2.1

theorem Session.Sound.setInodeResidue (h : ses.Sound md5 paths db) (hh : ses.holder = none)
    {c r : Nat} (hlt : 2 ≤ c → (ses.seq / c + 1) * c + r % c < 2 ^ 64) :
    ses.seq ≤ (ses.setInodeResidue c r).seq ∧ (ses.setInodeResidue c r).Sound md5 paths db := by
  unfold Session.setInodeResidue
  split
  · exact ⟨le_refl _, h.seq_pos, one_pos, mod_one _, h.waiting, by simp [hh]⟩
  next hc =>
    have hlow : ses.seq < (ses.seq / c + 1) * c := by
      rw [add_mul, one_mul]
      exact lt_div_mul_add (by omega)
    rw [mod_eq_of_lt (hlt (by omega))]
    generalize ses.seq / c + 1 = q at *
    refine ⟨by simp only []; omega, by simp only []; omega, by simp only []; omega, ?_, h.waiting,
      by simp [hh]⟩
    simp [add_mod]

end

variable (hinj : Set.InjOn md5 (insert seqKey paths)) (hseq : seqKey ∉ paths) (h0 : [] ∈ paths)

include hinj h0

theorem State.Sound.create (h : State.Sound md5 rootInode paths s) (hs : s.session = none)
    (hpos : rootInode ≠ 0) (hlt : rootInode + 1 < 2 ^ 64) :
    State.Sound md5 rootInode paths { s with
      db := (NfsMaps.create md5 rootInode s.db).1
      session := some (NfsMaps.create md5 rootInode s.db).2 } := by
  have hnext : s.next md5 = s.db.findInode (md5 seqKey) := by simp [State.next, hs]
  have hnew : ∀ seq, seq ≠ 0 → ∀ db, ∀ ses ∈ some { seq : Session },
      Session.Sound md5 paths db ses := by
    intro seq hseq db ses hses
    obtain rfl := mem_some_iff.1 hses
    exact ⟨hseq, one_pos, mod_one _, by simp, by simp⟩
  by_cases hz : s.db.findInode (md5 seqKey) = 0
  · have hnone : ∀ p ∈ paths, s.db.path2inode (md5 p) = none := by
      intro p hp
      cases hi : s.db.path2inode (md5 p) with
      | none => rfl
      | some i =>
        have := (h.known p hp i hi).2.1
        omega
    have hput : ∀ p ∈ paths,
        ((s.db.putInode2Path rootInode []).putPath2Inode (md5 []) rootInode).path2inode (md5 p) =
          if p = [] then some rootInode else none := by
      intro p hp
      rw [path2inode_put hinj (.inr hp) (.inr h0), ← hnone p hp]
      rfl
    have hroot : s.db.findInode (md5 []) = 0 := by simp [Databases.findInode, hnone [] h0]
    simp only [NfsMaps.create, hz, hroot, ne_eq, not_true, if_false, mod_eq_of_lt hlt]
    refine ⟨h.running, fun p hp i hi => ?_, fun _ => (hput [] h0).trans (if_pos rfl),
      fun a ha => ?_, hnew _ (succ_ne_zero _) _⟩
    · replace hi := (hput p hp).symm.trans hi
      rw [ite_none_right_eq_some, some.injEq] at hi
      obtain ⟨rfl, rfl⟩ := hi
      exact ⟨hpos, lt_succ_self _, update_self ..⟩
    · obtain ⟨hp, hi⟩ := h.answered a ha
      rw [hnone _ hp] at hi
      cases hi
  · simp only [NfsMaps.create, hz, ne_eq, not_false_iff, if_true]
    refine ⟨h.running, fun p hp i hi => ?_, fun _ => h.root (hnext ▸ hz), h.answered, hnew _ hz _⟩
    obtain ⟨hi0, hlt, hpath⟩ := h.known p hp i hi
    exact ⟨hi0, hnext ▸ hlt, hpath⟩

theorem State.Sound.putPath2Inode (h : State.Sound md5 rootInode paths s)
    (hses : s.session = some ses) {x : Issue} (hx : ses.holder = some x)
    (hstored : x.stored = true) :
    State.Sound md5 rootInode paths { s with
      db := s.db.putPath2Inode (md5 x.path) x.inode
      session := some { ses with holder := none }
      answers := (x.path, x.inode) :: s.answers } := by
  have hs := h.session ses hses
  obtain ⟨hroot, hknown⟩ := h.of_session hses
  have hfresh := hs.holder x hx
  have hput : ∀ p ∈ paths, (s.db.putPath2Inode (md5 x.path) x.inode).path2inode (md5 p) =
      if p = x.path then some x.inode else s.db.path2inode (md5 p) := fun p hp =>
    path2inode_put hinj (.inr hp) (.inr hfresh.path) _
  have hother : ∀ p ∈ paths, ∀ i, s.db.path2inode (md5 p) = some i → p ≠ x.path := by
    rintro p - i hi rfl
    rw [hfresh.absent] at hi
    cases hi
  refine ⟨h.running, fun p hp i hi => ?_, fun _ => ?_, fun a ha => ?_, fun y hy => ?_⟩
  · replace hi := (hput p hp).symm.trans hi
    by_cases hpx : p = x.path
    · rw [if_pos hpx, some.injEq] at hi
      exact hi ▸ ⟨hfresh.inode.1, hfresh.inode.2, hpx ▸ hfresh.stored hstored⟩
    · rw [if_neg hpx] at hi
      exact hknown p hp i hi
  · exact (hput [] h0).trans ((if_neg (hother [] h0 _ hroot)).trans hroot)
  · rcases mem_cons.1 ha with rfl | ha
    · exact ⟨hfresh.path, (hput _ hfresh.path).trans (if_pos rfl)⟩
    · obtain ⟨hp, hi⟩ := h.answered a ha
      exact ⟨hp, (hput _ hp).trans ((if_neg (hother _ hp _ hi)).trans hi)⟩
  · obtain rfl := mem_some_iff.1 hy
    exact ⟨hs.seq_pos, hs.class_pos, hs.residue, hs.waiting, by simp⟩

include hseq

theorem State.Sound.destroy (h : State.Sound md5 rootInode paths s) (hses : s.session = some ses) :
    State.Sound md5 rootInode paths
      { s with db := s.db.putPath2Inode (md5 seqKey) ses.seq, session := none } := by
  obtain ⟨hroot, hknown⟩ := h.of_session hses
  have hput : ∀ p ∈ paths, (s.db.putPath2Inode (md5 seqKey) ses.seq).path2inode (md5 p) =
      s.db.path2inode (md5 p) := fun p hp =>
    (path2inode_put hinj (.inr hp) (.inl rfl) _).trans (if_neg (ne_of_mem_of_not_mem hp hseq))
  have hseq' : (s.db.putPath2Inode (md5 seqKey) ses.seq).findInode (md5 seqKey) = ses.seq := by
    simp [Databases.findInode, Databases.putPath2Inode]
  refine ⟨h.running, fun p hp i hi => ?_, fun _ => ?_, fun a ha => ?_, by simp⟩
  · rw [State.next, hseq']
    exact hknown p hp i ((hput p hp).symm.trans hi)
  · exact (hput [] h0).trans hroot
  · obtain ⟨hp, hi⟩ := h.answered a ha
    exact ⟨hp, (hput _ hp).trans hi⟩

theorem State.Sound.act {e : Event} (h : State.Sound md5 rootInode paths s)
    (hses : s.session = some ses) (hc : Careful md5 rootInode paths s e)
    (he : NfsMaps.act md5 s ses e = some s') : State.Sound md5 rootInode paths s' := by
  have hs := h.session ses hses
  cases e with
  | create failing => cases he
  | setInodeResidue c r =>
    obtain ⟨hh, he⟩ := ite_none_left_eq_some.1 he
    cases he
    obtain ⟨hle, hs'⟩ := hs.setInodeResidue (by simpa using hh) fun h2 => hc h2 ses hses
    exact h.advance hses hs' hle
  | getInode p =>
    cases he
    split
    next hi => exact h.answer hc hi
    refine h.advance hses { hs with waiting := fun q hq => ?_ } (le_refl _)
    rcases mem_cons.1 hq with rfl | hq
    · exact hc
    · exact hs.waiting q hq
  | lock k =>
    obtain ⟨p, hp, he⟩ := bind_eq_some_iff.1 he
    obtain ⟨hh, he⟩ := ite_none_left_eq_some.1 he
    cases he
    have hwrap := hc ses hses p hp
    have hp := hs.waiting p (mem_of_getElem? hp)
    have hs' : Session.Sound md5 paths s.db { ses with waiting := ses.waiting.eraseIdx k } :=
      { hs with waiting := fun q hq => hs.waiting q (mem_of_mem_eraseIdx hq) }
    have h' := h.advance hses hs' (le_refl _)
    split
    next hi => exact h'.answer hp hi
    next hi =>
      have hi : s.db.findInode (md5 p) = 0 := by simpa using hi
      have hlt := hwrap hi
      have hissue := Session.Sound.issue (s := { s with session := some _ }) hs' h' rfl hlt hp hi
      exact h'.advance rfl hissue ((le_add_right _ _).trans (mod_eq_of_lt hlt).ge)
  | putInode2Path =>
    obtain ⟨x, hx, he⟩ := bind_eq_some_iff.1 he
    obtain ⟨hst, he⟩ := ite_none_left_eq_some.1 he
    cases he
    have hfresh := hs.holder x hx
    obtain ⟨hroot, hknown⟩ := h.of_session hses
    refine ⟨h.running, fun p hp i hi => ?_, fun _ => hroot, h.answered, fun y hy => ?_⟩
    · obtain ⟨hi0, hlt, hpath⟩ := hknown p hp i hi
      have hne : i ≠ x.inode := fun hxi => hfresh.unused p hp (hxi ▸ hi)
      exact ⟨hi0, hlt, (update_of_ne hne ..).trans hpath⟩
    obtain rfl := mem_some_iff.1 hy
    refine { hs with holder := fun z hz => ?_ }
    obtain rfl := mem_some_iff.1 hz
    exact { hfresh with stored := fun _ => update_self .. }
  | putPath2Inode =>
    obtain ⟨x, hx, he⟩ := bind_eq_some_iff.1 he
    obtain ⟨hst, he⟩ := ite_none_right_eq_some.1 he
    cases he
    exact h.putPath2Inode hinj h0 hses hx hst
  | destroy =>
    obtain ⟨-, he⟩ := ite_none_right_eq_some.1 he
    cases he
    exact h.destroy hinj hseq h0 hses

theorem sound_of_reach (hpos : rootInode ≠ 0)
    (h : (system md5 rootInode).Reach (Careful md5 rootInode paths) s) :
    State.Sound md5 rootInode paths s := by
  refine h.invariant ?_ fun s e s' hs hc he => ?_
  · rintro s rfl
    exact ⟨rfl, nofun, fun hnext => absurd rfl hnext, nofun, nofun⟩
  change step md5 rootInode s e = some s' at he
  unfold step at he
  split at he
  · exact absurd hc.1 (by simp)
  next hses =>
    cases he
    exact hs.create hinj h0 hses hpos hc.2
  · cases he
  next hses => exact hs.act hinj hseq h0 hses hc he

omit hinj hseq h0

theorem inodes_permanent (hinj : Set.InjOn md5 (insert seqKey paths))
    (hpaths : ∀ p ∈ paths, p = [] ∨ p.head? = some '/') (h0 : [] ∈ paths) (hpos : 0 < rootInode)
    (h : (system md5 rootInode).Reach (Careful md5 rootInode paths) s) :
    s.crashed = false ∧ (∀ a ∈ s.answers, ∀ b ∈ s.answers, a.1 = b.1 ↔ a.2 = b.2) ∧
      (∀ a ∈ s.answers, (a.1 = [] → a.2 = rootInode) ∧ s.db.inode2path a.2 = some a.1) ∧
      ∀ k s', (system md5 rootInode).step s (.lock k) s' → ∀ ses ∈ s.session, ∀ ses' ∈ s'.session,
        ∀ x ∈ ses'.holder, x.inode % ses.residueClass = ses.remainder := by
  have hseq : seqKey ∉ paths := fun hmem => absurd (hpaths _ hmem) (by decide)
  have hs := sound_of_reach hinj hseq h0 hpos.ne' h
  have hpath : ∀ a ∈ s.answers, s.db.inode2path a.2 = some a.1 := fun a ha =>
    (hs.known _ (hs.answered a ha).1 _ (hs.answered a ha).2).2.2
  refine ⟨hs.running, fun a ha b hb => ⟨fun hab => ?_, fun hab => ?_⟩, fun a ha => ⟨fun hroot => ?_,
    hpath a ha⟩, fun k s' hstep ses hses ses' hses' x hx => ?_⟩
  · have hb' := (hs.answered b hb).2
    rw [← hab, (hs.answered a ha).2] at hb'
    exact some.inj hb'
  · have hb' := hpath b hb
    rw [← hab, hpath a ha] at hb'
    exact some.inj hb'
  · obtain ⟨hp, hi⟩ := hs.answered a ha
    have hnext := (hs.known _ hp _ hi).2.1
    have hi' := hs.root (by omega)
    rw [← hroot, hi] at hi'
    exact some.inj hi'
  change NfsMaps.step md5 rootInode s (.lock k) = some s' at hstep
  rw [mem_def] at hses
  simp only [NfsMaps.step, hses] at hstep
  obtain ⟨p, -, hstep⟩ := bind_eq_some_iff.1 hstep
  obtain ⟨hfree, hstep⟩ := ite_none_left_eq_some.1 hstep
  cases hstep
  split at hses' <;> obtain rfl := mem_some_iff.1 hses'
  · exact absurd (isSome_of_mem hx) hfree
  · obtain rfl := mem_some_iff.1 hx
    exact (hs.session ses hses).residue

/-- The digests of three texts. -/
def sampleMd5 (p : Path) : Nat :=
  if p = [] then 0xd41d8cd98f00b204e9800998ecf8427e
  else if p = seqKey then 0xeb471cd33bd542ee66aaf5c729e343e0
  else 0x0639767f3e9eaad729b54037a7e2abf5

def samplePaths : Set Path := {p | p = [] ∨ p = ['/', 'a']}

instance : DecidablePred (· ∈ samplePaths) := fun p =>
  inferInstanceAs (Decidable (p = [] ∨ p = ['/', 'a']))

/-- A path gets its number in the first session and keeps it in the second one. -/
theorem inodes_permanent_twoSessions : ∃ s,
    (system sampleMd5 256).Reach (Careful sampleMd5 256 samplePaths) s ∧
      s.answers = [([], 256), (['/', 'a'], 263), (['/', 'a'], 263)] ∧
      s.db.inode2path 263 = some ['/', 'a'] := by
  have hinj : Set.InjOn sampleMd5 (insert seqKey samplePaths) := by
    rintro p (rfl | rfl | rfl) q (rfl | rfl | rfl) <;> decide
  have hrun : [.create false, .setInodeResidue 4 3, .getInode ['/', 'a'], .lock 0, .putInode2Path,
      .putPath2Inode, .destroy, .create false, .getInode ['/', 'a'], .getInode []].foldlM
      (System.guarded (Careful sampleMd5 256 samplePaths) (step sampleMd5 256)) .empty = some _ := rfl
  have hreach := System.Reach.followGuarded (S := system sampleMd5 256) (fun _ _ _ h => h)
    (.init rfl) hrun
  have h := inodes_permanent hinj (by rintro p (rfl | rfl) <;> decide) (.inl rfl) (by decide) hreach
  exact ⟨_, hreach, rfl, (h.2.2.1 (['/', 'a'], 263) (by decide)).2⟩

/-- A database cannot be opened, and `Create` does not return. -/
theorem failing_create_crashes : ∃ s, (system sampleMd5 256).Reach System.anyStep s ∧
    s.crashed = true := by
  have hrun : [.create true].foldlM (step sampleMd5 256) .empty = some _ := rfl
  have hinit : (system sampleMd5 256).Reach System.anyStep .empty := .init rfl
  exact ⟨_, hinit.follow (fun _ _ _ h => h) hrun, rfl⟩

end Cvmfs.NfsMaps
