import Cvmfs.Nfs4.NamedAttributes
import Cvmfs.Nfs4.Clients

/-! # Who reads file contents

`OPEN` checks the credentials of the caller against the mode of the file. `READ` looks at the file
handle and the stateid only, and answers all callers alike. This module runs both against a backend
that changes at any time, with the steps of `READ` interleaved with everything else the server
does. -/

namespace Cvmfs.Nfs4

open Lib Lib.Table Server

/-! ## `READ` in steps -/

namespace Server

variable (cfg : Config) (maxRead : Nat) (s : Server) (b : Backend) (fsid : UInt64)

/-- `OpRead` up to the check of the stateid. -/
def readResolve (fh : FileHandle) : Except Status Resolved := do
  let obj ← s.resolve b fh
  if fh.kind = .attrDir ∨ isDir obj.attr.mode then .error .isdir
  else if !isReg obj.attr.mode then .error .inval
  else .ok obj

/-- `OpRead` after the check of the stateid. -/
def readData (obj : Resolved) (offset count : Nat) (creds : Credentials) :
    Except Status (Bool × Opaque) :=
  let count := min count maxRead
  if obj.fh.kind = .namedAttr then do
    let value ← b.getXattr obj.fh.ino obj.xattrName creds
    .ok (valuePart offset count value)
  else b.read obj.fh.ino offset count

/-- What `OpOpen` looks up, by its claim. -/
def openTarget (fh : FileHandle) : Claim → Except Status Resolved
  | .null name | .delegateCur _ name => do s.lookupChild b fsid (← s.resolve b fh) name
  | .previous _ | .unknown _ => s.resolve b fh

variable {cfg maxRead s b} {fh : FileHandle} {obj : Resolved}

theorem fh_of_resolve (h : s.resolve b fh = .ok obj) : obj.fh = fh := by
  rw [resolve] at h
  cases hattr : b.getAttr fh.ino with
  | error e => simp [hattr, bind, Except.bind] at h
  | ok attr =>
    cases hkind : fh.kind with
    | object | attrDir =>
      simp only [hattr, hkind, bind, Except.bind] at h
      cases h
      rfl
    | namedAttr =>
      simp only [hattr, hkind, bind, Except.bind] at h
      cases hname : resolveXattrName b fh.ino fh.aux <;> simp only [hname, reduceCtorEq] at h
      cases h
      rfl

/-- Without other threads the steps are the operation. -/
theorem opRead_eq_steps (stateid : Stateid) (offset count : Nat) (creds : Credentials) :
    s.opRead cfg maxRead b fh stateid offset count creds = (do
      let obj ← s.readResolve b fh
      match s.checkReadStateid cfg stateid fh with
      | .ok => readData maxRead b obj offset count creds
      | status => .error status) := by
  rw [opRead, readResolve]
  cases hobj : s.resolve b fh with
  | error e => rfl
  | ok obj =>
    simp only [bind, Except.bind]
    by_cases hdir : fh.kind = .attrDir ∨ isDir obj.attr.mode
    · simp [hdir]
    by_cases hreg : isReg obj.attr.mode
    · cases hcheck : s.checkReadStateid cfg stateid fh <;>
        simp [hdir, hreg, readData, fh_of_resolve hobj, bind, Except.bind]
    · simp [hdir, hreg]

end Server

/-! ## Permission -/

/-- `AccessFromMode` grants `ACCESS4_READ`. -/
def Permitted (attr : Attr) (creds : Credentials) : Prop :=
  accessFromMode attr creds &&& access4Read ≠ 0

instance (attr : Attr) (creds : Credentials) : Decidable (Permitted attr creds) :=
  inferInstanceAs (Decidable (_ ≠ _))

/-- What `AccessFromMode` reads. -/
def Attr.permissions (attr : Attr) : Nat × Nat × Nat := (attr.mode, attr.uid, attr.gid)

theorem permitted_congr {attr attr' : Attr} (h : attr.permissions = attr'.permissions)
    (creds : Credentials) : Permitted attr creds ↔ Permitted attr' creds := by
  simp only [Attr.permissions, Prod.mk.injEq] at h
  obtain ⟨hmode, huid, hgid⟩ := h
  simp [Permitted, accessFromMode, hmode, huid, hgid]

/-- Owner, group and others may read. -/
def AllRead (attr : Attr) : Prop := attr.mode &&& 0o444 = 0o444

instance (attr : Attr) : Decidable (AllRead attr) := inferInstanceAs (Decidable (_ = _))

theorem readBit_of_allRead {attr : Attr} (h : AllRead attr) {k : Nat} (hk : k = 6 ∨ k = 3 ∨ k = 0) :
    attr.mode >>> k &&& 7 &&& 4 ≠ 0 := by
  intro hzero
  have hset : attr.mode.testBit (k + 2) = true := by
    have hbit : (attr.mode &&& 0o444).testBit (k + 2) = Nat.testBit 0o444 (k + 2) := by rw [h]
    rw [Nat.testBit_and] at hbit
    obtain rfl | rfl | rfl := hk <;> exact (Bool.and_eq_true_iff.mp hbit).1
  have hclear : (attr.mode >>> k &&& 7 &&& 4).testBit 2 = false := by
    rw [hzero]
    rfl
  rw [Nat.testBit_and, Nat.testBit_and, Nat.testBit_shiftRight, hset] at hclear
  exact absurd hclear (by decide)

/-- The bits of the mode that apply to a caller. -/
def permissionBits (attr : Attr) (creds : Credentials) : Nat :=
  if creds.uid = 0 then 4 ||| (if attr.mode &&& 0o111 = 0 then 0 else 1)
  else if creds.uid = attr.uid then attr.mode >>> 6 &&& 7
  else if creds.gid = attr.gid ∨ attr.gid ∈ creds.gids then attr.mode >>> 3 &&& 7
  else attr.mode &&& 7

theorem permitted_iff (attr : Attr) (creds : Credentials) :
    Permitted attr creds ↔ permissionBits attr creds &&& 4 ≠ 0 := by
  change ((if permissionBits attr creds &&& 4 = 0 then 0 else access4Read) |||
    (if permissionBits attr creds &&& 1 = 0 then 0
      else if isDir attr.mode then access4Lookup else access4Execute)) &&& access4Read ≠ 0 ↔ _
  by_cases h : permissionBits attr creds &&& 4 = 0
  · simp only [h, if_true, ne_eq, not_true, iff_false, not_not]
    split_ifs <;> rfl
  · simp only [h, if_false, ne_eq, not_false_eq_true, iff_true]
    split_ifs <;> decide

variable {creds : Credentials}

theorem permitted_root (attr : Attr) (h : creds.uid = 0) : Permitted attr creds := by
  rw [permitted_iff, permissionBits, if_pos h]
  split_ifs <;> decide

theorem permitted_of_allRead {attr : Attr} (h : AllRead attr) (creds : Credentials) :
    Permitted attr creds := by
  by_cases hroot : creds.uid = 0
  · exact permitted_root attr hroot
  rw [permitted_iff, permissionBits, if_neg hroot]
  split_ifs
  · exact readBit_of_allRead h (.inl rfl)
  · exact readBit_of_allRead h (.inr (.inl rfl))
  · exact readBit_of_allRead h (.inr (.inr rfl))

theorem permitted_of_openCheck {a : OpenArgs} {target : Object}
    (h : openCheck a creds target = .ok) : Permitted target.attr creds := by
  rw [openCheck] at h
  split_ifs at h with hshare hdir hlnk hreg haccess
  exact haccess

/-! ## Histories -/

/-- A `READ` between its steps. -/
structure PendingRead where
  obj : Resolved
  stateid : Stateid
  offset : Nat
  count : Nat
  creds : Credentials
  /-- The stateid has been accepted. -/
  checked : Bool := false

/-- History: an `OPEN` that succeeded. -/
structure Opening where
  fh : FileHandle
  attr : Attr
  creds : Credentials
deriving DecidableEq

/-- History: a `READ` that returned data. -/
structure Returned where
  obj : Resolved
  stateid : Stateid
  creds : Credentials
  answer : Bool × Opaque

structure Export where
  world : World
  backend : Backend
  /-- The `READ` operations in progress, by thread. -/
  reads : Table Nat PendingRead := empty
  opened : List Opening := []
  returned : List Returned := []

namespace Export

inductive Event
  /-- Whatever the server does but look up files and read. -/
  | server (e : Nfs4.Event)
  /-- An `OPEN` looks up its file, from the current file handle of its compound. -/
  | openLookup (thread : Nat) (fh : FileHandle)
  /-- The backend serves another tree. -/
  | backend (b : Backend)
  | readResolve (thread : Nat) (fh : FileHandle) (stateid : Stateid) (offset count : Nat)
      (creds : Credentials)
  | readCheck (thread : Nat)
  | readFinish (thread : Nat)

/-- What the history has to remember of a step of the server. -/
def openings (w : World) (e : Nfs4.Event) (a : Option Answer) : List Opening :=
  match e, a with
  | .openFinish thread, some (.ok, _) =>
    match w.opens.find? thread with
    | some ⟨_, creds, some (.ok target)⟩ => [⟨target.fh, target.attr, creds⟩]
    | _ => []
  | _, _ => []

variable (cfg : Config) (maxRead : Nat) (fsid : UInt64)

/-- A step of the server that is no `READ`. -/
def serve (x : Export) (e : Nfs4.Event) : Option Export :=
  (x.world.exec cfg e).map fun r =>
    { x with world := r.1, opened := openings x.world e r.2 ++ x.opened }

def exec (x : Export) : Event → Option Export
  -- lookups are made in the backend
  | .server (.openLookup _ _) => none
  | .server e => x.serve cfg e
  | .openLookup thread fh => do
    let p ← x.world.opens.find? thread
    let target := x.world.server.openTarget x.backend fsid fh p.args.claim
    x.serve cfg (.openLookup thread (target.map fun t => (t.fh, t.attr)))
  | .backend b => some { x with backend := b }
  | .readResolve thread fh stateid offset count creds =>
    if x.reads.contains thread then none
    else
      match x.world.server.readResolve x.backend fh with
      | .error _ => some x
      | .ok obj => some { x with reads := x.reads.put thread { obj, stateid, offset, count, creds } }
  | .readCheck thread =>
    match x.reads.find? thread with
    | none => none
    | some p =>
      if p.checked then none
      else
        match x.world.server.checkReadStateid cfg p.stateid p.obj.fh with
        | .ok => some { x with reads := x.reads.put thread { p with checked := true } }
        | _ => some { x with reads := x.reads.erase thread }
  | .readFinish thread =>
    match x.reads.find? thread with
    | none => none
    | some p =>
      if p.checked then
        match readData maxRead x.backend p.obj p.offset p.count p.creds with
        | .error _ => some { x with reads := x.reads.erase thread }
        | .ok answer =>
          some { x with
            reads := x.reads.erase thread
            returned := ⟨p.obj, p.stateid, p.creds, answer⟩ :: x.returned }
      else none

/-- A server that has just started on a backend. -/
def Started (x : Export) : Prop := ∃ g b, x = { world := { generation := g }, backend := b }

def system : System Export Event where
  init := Started
  step x e x' := x.exec cfg maxRead fsid e = some x'

/-- The caller opened the file while it had these permissions. -/
def HasOpened (x : Export) (fh : FileHandle) (attr : Attr) (creds : Credentials) : Prop :=
  ∃ o ∈ x.opened, o.fh = fh ∧ o.creds = creds ∧ o.attr.permissions = attr.permissions

instance (x : Export) (fh : FileHandle) (attr : Attr) (creds : Credentials) :
    Decidable (x.HasOpened fh attr creds) :=
  inferInstanceAs (Decidable (∃ o ∈ x.opened, _))

/-- The superuser reads, or who has opened the file, or everybody if the mode has all read bits. -/
def MayRead (x : Export) (fh : FileHandle) (attr : Attr) (creds : Credentials) : Prop :=
  creds.uid = 0 ∨ AllRead attr ∨ x.HasOpened fh attr creds

instance (x : Export) (fh : FileHandle) (attr : Attr) (creds : Credentials) :
    Decidable (x.MayRead fh attr creds) :=
  inferInstanceAs (Decidable (_ ∨ _ ∨ _))

/-- The stateid of a `READ` is accepted from those who may read the file, as it was looked up. -/
def Entitled (x : Export) : Event → Prop
  | .readCheck thread =>
    ∀ p ∈ x.reads.find? thread, p.obj.fh.kind = .object →
      x.world.server.checkReadStateid cfg p.stateid p.obj.fh = .ok →
        x.MayRead p.obj.fh p.obj.attr p.creds
  | _ => True

instance (x : Export) : (e : Event) → Decidable (Entitled cfg x e)
  | .readCheck thread =>
    inferInstanceAs (Decidable (∀ p ∈ x.reads.find? thread, p.obj.fh.kind = .object →
      x.world.server.checkReadStateid cfg p.stateid p.obj.fh = .ok →
        x.MayRead p.obj.fh p.obj.attr p.creds))
  | .server _ | .openLookup .. | .backend _ | .readResolve .. | .readFinish _ =>
    inferInstanceAs (Decidable True)

/-- The contents of files were returned to permitted callers. -/
structure Guarded (x : Export) : Prop where
  opened : ∀ o ∈ x.opened, Permitted o.attr o.creds
  reads : ∀ t p, x.reads.find? t = some p → p.checked = true → p.obj.fh.kind = .object →
    Permitted p.obj.attr p.creds
  returned : ∀ r ∈ x.returned, r.obj.fh.kind = .object → Permitted r.obj.attr r.creds

theorem guarded_of_started {x : Export} (h : Started x) : Guarded x := by
  obtain ⟨g, b, rfl⟩ := h
  refine ⟨fun o ho => ?_, fun t p hp => ?_, fun r hr => ?_⟩
  · cases ho
  · cases hp
  · cases hr

variable {cfg maxRead fsid} {x x' : Export}

theorem openCheck_of_openFinish {s : Server} {a : OpenArgs} {creds : Credentials}
    {target : Object} (h : (s.openFinish cfg a creds (.ok target)).2.1 = .ok) :
    openCheck a creds target = .ok := by
  cases hcheck : openCheck a creds target <;> simp only [openFinish, hcheck] at h
  · rfl
  all_goals cases h

theorem permitted_of_openings {w w' : World} {e : Nfs4.Event} {a : Option Answer}
    (h : w.exec cfg e = some (w', a)) {o : Opening} (ho : o ∈ openings w e a) :
    Permitted o.attr o.creds := by
  unfold openings at ho
  split at ho
  next thread body =>
    split at ho
    next args creds target hfind =>
      simp only [World.exec, hfind, World.answer, Option.some.injEq, Prod.mk.injEq] at h
      obtain ⟨-, hanswer⟩ := h
      rw [List.mem_singleton] at ho
      subst ho
      have hcheck : openCheck args creds target = .ok := openCheck_of_openFinish (by rw [hanswer])
      exact permitted_of_openCheck hcheck
    · cases ho
  · cases ho

section

variable (hx : Guarded x)
include hx

theorem Guarded.serve {e : Nfs4.Event} (h : x.serve cfg e = some x') : Guarded x' := by
  obtain ⟨⟨w, a⟩, hexec, rfl⟩ := Option.map_eq_some_iff.mp h
  refine ⟨fun o ho => ?_, hx.reads, hx.returned⟩
  obtain ho | ho := List.mem_append.mp ho
  · exact permitted_of_openings hexec ho
  · exact hx.opened o ho

theorem Guarded.permitted (fh : FileHandle) {attr : Attr} {creds : Credentials}
    (h : x.MayRead fh attr creds) : Permitted attr creds := by
  obtain h | h | ⟨o, ho, -, rfl, hattr⟩ := h
  · exact permitted_root attr h
  · exact permitted_of_allRead h creds
  · exact (permitted_congr hattr o.creds).mp (hx.opened o ho)

theorem Guarded.put {thread : Nat} {p : PendingRead}
    (hp : p.checked = true → p.obj.fh.kind = .object → Permitted p.obj.attr p.creds) :
    Guarded { x with reads := x.reads.put thread p } := by
  refine ⟨hx.opened, fun t q hq => ?_, hx.returned⟩
  rw [find?_put] at hq
  split_ifs at hq
  · cases hq
    exact hp
  · exact hx.reads t q hq

theorem Guarded.erase (thread : Nat) :
    Guarded { x with reads := x.reads.erase thread } := by
  refine ⟨hx.opened, fun t q hq => ?_, hx.returned⟩
  rw [find?_erase] at hq
  split_ifs at hq
  exact hx.reads t q hq

theorem Guarded.step {e : Event} (he : Entitled cfg x e)
    (h : x.exec cfg maxRead fsid e = some x') : Guarded x' := by
  cases e with
  | server e =>
    cases e with
    | openLookup => cases h
    | _ => exact hx.serve h
  | openLookup thread fh =>
    obtain ⟨p, -, h⟩ := Option.bind_eq_some_iff.mp h
    exact hx.serve h
  | backend b =>
    cases h
    exact { hx with }
  | readResolve thread fh stateid offset count creds =>
    simp only [exec] at h
    split_ifs at h
    split at h
    · cases h
      exact hx
    next obj hobj =>
      cases h
      exact hx.put Bool.noConfusion
  | readCheck thread =>
    simp only [exec] at h
    split at h
    · cases h
    next p hp =>
      split_ifs at h
      split at h <;> cases h
      next hok => exact hx.put fun _ hkind => hx.permitted p.obj.fh (he p hp hkind hok)
      · exact hx.erase thread
  | readFinish thread =>
    simp only [exec] at h
    split at h
    · cases h
    next p hp =>
      split_ifs at h with hchecked
      split at h <;> cases h
      · exact hx.erase thread
      refine ⟨hx.opened, (hx.erase thread).reads, fun r hr => ?_⟩
      obtain rfl | hr := List.mem_cons.mp hr
      · exact hx.reads thread p hp hchecked
      · exact hx.returned r hr

end

/-- In every history in which the stateid of a `READ` is accepted from the superuser, from callers
who have opened the file with the permissions it still has, or for files with all read bits set,
the contents of files go to permitted callers only. -/
theorem contents_go_to_permitted (cfg : Config) (maxRead : Nat) (fsid : UInt64)
    (h : (system cfg maxRead fsid).Reach (Entitled cfg) x) :
    ∀ r ∈ x.returned, r.obj.fh.kind = .object → Permitted r.obj.attr r.creds := by
  have hx : Guarded x :=
    h.invariant (fun _ => guarded_of_started) fun _ _ _ hx he hstep => hx.step he hstep
  exact hx.returned

/-! ## Sample histories -/

/-- A single file, which is read by its owner and its group. -/
def groupFile : Backend where
  getAttr ino := .ok ⟨ino, if ino = 5 then 0o100640 else 0o40755, 1, 2⟩
  lookup _ _ := .ok ⟨5, 0o100640, 1, 2⟩
  listXattr _ := .ok []
  getXattr _ _ _ := .error .noent
  read _ _ _ := .ok (true, [115])

theorem reach_events {guard : Export → Event → Prop} [∀ x e, Decidable (guard x e)]
    (es : List Event) (h : es.foldlM (System.guarded guard (exec plainConfig 4096 1))
      { world := { generation := 1 }, backend := groupFile } = some x) :
    (system plainConfig 4096 1).Reach guard x :=
  System.Reach.followGuarded (fun _ _ _ hx => hx) (.init ⟨1, groupFile, rfl⟩) h

instance (x : Export) (e : Event) : Decidable (System.anyStep x e) :=
  inferInstanceAs (Decidable True)

/-- A member of the group opens the file and reads it. -/
theorem contents_go_to_permitted_member :
    ∃ x, (system plainConfig 4096 1).Reach (Entitled plainConfig) x ∧ x.returned ≠ [] ∧
      ∀ r ∈ x.returned, r.obj.fh.kind = .object → Permitted r.obj.attr r.creds := by
  obtain ⟨x, hx, hreturned⟩ : ∃ x, (system plainConfig 4096 1).Reach (Entitled plainConfig) x ∧
      x.returned.map Returned.answer = [(true, [115])] :=
    ⟨_, reach_events [.server (.setclientid [1] [65] false 0),
      .server (.setclientidConfirm ⟨7, 1⟩ (2 ^ 33)),
      .server (.openBegin 0 (sampleOpen ⟨7, 1⟩) ⟨1000, 100, [2]⟩ true),
      .openLookup 0 ⟨.object, 1, 1, 0⟩, .server (.openFinish 0),
      .readResolve 0 ⟨.object, 1, 5, 0⟩ ⟨1, 7, 1⟩ 0 64 ⟨1000, 100, [2]⟩,
      .readCheck 0, .readFinish 0] rfl, rfl⟩
  refine ⟨x, hx, fun hnil => ?_, contents_go_to_permitted _ _ _ hx⟩
  rw [hnil] at hreturned
  cases hreturned

/-- With the stateid of all zeros, a stranger reads the file. -/
theorem contents_go_to_stranger : ∃ x, (system plainConfig 4096 1).Reach System.anyStep x ∧
      ∃ r ∈ x.returned, r.obj.fh.kind = .object ∧ r.answer = (true, [115]) ∧
        ¬ Permitted r.obj.attr r.creds := by
  refine ⟨_, reach_events [.readResolve 0 ⟨.object, 1, 5, 0⟩ ⟨0, 0, 0⟩ 0 64 ⟨1000, 100, []⟩,
    .readCheck 0, .readFinish 0] rfl, _, List.mem_singleton.mpr rfl, rfl, rfl, by decide⟩

end Export

end Cvmfs.Nfs4
