import Cvmfs.Lib.Xdr
import Cvmfs.Nfs4.State

/-! # Named attributes

`nfs4/filehandle.cc`, and what `nfs4_server.cc` makes of handles. The handle of a named attribute
has a hash of the name only. On each use the name is searched again in the list of the backend,
and the first one with this hash is taken. -/

namespace Cvmfs.Nfs4

open Lib.Xdr List

/-! ## File handles -/

def fnv1a (data : Bytes) : UInt32 :=
  data.foldl (fun h byte => (h ^^^ byte.toUInt32) * 16777619) 2166136261

def hashName (name : Opaque) : Nat := (fnv1a name).toNat

namespace FileHandle

def kMagic : Bytes := [67, 86, 78, 52]

def kSize : Nat := 32

def kindByte : Kind → UInt8
  | .object => 1
  | .attrDir => 2
  | .namedAttr => 3

/-- All of a handle but its checksum. -/
def content (fh : FileHandle) : Bytes :=
  kMagic ++ [1, kindByte fh.kind, 0, 0] ++ putU64 (.ofNat fh.fsid) ++ putU64 (.ofNat fh.ino) ++
    putU32 (.ofNat fh.aux)

def encode (fh : FileHandle) : Bytes := fh.content ++ putU32 (fnv1a fh.content)

def fields (kind : Kind) : Decoder (FileHandle × UInt32) := do
  let fsid ← Decoder.getU64
  let ino ← Decoder.getU64
  let aux ← Decoder.getU32
  let check ← Decoder.getU32
  return (⟨kind, fsid.toNat, ino.toNat, aux.toNat⟩, check)

def decode (raw : Bytes) : Option FileHandle :=
  if raw.length ≠ kSize ∨ raw.take 4 ≠ kMagic ∨ raw.getD 4 0 ≠ 1 then none
  else do
    let kind ← [Kind.object, .attrDir, .namedAttr].find? (kindByte · == raw.getD 5 0)
    let ((fh, check), _) ← (fields kind).parse (raw.drop 8)
    if check ≠ fnv1a (raw.take (kSize - 4)) then none else some fh

/-- The fields are within their types. -/
def Fits (fh : FileHandle) : Prop := fh.fsid < 2 ^ 64 ∧ fh.ino < 2 ^ 64 ∧ fh.aux < 2 ^ 32

theorem find?_kindByte (kind : Kind) :
    [Kind.object, .attrDir, .namedAttr].find? (kindByte · == kindByte kind) = some kind := by
  cases kind <;> rfl

theorem parse_fields {fh : FileHandle} (h : fh.Fits) (check : UInt32) :
    (fields fh.kind).parse (putU64 (.ofNat fh.fsid) ++ (putU64 (.ofNat fh.ino) ++
      (putU32 (.ofNat fh.aux) ++ (putU32 check ++ [])))) = some ((fh, check), []) := by
  simp only [fields, Decoder.parse_bind, Decoder.parse_getU64, Decoder.parse_getU32,
    Option.bind_some, Decoder.parse_pure, UInt64.toNat_ofNat', UInt32.toNat_ofNat',
    Nat.mod_eq_of_lt h.1, Nat.mod_eq_of_lt h.2.1, Nat.mod_eq_of_lt h.2.2]

theorem decode_eq_some {raw rest fh kind check} (hlen : raw.length = kSize)
    (hmagic : raw.take 4 = kMagic) (hversion : raw.getD 4 0 = 1) (hkind : raw.getD 5 0 = kindByte kind)
    (hrest : raw.drop 8 = rest) (hfields : (fields kind).parse rest = some ((fh, check), []))
    (hcheck : check = fnv1a (raw.take (kSize - 4))) : decode raw = some fh := by
  rw [decode, hkind, find?_kindByte, hrest]
  simp only [hlen, hmagic, hversion, Option.bind_eq_bind, Option.bind_some, hfields, hcheck, ne_eq,
    not_true_eq_false, or_self, if_false]

theorem decode_encode {fh : FileHandle} (h : fh.Fits) : decode fh.encode = some fh :=
  decode_eq_some rfl rfl rfl rfl rfl (parse_fields h _) (congrArg fnv1a (take_left' rfl).symm)

theorem encode_inj {fh fh' : FileHandle} (h : fh.Fits) (h' : fh'.Fits) (he : fh.encode = fh'.encode) :
    fh = fh' := by
  have hd := decode_encode h
  rw [he, decode_encode h'] at hd
  exact (Option.some.inj hd).symm

end FileHandle

/-! ## Names -/

/-- The number of bytes that follow the first one of a character. -/
def utf8Tail (c : UInt8) : Option Nat :=
  if c < 0x80 then some 0
  else if c &&& 0xE0 = 0xC0 then some 1
  else if c &&& 0xF0 = 0xE0 then some 2
  else if c &&& 0xF8 = 0xF0 then some 3
  else none

/-- `IsValidUtf8`, where `n` bytes of a character are missing. -/
def isValidUtf8 : Nat → Opaque → Bool
  | n, [] => n == 0
  | 0, c :: s => (utf8Tail c).any (isValidUtf8 · s)
  | n + 1, c :: s => c &&& 0xC0 == 0x80 && isValidUtf8 n s

def checkName (name : Opaque) : Status :=
  if name = [] then .inval
  else if 255 < name.length then .nametoolong
  else if name = [46] ∨ name = [46, 46] ∨ 47 ∈ name then .badname
  else if !isValidUtf8 0 name then .inval
  else .ok

/-! ## Handles in use -/

/-- What the server asks the backend. Errors are the statuses they are answered with. -/
structure Backend where
  getAttr : Nat → Except Status Attr
  lookup : Nat → Opaque → Except Status Attr
  listXattr : Nat → Except Status (List Opaque)
  getXattr : Nat → Opaque → Credentials → Except Status Opaque
  /-- The answer to `READ` of a file. -/
  read : Nat → Nat → Nat → Except Status (Bool × Opaque)

structure Resolved where
  fh : FileHandle
  attr : Attr
  xattrName : Opaque := []

def resolveXattrName (b : Backend) (ino hash : Nat) : Except Status Opaque := do
  match (← b.listXattr ino).find? (hashName · == hash) with
  | some name => .ok name
  | none => .error .stale

/-- The part of a value that is read, and whether it is the end. -/
def valuePart (offset count : Nat) (value : Opaque) : Bool × Opaque :=
  let data := (value.drop offset).take count
  (decide (value.length ≤ (offset + data.length) % 2 ^ 64), data)

namespace Server

variable (cfg : Config) (maxRead : Nat) (s : Server) (b : Backend) (fsid : UInt64)

def resolve (fh : FileHandle) : Except Status Resolved := do
  let attr ← b.getAttr fh.ino
  match fh.kind with
  | .object => .ok { fh, attr := (s.frozenAttrs.find? fh.ino).getD attr }
  | .attrDir => .ok { fh, attr := { attr with mode := 0o40555 } }
  | .namedAttr =>
    let xattrName ← resolveXattrName b fh.ino fh.aux
    .ok { fh, attr := { attr with mode := 0o100444 }, xattrName }

def lookupChild (dir : Resolved) (name : Opaque) : Except Status Resolved :=
  match checkName name with
  | .ok =>
    match dir.fh.kind with
    | .attrDir => do
      if name ∈ (← b.listXattr dir.fh.ino) then
        s.resolve b ⟨.namedAttr, fsid.toNat, dir.fh.ino, hashName name⟩
      else .error .noent
    | .namedAttr => .error .notdir
    | .object =>
      if isLnk dir.attr.mode then .error .symlink
      else if !isDir dir.attr.mode then .error .notdir
      else do
        let attr ← b.lookup dir.fh.ino name
        .ok { fh := ⟨.object, fsid.toNat, attr.ino, 0⟩, attr }
  | status => .error status

def opLookup (fh : FileHandle) (name : Opaque) : Except Status FileHandle := do
  let child ← s.lookupChild b fsid (← s.resolve b fh) name
  .ok child.fh

def opGetfh (fh : FileHandle) : Bytes := putOpaque fh.encode

def opPutfh (args : Bytes) : Except Status FileHandle :=
  match (Decoder.getOpaque 128).parse args with
  | none => .error .badxdr
  | some (raw, _) =>
    match FileHandle.decode raw.1 with
    | none => .error .badhandle
    | some fh => if fh.fsid ≠ fsid.toNat then .error .stale else .ok fh

def checkReadStateid (stateid : Stateid) (fh : FileHandle) : Status :=
  if stateid = ⟨0, 0, 0⟩ ∨ stateid = ⟨2 ^ 32 - 1, 2 ^ 32 - 1, 2 ^ 64 - 1⟩ then .ok
  else
    match s.findOpenState cfg stateid false with
    | .ok st => if st.fh = fh then .ok else .badStateid
    | .error .badStateid =>
      if (s.delegations.find? stateid.other).any (·.fh = fh) then .ok else .badStateid
    | .error status => status

def opRead (fh : FileHandle) (stateid : Stateid) (offset count : Nat) (creds : Credentials) :
    Except Status (Bool × Opaque) := do
  let obj ← s.resolve b fh
  if fh.kind = .attrDir ∨ isDir obj.attr.mode then .error .isdir
  else if !isReg obj.attr.mode then .error .inval
  else
    match s.checkReadStateid cfg stateid fh with
    | .ok =>
      let count := min count maxRead
      if fh.kind = .namedAttr then do
        let value ← b.getXattr fh.ino obj.xattrName creds
        .ok (valuePart offset count value)
      else b.read fh.ino offset count
    | status => .error status

/-! ## Faithful handles -/

def Lists (ino : Nat) (names : List Opaque) : Prop :=
  ino < 2 ^ 64 ∧ (∃ attr, b.getAttr ino = .ok attr) ∧ b.listXattr ino = .ok names

def passed : Nat → FileHandle → Except Status FileHandle
  | 0, fh => .ok fh
  | k + 1, fh => do passed k (← opPutfh fsid (opGetfh fh))

/-- The handle from the attribute directory stands for the name, also after `GETFH` and `PUTFH`. -/
def Faithful (ino : Nat) (n : Opaque) : Prop :=
  ∃ fh, s.opLookup b fsid ⟨.attrDir, fsid.toNat, ino, 0⟩ n = .ok fh ∧
    ∀ k, ∃ fh' obj, passed fsid k fh = .ok fh' ∧
      s.resolve b fh' = .ok obj ∧ obj.xattrName = n ∧
      ∀ stateid offset count creds, s.checkReadStateid cfg stateid fh' = .ok →
        s.opRead cfg maxRead b fh' stateid offset count creds =
          (b.getXattr ino n creds).map (valuePart offset (min count maxRead))

variable {cfg maxRead s b fsid} {ino : Nat} {names : List Opaque} {n : Opaque}

theorem fits_named (h : ino < 2 ^ 64) : FileHandle.Fits ⟨.namedAttr, fsid.toNat, ino, hashName n⟩ :=
  ⟨fsid.toNat_lt, h, (fnv1a n).toNat_lt⟩

theorem opPutfh_opGetfh {fh : FileHandle} (h : fh.Fits) (hfsid : fh.fsid = fsid.toNat) :
    opPutfh fsid (opGetfh fh) = .ok fh := by
  have hparse := @Decoder.parse_getOpaque 128 (by decide) ⟨fh.encode, (by decide : 32 ≤ 128)⟩ []
  rw [append_nil] at hparse
  rw [opPutfh, opGetfh, hparse]
  dsimp only
  rw [FileHandle.decode_encode h]
  exact if_neg (not_not.mpr hfsid)

theorem passed_eq {fh : FileHandle} (h : fh.Fits) (hfsid : fh.fsid = fsid.toNat) (k : Nat) :
    passed fsid k fh = .ok fh := by
  induction k with
  | zero => rfl
  | succ k ih =>
    rw [passed, opPutfh_opGetfh h hfsid]
    exact ih

theorem resolve_named (fsid : UInt64) {hash m} (hb : Lists b ino names)
    (hm : names.find? (hashName · == hash) = some m) :
    ∃ obj, s.resolve b ⟨.namedAttr, fsid.toNat, ino, hash⟩ = .ok obj ∧
      obj.fh = ⟨.namedAttr, fsid.toNat, ino, hash⟩ ∧ obj.attr.mode = 0o100444 ∧
      obj.xattrName = m := by
  obtain ⟨-, ⟨attr, hattr⟩, hlist⟩ := hb
  have hname : resolveXattrName b ino hash = .ok m := by
    rw [resolveXattrName, hlist]
    change (match names.find? _ with | some name => _ | none => _) = _
    rw [hm]
  rw [resolve, hattr]
  change ∃ obj, ((resolveXattrName b ino hash).bind _ : Except Status Resolved) = .ok obj ∧ _
  rw [hname]
  exact ⟨_, rfl, rfl, rfl, rfl⟩

section

variable (hb : Lists b ino names) (hn : n ∈ names) (hname : checkName n = .ok)
include hb hn hname

theorem opLookup_named : s.opLookup b fsid ⟨.attrDir, fsid.toNat, ino, 0⟩ n =
    .ok ⟨.namedAttr, fsid.toNat, ino, hashName n⟩ := by
  obtain ⟨m, hm⟩ : ∃ m, names.find? (hashName · == hashName n) = some m :=
    Option.isSome_iff_exists.mp (find?_isSome.mpr ⟨n, hn, beq_self_eq_true _⟩)
  obtain ⟨obj, hobj, hfh, -⟩ := resolve_named (s := s) fsid hb hm
  obtain ⟨-, ⟨attr, hattr⟩, hlist⟩ := hb
  have hchild : ∀ attr', s.lookupChild b fsid ⟨⟨.attrDir, fsid.toNat, ino, 0⟩, attr', []⟩ n =
      .ok obj := by
    intro attr'
    rw [lookupChild, hname]
    change ((b.listXattr ino).bind fun names => if n ∈ names then _ else _) = _
    rw [hlist]
    exact (if_pos hn).trans hobj
  rw [opLookup, resolve, hattr]
  change ((s.lookupChild b fsid _ n).bind _ : Except Status FileHandle) = _
  rw [hchild, ← hfh]
  rfl

/-- A handle is faithful if and only if no other name with its hash is found first. -/
theorem faithful_iff : Faithful cfg maxRead s b fsid ino n ↔
    names.find? (hashName · == hashName n) = some n := by
  have hlookup : s.opLookup b fsid _ n = _ := opLookup_named hb hn hname
  constructor
  · rintro ⟨fh, hfh, hpass⟩
    cases hlookup.symm.trans hfh
    obtain ⟨m, hm⟩ : ∃ m, names.find? (hashName · == hashName n) = some m :=
      Option.isSome_iff_exists.mp (find?_isSome.mpr ⟨n, hn, beq_self_eq_true _⟩)
    obtain ⟨obj, hobj, -, -, rfl⟩ := resolve_named (s := s) fsid hb hm
    obtain ⟨fh', obj', hzero, hobj', rfl, -⟩ := hpass 0
    cases hzero
    cases hobj.symm.trans hobj'
    exact hm
  · intro hm
    obtain ⟨obj, hobj, -, hmode, hattr⟩ := resolve_named (s := s) fsid hb hm
    refine ⟨_, hlookup, fun k => ⟨_, obj, passed_eq (fits_named hb.1) rfl k, hobj, hattr, ?_⟩⟩
    intro stateid offset count creds hstateid
    rw [opRead, hobj]
    simp only [bind, Except.bind, reduceCtorEq, hmode, hstateid, hattr, if_true]
    cases b.getXattr ino n creds <;> rfl

end

theorem find?_hash (hn : n ∈ names) : names.find? (hashName · == hashName n) = some n ↔
    ∀ m ∈ names.takeWhile (· ≠ n), hashName m ≠ hashName n := by
  induction names with
  | nil => cases hn
  | cons m names ih =>
    by_cases hm : m = n
    · subst hm
      simp
    have hn' := (mem_cons.mp hn).resolve_left (Ne.symm hm)
    by_cases hh : hashName m = hashName n
    · simp [hm, hh]
    · simp [hm, hh, ih hn']

/-- The handles of named attributes are faithful, and different for different attributes and
objects, if and only if no name that can be looked up has the hash of another name that is listed
before it. -/
theorem named_attributes_faithful_iff (cfg : Config) (maxRead : Nat) (s : Server) (b : Backend)
    (fsid : UInt64) : ((∀ ino names n, Lists b ino names → n ∈ names → checkName n = .ok →
      Faithful cfg maxRead s b fsid ino n) ∧
    ∀ ino ino' names names' n n' fh fh', Lists b ino names → Lists b ino' names' →
      n ∈ names → n' ∈ names' → checkName n = .ok → checkName n' = .ok →
      s.opLookup b fsid ⟨.attrDir, fsid.toNat, ino, 0⟩ n = .ok fh →
      s.opLookup b fsid ⟨.attrDir, fsid.toNat, ino', 0⟩ n' = .ok fh' →
      fh.encode = fh'.encode → ino = ino' ∧ n = n') ↔
    ∀ ino names n, Lists b ino names → n ∈ names → checkName n = .ok →
      ∀ m ∈ names.takeWhile (· ≠ n), hashName m ≠ hashName n := by
  constructor
  · rintro ⟨hfaithful, -⟩ ino names n hb hn hname
    exact (find?_hash hn).mp ((faithful_iff hb hn hname).mp (hfaithful ino names n hb hn hname))
  intro h
  refine ⟨fun ino names n hb hn hname => ?_, ?_⟩
  · exact (faithful_iff hb hn hname).mpr ((find?_hash hn).mpr (h ino names n hb hn hname))
  intro ino ino' names names' n n' fh fh' hb hb' hn hn' hname hname' hfh hfh' henc
  cases (opLookup_named hb hn hname).symm.trans hfh
  cases (opLookup_named hb' hn' hname').symm.trans hfh'
  have heq := FileHandle.encode_inj (fits_named hb.1) (fits_named hb'.1) henc
  obtain ⟨-, -, rfl, hhash⟩ := FileHandle.mk.inj heq
  cases hb.2.2.symm.trans hb'.2.2
  have hfind := (find?_hash hn).mpr (h ino names n hb hn hname)
  have hfind' := (find?_hash hn').mpr (h ino names n' hb' hn' hname')
  rw [hhash] at hfind
  exact ⟨rfl, Option.some.inj (hfind.symm.trans hfind')⟩

def sameHash : List Opaque := ["user.jdgt".toUTF8.toList, "user.ctapa".toUTF8.toList]

def sampleBackend : Backend where
  getAttr ino := .ok ⟨ino, 0o100644, 0, 0⟩
  lookup _ _ := .error .noent
  listXattr _ := .ok sameHash
  getXattr _ name _ := .ok name
  read _ _ _ := .error .io

/-- The second name leads to the first one. -/
theorem named_attributes_collide :
    Lists sampleBackend 5 sameHash ∧ (∀ n ∈ sameHash, checkName n = .ok) ∧
      ∃ fh, (∀ n ∈ sameHash, Server.opLookup {} sampleBackend 1 ⟨.attrDir, 1, 5, 0⟩ n = .ok fh) ∧
        (Server.opRead ⟨7, 90, 65536, false⟩ 4096 {} sampleBackend fh ⟨0, 0, 0⟩ 0 64 ⟨0, 0, []⟩) =
          .ok (true, "user.jdgt".toUTF8.toList) := by
  have hb : Lists sampleBackend 5 sameHash := ⟨by decide, ⟨_, rfl⟩, rfl⟩
  have hname : ∀ n ∈ sameHash, checkName n = .ok := by decide +kernel
  have hhash : ∀ n ∈ sameHash, hashName n = 3012341641 := by decide +kernel
  refine ⟨hb, hname, ⟨.namedAttr, 1, 5, 3012341641⟩, fun n hn => ?_, by decide +kernel⟩
  rw [← hhash n hn]
  exact opLookup_named hb hn (hname n hn)

end Server

end Cvmfs.Nfs4
