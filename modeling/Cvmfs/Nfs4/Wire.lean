import Cvmfs.Nfs4.State
import Cvmfs.Nfs4.Xdr

/-! # Operations and results on the wire

The arguments of every operation the server knows, as it decodes them, and as a
client encodes them; the results, as the server writes them, and as a client
decodes them. Both are families over the operation code. A few operations are
answered before all of their arguments are read: `Encoded` is an operation
together with the bytes of its arguments that are left over. -/

namespace Cvmfs.Nfs4.Wire

open Lib.Xdr Lib.Xdr.Decoder

/-! ## Numbers -/

inductive OpCode
  | access
  | close
  | commit
  | create
  | delegpurge
  | delegreturn
  | getattr
  | getfh
  | link
  | lock
  | lockt
  | locku
  | lookup
  | lookupp
  | nverify
  | open
  | openattr
  | openConfirm
  | openDowngrade
  | putfh
  | putpubfh
  | putrootfh
  | read
  | readdir
  | readlink
  | remove
  | rename
  | renew
  | restorefh
  | savefh
  | secinfo
  | setattr
  | setclientid
  | setclientidConfirm
  | verify
  | write
  | releaseLockowner
deriving DecidableEq

/-- The values of `Nfs4Op`. -/
def OpCode.number : OpCode → UInt32
  | access => 3
  | close => 4
  | commit => 5
  | create => 6
  | delegpurge => 7
  | delegreturn => 8
  | getattr => 9
  | getfh => 10
  | link => 11
  | lock => 12
  | lockt => 13
  | locku => 14
  | lookup => 15
  | lookupp => 16
  | nverify => 17
  | .open => 18
  | openattr => 19
  | openConfirm => 20
  | openDowngrade => 21
  | putfh => 22
  | putpubfh => 23
  | putrootfh => 24
  | read => 25
  | readdir => 26
  | readlink => 27
  | remove => 28
  | rename => 29
  | renew => 30
  | restorefh => 31
  | savefh => 32
  | secinfo => 33
  | setattr => 34
  | setclientid => 35
  | setclientidConfirm => 36
  | verify => 37
  | write => 38
  | releaseLockowner => 39

def illegalNumber : UInt32 := 10044

def OpCode.all : List OpCode :=
  [access, close, commit, create, delegpurge, delegreturn, getattr, getfh, link, lock, lockt,
    locku, lookup, lookupp, nverify, .open, openattr, openConfirm, openDowngrade, putfh, putpubfh,
    putrootfh, read, readdir, readlink, remove, rename, renew, restorefh, savefh, secinfo, setattr,
    setclientid, setclientidConfirm, verify, write, releaseLockowner]

def OpCode.ofNumber (n : UInt32) : Option OpCode := all.find? fun c => c.number == n

/-- The values of `Nfs4Status`. -/
def statusNumber : Status → UInt32
  | .ok => 0
  | .perm => 1
  | .noent => 2
  | .io => 5
  | .access => 13
  | .notdir => 20
  | .isdir => 21
  | .inval => 22
  | .fbig => 27
  | .nospc => 28
  | .rofs => 30
  | .nametoolong => 63
  | .stale => 70
  | .badhandle => 10001
  | .badCookie => 10003
  | .notsupp => 10004
  | .toosmall => 10005
  | .serverfault => 10006
  | .delay => 10008
  | .same => 10009
  | .resource => 10018
  | .moved => 10019
  | .nofilehandle => 10020
  | .minorVersMismatch => 10021
  | .staleClientid => 10022
  | .staleStateid => 10023
  | .oldStateid => 10024
  | .badStateid => 10025
  | .badSeqid => 10026
  | .notSame => 10027
  | .symlink => 10029
  | .restorefh => 10030
  | .attrnotsupp => 10032
  | .reclaimBad => 10034
  | .badxdr => 10036
  | .badname => 10041
  | .opIllegal => 10044

def allStatus : List Status :=
  [.ok, .perm, .noent, .io, .access, .notdir, .isdir, .inval, .fbig, .nospc, .rofs, .nametoolong,
    .stale, .badhandle, .badCookie, .notsupp, .toosmall, .serverfault, .delay, .same, .resource,
    .moved, .nofilehandle, .minorVersMismatch, .staleClientid, .staleStateid, .oldStateid,
    .badStateid, .badSeqid, .notSame, .symlink, .restorefh, .attrnotsupp, .reclaimBad, .badxdr,
    .badname, .opIllegal]

def statusOfNumber (n : UInt32) : Option Status := allStatus.find? fun s => statusNumber s == n

variable (c : OpCode)

@[simp] theorem OpCode.ofNumber_number : ofNumber c.number = some c := by
  cases c <;> rfl

theorem OpCode.number_of_ofNumber {n c} (h : ofNumber n = some c) : c.number = n := by
  simpa using List.find?_some h

theorem OpCode.number_ne_illegal : c.number ≠ illegalNumber := by
  cases c <;> decide

@[simp] theorem statusOfNumber_number (s : Status) : statusOfNumber (statusNumber s) = some s := by
  cases s <;> rfl

abbrev Failure := {s : Status // s ≠ .ok ∧ s ≠ .opIllegal}

/-! ## Parts of arguments and results -/

/-- Names and identifiers, within `kNfs4OpaqueLimit`. -/
abbrev Name := UpTo 1024

abbrev Text := UpTo maxLength

/-- A raw file handle, within `kNfs4FhSize`. -/
abbrev RawHandle := UpTo 128

/-- `kNfs4VerifierSize` bytes. -/
abbrev Verifier := Exactly 8

structure Stateid where
  seqid : UInt32
  other : Exactly 12

def getStateid : Decoder Stateid := do
  let seqid ← getU32
  let other ← getFixedOpaque 12
  return { seqid, other }

def putStateid (s : Stateid) : Bytes := putU32 s.seqid ++ putFixedOpaque s.other.1

/-- A request for attributes: `DecodeBitmap` takes at most eight words. -/
abbrev Bitmap := {words : List UInt32 // words.length ≤ 8}

def decodeBitmap : Decoder Bitmap := do
  let len ← getU32
  if h : len.toNat ≤ 8 then
    let words ← getU32.times len.toNat
    return ⟨words.1, words.2.trans_le h⟩
  else reject

def putWords (words : List UInt32) : Bytes :=
  putU32 (UInt32.ofNat words.length) ++ words.flatMap putU32

@[simp] theorem parse_getStateid (s : Stateid) (tail : Bytes) :
    getStateid.parse (putStateid s ++ tail) = some (s, tail) := by
  simp [getStateid, putStateid]

@[simp] theorem parse_decodeBitmap (b : Bitmap) (tail : Bytes) :
    decodeBitmap.parse (putWords b.1 ++ tail) = some (b, tail) := by
  obtain ⟨words, hb⟩ := b
  have hlen : (UInt32.ofNat words.length).toNat = words.length := by
    rw [UInt32.toNat_ofNat']
    exact Nat.mod_eq_of_lt (by omega)
  have hle : (UInt32.ofNat words.length).toNat ≤ 8 := hlen.trans_le hb
  have hwords := parse_times hlen.symm (fun v _ => parse_getU32 v) tail
  simp only [decodeBitmap, putWords, List.append_assoc, parse_bind, parse_getU32, Option.bind_some,
    hle, dite_true, hwords, parse_pure]

@[simp] theorem parse_getName (b : Name) (tail : Bytes) :
    (getOpaque 1024).parse (putOpaque b.1 ++ tail) = some (b, tail) :=
  parse_getOpaque (by decide) b tail

@[simp] theorem parse_getText (b : Text) (tail : Bytes) :
    (getOpaque maxLength).parse (putOpaque b.1 ++ tail) = some (b, tail) :=
  parse_getOpaque le_rfl b tail

@[simp] theorem parse_getHandle (b : RawHandle) (tail : Bytes) :
    (getOpaque 128).parse (putOpaque b.1 ++ tail) = some (b, tail) :=
  parse_getOpaque (by decide) b tail

/-! ## Arguments -/

structure VerifyArgs where
  request : Bitmap
  values : Text

inductive OpenClaim
  | null (name : Name)
  | previous (delegationType : UInt32)
  | delegateCur (delegation : Stateid) (name : Name)

/-- How far `OpOpen` reads on behind the owner. -/
inductive OpenHow
  | create
  | claim (c : OpenClaim)
  | unknown (claimType : UInt32) (h : 2 < claimType)

structure OpenArgs where
  seqid : UInt32
  shareAccess : UInt32
  shareDeny : UInt32
  clientid : UInt64
  owner : Name
  how : OpenHow

structure SeqArgs where
  stateid : Stateid
  seqid : UInt32

structure DowngradeArgs where
  stateid : Stateid
  seqid : UInt32
  shareAccess : UInt32
  shareDeny : UInt32

structure ReadArgs where
  stateid : Stateid
  offset : UInt64
  count : UInt32

structure ReaddirArgs where
  cookie : UInt64
  verifier : Verifier
  dircount : UInt32
  maxcount : UInt32
  request : Bitmap

structure SetclientidArgs where
  verifier : Verifier
  name : Name
  cbProgram : UInt32
  netid : Text
  addr : Text
  cbIdent : UInt32

structure ConfirmArgs where
  clientid : UInt64
  confirm : Verifier

/-- The arguments that the server decodes. -/
@[reducible] def Args : OpCode → Type
  | .access => UInt32
  | .close => SeqArgs
  | .delegreturn => Stateid
  | .getattr => Bitmap
  | .lookup => Name
  | .nverify => VerifyArgs
  | .open => OpenArgs
  | .openattr => Bool
  | .openConfirm => SeqArgs
  | .openDowngrade => DowngradeArgs
  | .putfh => RawHandle
  | .read => ReadArgs
  | .readdir => ReaddirArgs
  | .renew => UInt64
  | .secinfo => Name
  | .setclientid => SetclientidArgs
  | .setclientidConfirm => ConfirmArgs
  | .verify => VerifyArgs
  | _ => Unit

def decodeClaim : Decoder OpenHow := do
  let claimType ← getU32
  if claimType = 0 then return .claim (.null (← getOpaque 1024))
  else if claimType = 1 then return .claim (.previous (← getU32))
  else if claimType = 2 then
    let delegation ← getStateid
    return .claim (.delegateCur delegation (← getOpaque 1024))
  else if h : 2 < claimType then return .unknown claimType h
  else reject

def decodeHow : Decoder OpenHow := do
  let openType ← getU32
  if openType = 1 then return .create else decodeClaim

def decodeVerify : Decoder VerifyArgs := do
  let request ← decodeBitmap
  let values ← getOpaque maxLength
  return { request, values }

/-- What the server reads of the arguments of an operation. -/
def decodeArgs : (c : OpCode) → Decoder (Args c)
  | .access => getU32
  | .close => do
    let seqid ← getU32
    let stateid ← getStateid
    return { stateid, seqid }
  | .delegreturn => getStateid
  | .getattr => decodeBitmap
  | .lookup => getOpaque 1024
  | .nverify => decodeVerify
  | .open => do
    let seqid ← getU32
    let shareAccess ← getU32
    let shareDeny ← getU32
    let clientid ← getU64
    let owner ← getOpaque 1024
    let how ← decodeHow
    return { seqid, shareAccess, shareDeny, clientid, owner, how }
  | .openattr => getBool
  | .openConfirm => do
    let stateid ← getStateid
    let seqid ← getU32
    return { stateid, seqid }
  | .openDowngrade => do
    let stateid ← getStateid
    let seqid ← getU32
    let shareAccess ← getU32
    let shareDeny ← getU32
    return { stateid, seqid, shareAccess, shareDeny }
  | .putfh => getOpaque 128
  | .read => do
    let stateid ← getStateid
    let offset ← getU64
    let count ← getU32
    return { stateid, offset, count }
  | .readdir => do
    let cookie ← getU64
    let verifier ← getFixedOpaque 8
    let dircount ← getU32
    let maxcount ← getU32
    let request ← decodeBitmap
    return { cookie, verifier, dircount, maxcount, request }
  | .renew => getU64
  | .secinfo => getOpaque 1024
  | .setclientid => do
    let verifier ← getFixedOpaque 8
    let name ← getOpaque 1024
    let cbProgram ← getU32
    let netid ← getOpaque maxLength
    let addr ← getOpaque maxLength
    let cbIdent ← getU32
    return { verifier, name, cbProgram, netid, addr, cbIdent }
  | .setclientidConfirm => do
    let clientid ← getU64
    let confirm ← getFixedOpaque 8
    return { clientid, confirm }
  | .verify => decodeVerify
  | .commit | .create | .delegpurge | .getfh | .link | .lock | .lockt | .locku | .lookupp
  | .putpubfh | .putrootfh | .readlink | .remove | .rename | .restorefh | .savefh | .setattr
  | .write | .releaseLockowner => return ()

/-- `open_claim4` behind its type, with the `openflag4` in front of it. -/
def putHow : OpenHow → Bytes
  | .create => putU32 1
  | .claim (.null name) => putU32 0 ++ putU32 0 ++ putOpaque name.1
  | .claim (.previous delegationType) => putU32 0 ++ putU32 1 ++ putU32 delegationType
  | .claim (.delegateCur delegation name) =>
    putU32 0 ++ putU32 2 ++ putStateid delegation ++ putOpaque name.1
  | .unknown claimType _ => putU32 0 ++ putU32 claimType

/-- The arguments as the protocol lays them out, as far as the server decodes them. -/
def putArgs : (c : OpCode) → Args c → Bytes
  | .access, requested => putU32 requested
  | .close, a => putU32 a.seqid ++ putStateid a.stateid
  | .delegreturn, stateid => putStateid stateid
  | .getattr, request => putWords request.1
  | .lookup, name => putOpaque name.1
  | .nverify, a => putWords a.request.1 ++ putOpaque a.values.1
  | .open, a =>
    putU32 a.seqid ++ putU32 a.shareAccess ++ putU32 a.shareDeny ++ putU64 a.clientid ++
      putOpaque a.owner.1 ++ putHow a.how
  | .openattr, createDir => putBool createDir
  | .openConfirm, a => putStateid a.stateid ++ putU32 a.seqid
  | .openDowngrade, a =>
    putStateid a.stateid ++ putU32 a.seqid ++ putU32 a.shareAccess ++ putU32 a.shareDeny
  | .putfh, fh => putOpaque fh.1
  | .read, a => putStateid a.stateid ++ putU64 a.offset ++ putU32 a.count
  | .readdir, a =>
    putU64 a.cookie ++ putFixedOpaque a.verifier.1 ++ putU32 a.dircount ++ putU32 a.maxcount ++
      putWords a.request.1
  | .renew, clientid => putU64 clientid
  | .secinfo, name => putOpaque name.1
  | .setclientid, a =>
    putFixedOpaque a.verifier.1 ++ putOpaque a.name.1 ++ putU32 a.cbProgram ++
      putOpaque a.netid.1 ++ putOpaque a.addr.1 ++ putU32 a.cbIdent
  | .setclientidConfirm, a => putU64 a.clientid ++ putFixedOpaque a.confirm.1
  | .verify, a => putWords a.request.1 ++ putOpaque a.values.1
  | .commit, _ | .create, _ | .delegpurge, _ | .getfh, _ | .link, _ | .lock, _ | .lockt, _
  | .locku, _ | .lookupp, _ | .putpubfh, _ | .putrootfh, _ | .readlink, _ | .remove, _
  | .rename, _ | .restorefh, _ | .savefh, _ | .setattr, _ | .write, _
  | .releaseLockowner, _ => []

@[simp] theorem parse_decodeHow (how : OpenHow) (tail : Bytes) :
    decodeHow.parse (putHow how ++ tail) = some (how, tail) := by
  cases how with
  | create => simp [decodeHow, putHow]
  | claim c => cases c <;> simp [decodeHow, decodeClaim, putHow]
  | unknown claimType h =>
    have h₀ : claimType ≠ 0 := by rintro rfl; exact absurd h (by decide)
    have h₁ : claimType ≠ 1 := by rintro rfl; exact absurd h (by decide)
    have h₂ : claimType ≠ 2 := by rintro rfl; exact absurd h (by decide)
    simp [decodeHow, decodeClaim, putHow, h₀, h₁, h₂, h]

theorem parse_decodeArgs (a : Args c) (tail : Bytes) :
    (decodeArgs c).parse (putArgs c a ++ tail) = some (a, tail) := by
  cases c <;> simp [decodeArgs, putArgs, decodeVerify]

end Cvmfs.Nfs4.Wire
