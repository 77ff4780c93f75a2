import Mathlib.Data.List.DropRight
import Cvmfs.Nfs4.Wire

/-! # Results on the wire

The body of each result as the server writes it, and as a client decodes it. A
reply is a status, the tag and one result per operation that was executed. -/

namespace Cvmfs.Nfs4.Wire

open Lib.Xdr Lib.Xdr.Decoder List Nat

/-! ## Attributes -/

/-- Trailing zero words are dropped. -/
def putBitmap (words : List UInt32) : Bytes := putWords (words.rdropWhile (· == 0))

/-- The attributes that are returned, without trailing zero words. -/
structure Mask where
  words : List UInt32
  short : words.length ≤ 8
  trimmed : words.rdropWhile (· == 0) = words

structure Fattr where
  mask : Mask
  values : Text

def putFattr (f : Fattr) : Bytes := putBitmap f.mask.words ++ putOpaque f.values.1

def getFattr : Decoder Fattr := do
  let words ← decodeBitmap
  let values ← getOpaque maxLength
  if trimmed : words.1.rdropWhile (· == 0) = words.1 then
    return { mask := { words := words.1, short := words.2, trimmed }, values }
  else reject

@[simp] theorem parse_getFattr (f : Fattr) (tail : Bytes) :
    getFattr.parse (putFattr f ++ tail) = some (f, tail) := by
  obtain ⟨⟨words, short, trimmed⟩, values⟩ := f
  have hwords := parse_decodeBitmap ⟨words, short⟩
  simp only at hwords
  simp only [getFattr, putFattr, putBitmap, trimmed, append_assoc, parse_bind, hwords,
    Option.bind_some, parse_getText, dif_pos, parse_pure]

/-! ## Opens -/

/-- `open_read_delegation4`, with what `PutDelegation` writes by default. -/
structure ReadDelegation where
  stateid : Stateid
  recalled : Bool := false
  aceType : UInt32 := 0
  aceFlags : UInt32 := 0
  accessMask : UInt32 := 0
  who : Text := ⟨"EVERYONE@".toList.map fun c => UInt8.ofNat c.toNat, by decide⟩

/-- `OPEN4resok`, with what `OpOpen` writes by default. -/
structure OpenResult where
  stateid : Stateid
  atomic : Bool := true
  before : UInt64 := 0
  after : UInt64 := 0
  rflags : UInt32 := 4
  attrset : Bitmap := ⟨[], by decide⟩
  delegation : Option ReadDelegation

def putDelegation : Option ReadDelegation → Bytes
  | none => putU32 0
  | some d =>
    putU32 1 ++ putStateid d.stateid ++ putBool d.recalled ++ putU32 d.aceType ++
      putU32 d.aceFlags ++ putU32 d.accessMask ++ putOpaque d.who.1

def getDelegation : Decoder (Option ReadDelegation) := do
  let type ← getU32
  if type = 0 then return none
  else if type = 1 then
    let stateid ← getStateid
    let recalled ← getBool
    let aceType ← getU32
    let aceFlags ← getU32
    let accessMask ← getU32
    let who ← getOpaque maxLength
    return some { stateid, recalled, aceType, aceFlags, accessMask, who }
  else reject

@[simp] theorem parse_getDelegation (d : Option ReadDelegation) (tail : Bytes) :
    getDelegation.parse (putDelegation d ++ tail) = some (d, tail) := by
  cases d <;> simp [getDelegation, putDelegation]

/-! ## Directory listings -/

structure DirEntry where
  cookie : UInt64
  name : Text
  attrs : Fattr

structure Listing where
  verifier : Verifier
  entries : List DirEntry
  eof : Bool

def putEntry (e : DirEntry) : Bytes :=
  putBool true ++ putU64 e.cookie ++ putOpaque e.name.1 ++ putFattr e.attrs

/-- The list ends with the first flag that is not set; `fuel` bounds its length. -/
def getEntries : Nat → Decoder (List DirEntry)
  | 0 => reject
  | fuel + 1 => do
    if ← getBool then
      let cookie ← getU64
      let name ← getOpaque maxLength
      let attrs ← getFattr
      let rest ← getEntries fuel
      return { cookie, name, attrs } :: rest
    else return []

theorem parse_getEntries {es fuel} (h : es.length < fuel) (tail : Bytes) :
    (getEntries fuel).parse (es.flatMap putEntry ++ putBool false ++ tail) = some (es, tail) := by
  induction es generalizing fuel with
  | nil =>
    obtain ⟨fuel, rfl⟩ := exists_eq_add_one_of_ne_zero (ne_of_gt h)
    simp [getEntries]
  | cons e es ih =>
    obtain ⟨fuel, rfl⟩ := exists_eq_add_one_of_ne_zero (ne_zero_of_lt h)
    have ih := ih (lt_of_succ_lt_succ h)
    rw [append_assoc] at ih
    simp [getEntries, putEntry, ih]

theorem length_entries_le (es : List DirEntry) : es.length ≤ (es.flatMap putEntry).length := by
  rw [length_flatMap]
  induction es with
  | nil => exact le_rfl
  | cons e es ih =>
    have hone : 1 ≤ (putEntry e).length := by
      simp only [putEntry, putBool, length_append, length_putU32]
      omega
    simp only [map_cons, sum_cons, length_cons]
    omega

/-! ## Results -/

@[reducible] def Result : OpCode → Type
  | .access => UInt32 × UInt32
  | .close => Stateid
  | .getattr => Fattr
  | .getfh => RawHandle
  | .open => OpenResult
  | .openConfirm => Stateid
  | .openDowngrade => Stateid
  | .read => Bool × Text
  | .readdir => Listing
  | .readlink => Text
  | .setclientid => UInt64 × Verifier
  | _ => Unit

def putResult : (c : OpCode) → Result c → Bytes
  | .access, (supported, access) => putU32 supported ++ putU32 access
  | .close, stateid => putStateid stateid
  | .getattr, attrs => putFattr attrs
  | .getfh, fh => putOpaque fh.1
  | .open, r =>
    putStateid r.stateid ++ putBool r.atomic ++ putU64 r.before ++ putU64 r.after ++
      putU32 r.rflags ++ putWords r.attrset.1 ++ putDelegation r.delegation
  | .openConfirm, stateid => putStateid stateid
  | .openDowngrade, stateid => putStateid stateid
  | .read, (eof, data) => putBool eof ++ putOpaque data.1
  | .readdir, r =>
    putFixedOpaque r.verifier.1 ++ (r.entries.flatMap putEntry ++ putBool false) ++ putBool r.eof
  | .readlink, target => putOpaque target.1
  -- one flavor, kAuthSys
  | .secinfo, _ => putU32 1 ++ putU32 1
  | .setclientid, (clientid, confirm) => putU64 clientid ++ putFixedOpaque confirm.1
  | .commit, _ | .create, _ | .delegpurge, _ | .delegreturn, _ | .link, _ | .lock, _ | .lockt, _
  | .locku, _ | .lookup, _ | .lookupp, _ | .nverify, _ | .openattr, _ | .putfh, _ | .putpubfh, _
  | .putrootfh, _ | .remove, _ | .rename, _ | .renew, _ | .restorefh, _ | .savefh, _ | .setattr, _
  | .setclientidConfirm, _ | .verify, _ | .write, _ | .releaseLockowner, _ => []

def getResult (fuel : Nat) : (c : OpCode) → Decoder (Result c)
  | .access => do
    let supported ← getU32
    let access ← getU32
    return (supported, access)
  | .close => getStateid
  | .getattr => getFattr
  | .getfh => getOpaque 128
  | .open => do
    let stateid ← getStateid
    let atomic ← getBool
    let before ← getU64
    let after ← getU64
    let rflags ← getU32
    let attrset ← decodeBitmap
    let delegation ← getDelegation
    return { stateid, atomic, before, after, rflags, attrset, delegation }
  | .openConfirm => getStateid
  | .openDowngrade => getStateid
  | .read => do
    let eof ← getBool
    let data ← getOpaque maxLength
    return (eof, data)
  | .readdir => do
    let verifier ← getFixedOpaque 8
    let entries ← getEntries fuel
    let eof ← getBool
    return { verifier, entries, eof }
  | .readlink => getOpaque maxLength
  | .secinfo => do
    let flavors ← getU32
    let flavor ← getU32
    if flavors = 1 ∧ flavor = 1 then return () else reject
  | .setclientid => do
    let clientid ← getU64
    let confirm ← getFixedOpaque 8
    return (clientid, confirm)
  | .commit | .create | .delegpurge | .delegreturn | .link | .lock | .lockt | .locku | .lookup
  | .lookupp | .nverify | .openattr | .putfh | .putpubfh | .putrootfh | .remove | .rename | .renew
  | .restorefh | .savefh | .setattr | .setclientidConfirm | .verify | .write
  | .releaseLockowner => return ()

theorem parse_getResult {fuel c r} (h : (putResult c r).length ≤ fuel) (tail : Bytes) :
    (getResult fuel c).parse (putResult c r ++ tail) = some (r, tail) := by
  cases c
  case readdir =>
    have hlen : r.entries.length < fuel := by
      have hle := length_entries_le r.entries
      simp only [putResult, length_append, putBool, length_putU32] at h
      omega
    have hentries := parse_getEntries hlen
    simp only [append_assoc] at hentries
    simp [getResult, putResult, hentries]
  all_goals simp [getResult, putResult]

/-! ## Replies -/

inductive Item
  | done (c : OpCode) (r : Result c)
  | failed (c : OpCode) (s : Failure)
  | illegal

def Item.status : Item → Status
  | done _ _ => .ok
  | failed _ s => s.1
  | illegal => .opIllegal

/-- `SETATTR` returns the attributes that were set on failure, too. -/
def putItem : Item → Bytes
  | .done c r => putU32 c.number ++ putU32 (statusNumber .ok) ++ putResult c r
  | .failed c s =>
    putU32 c.number ++ putU32 (statusNumber s.1) ++ (if c = .setattr then putWords [] else [])
  | .illegal => putU32 illegalNumber ++ putU32 (statusNumber .opIllegal)

def getStatus : Decoder Status := do
  match statusOfNumber (← getU32) with
  | some s => return s
  | none => reject

def getItem (fuel : Nat) : Decoder Item := do
  let op ← getU32
  let status ← getStatus
  if op = illegalNumber then
    if status = .opIllegal then return .illegal else reject
  else
    match OpCode.ofNumber op with
    | none => reject
    | some c =>
      if status = .ok then return .done c (← getResult fuel c)
      else if h : status ≠ .ok ∧ status ≠ .opIllegal then
        if c = .setattr then
          let _ ← decodeBitmap
          return .failed c ⟨status, h⟩
        else return .failed c ⟨status, h⟩
      else reject

@[simp] theorem parse_getStatus (s : Status) (tail : Bytes) :
    getStatus.parse (putU32 (statusNumber s) ++ tail) = some (s, tail) := by
  simp [getStatus]

theorem parse_getItem {fuel i} (h : (putItem i).length ≤ fuel) (tail : Bytes) :
    (getItem fuel).parse (putItem i ++ tail) = some (i, tail) := by
  cases i with
  | done c r =>
    have hlen : (putResult c r).length ≤ fuel := by
      simp only [putItem, length_append] at h
      omega
    simp [getItem, putItem, c.number_ne_illegal, parse_getResult hlen]
  | failed c s =>
    obtain ⟨s, hs⟩ := s
    have hempty := parse_decodeBitmap ⟨[], by decide⟩
    by_cases hc : c = .setattr
    · subst hc
      simp [getItem, putItem, OpCode.number_ne_illegal, hs, hempty]
    · simp [getItem, putItem, OpCode.number_ne_illegal, hs, hc]
  | illegal => simp [getItem, putItem]

structure Reply where
  status : Status
  tag : Name
  items : List Item

def putReply (r : Reply) : Bytes :=
  putU32 (statusNumber r.status) ++ putOpaque r.tag.1 ++ putU32 (UInt32.ofNat r.items.length) ++
    r.items.flatMap putItem

def getReply (fuel : Nat) : Decoder Reply := do
  let status ← getStatus
  let tag ← getOpaque 1024
  let count ← getU32
  let items ← (getItem fuel).times count.toNat
  return { status, tag, items := items.1 }

/-- Decodes a reply that fills all of its bytes. -/
def decodeReply (bs : Bytes) : Option Reply :=
  match (getReply bs.length).parse bs with
  | some (r, []) => some r
  | _ => none

theorem decodeReply_put {r} (h : r.items.length ≤ maxLength) :
    decodeReply (putReply r) = some r := by
  have hlen : (UInt32.ofNat r.items.length).toNat = r.items.length := by
    rw [UInt32.toNat_ofNat']
    exact mod_eq_of_lt (lt_of_le_sub_one (by decide) h)
  have hitem : ∀ i ∈ r.items, ∀ tail,
      (getItem (putReply r).length).parse (putItem i ++ tail) = some (i, tail) := by
    intro i hi tail
    refine parse_getItem ?_ tail
    have hsum : (putItem i).length ≤ (r.items.flatMap putItem).length := by
      rw [length_flatMap]
      exact le_sum_of_mem (mem_map_of_mem hi)
    simp only [putReply, length_append]
    omega
  have hitems := parse_times hlen.symm hitem []
  rw [append_nil] at hitems
  have hparse : (getReply (putReply r).length).parse (putReply r) = some (r, []) := by
    generalize (putReply r).length = fuel at hitems ⊢
    simp [getReply, putReply, hitems]
  rw [decodeReply, hparse]

end Cvmfs.Nfs4.Wire
