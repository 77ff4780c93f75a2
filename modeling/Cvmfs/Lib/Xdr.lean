import Mathlib.Algebra.Order.Group.Nat

/-! # External data representation

Units of four bytes in big-endian order; byte strings are filled up to whole
units. The functions `put…` encode. Decoding is split in two: a `Decoder` says
which byte strings a routine asks for and what it makes of them, and whoever
has the bytes runs it. `Decoder.parse` runs it on a list of bytes and is the
meaning of the format; a reader with a cursor is another way to run it. -/

namespace Cvmfs.Lib.Xdr

open List UInt32

abbrev Bytes := List UInt8

abbrev UpTo (n : Nat) := {b : Bytes // b.length ≤ n}

abbrev Exactly (n : Nat) := {b : Bytes // b.length = n}

/-- The largest length that fits the prefix of a byte string. -/
abbrev maxLength : Nat := 2 ^ 32 - 1

/-- Bytes that fill `len` bytes up to whole units. -/
def pad4 (len : Nat) : Nat := (4 - (len &&& 3)) &&& 3

def padded (len : Nat) : Nat := len + pad4 len

theorem le_padded (len : Nat) : len ≤ padded len := Nat.le_add_right len _

/-! ## Encoding -/

def putU32 (v : UInt32) : Bytes :=
  [(v >>> 24).toUInt8, (v >>> 16).toUInt8, (v >>> 8).toUInt8, v.toUInt8]

def putU64 (v : UInt64) : Bytes := putU32 (v >>> 32).toUInt32 ++ putU32 v.toUInt32

def putBool (v : Bool) : Bytes := putU32 (if v then 1 else 0)

def putFixedOpaque (b : Bytes) : Bytes := b ++ replicate (pad4 b.length) 0

def putOpaque (b : Bytes) : Bytes := putU32 (ofNat b.length) ++ putFixedOpaque b

@[simp] theorem length_putU32 (v : UInt32) : (putU32 v).length = 4 := rfl

theorem length_putFixedOpaque (b : Bytes) : (putFixedOpaque b).length = padded b.length := by
  simp [putFixedOpaque, padded]

/-! ## Decoders -/

inductive Decoder (α : Type)
  | done (a : α)
  /-- The input is malformed, and the reader is told so. -/
  | fail
  /-- The caller gives up, the reader is left as it is. -/
  | reject
  /-- Asks for a byte string together with its padding. -/
  | bytes (len : Nat) (k : Exactly len → Decoder α)

namespace Decoder

variable {α β : Type}

def bind : Decoder α → (α → Decoder β) → Decoder β
  | done a, f => f a
  | fail, _ => fail
  | reject, _ => reject
  | bytes len k, f => bytes len fun b => (k b).bind f

instance : Monad Decoder where
  pure := done
  bind := bind

/-- Runs a decoder on a list of bytes; gives the value and what is left. -/
def parse : Decoder α → Bytes → Option (α × Bytes)
  | done a, bs => some (a, bs)
  | fail, _ => none
  | reject, _ => none
  | bytes len k, bs =>
    if h : padded len ≤ bs.length then
      (k ⟨bs.take len, length_take_of_le ((le_padded len).trans h)⟩).parse
        (bs.drop (padded len))
    else none

@[simp] theorem parse_pure (a : α) (bs : Bytes) :
    (Pure.pure a : Decoder α).parse bs = some (a, bs) := rfl

@[simp] theorem parse_bind (d : Decoder α) (f : α → Decoder β) (bs : Bytes) :
    (d >>= f).parse bs = (d.parse bs).bind fun r => (f r.1).parse r.2 := by
  change (d.bind f).parse bs = _
  induction d generalizing bs with
  | done a => rfl
  | fail => rfl
  | reject => rfl
  | bytes len k ih =>
    simp only [bind, parse]
    split
    · exact ih _ _
    · rfl

theorem parse_bytes_put {len} (k : Exactly len → Decoder α) (b : Exactly len) (tail : Bytes) :
    (bytes len k).parse (putFixedOpaque b.1 ++ tail) = (k b).parse tail := by
  have hlen : (putFixedOpaque b.1).length = padded len := by rw [length_putFixedOpaque, b.2]
  have htake : (putFixedOpaque b.1 ++ tail).take len = b.1 := by
    rw [putFixedOpaque, append_assoc, take_left' b.2]
  have hdrop : (putFixedOpaque b.1 ++ tail).drop (padded len) = tail := drop_left' hlen
  simp [parse, hlen, htake, hdrop]

/-! ## Words -/

def u32OfBytes (b : Exactly 4) : UInt32 :=
  (b.1.getD 0 0).toUInt32 <<< 24 ||| (b.1.getD 1 0).toUInt32 <<< 16 |||
    (b.1.getD 2 0).toUInt32 <<< 8 ||| (b.1.getD 3 0).toUInt32

variable (v : UInt32)

theorem join_bytes : (v >>> 24).toUInt8.toUInt32 <<< 24 ||| (v >>> 16).toUInt8.toUInt32 <<< 16 |||
      (v >>> 8).toUInt8.toUInt32 <<< 8 ||| v.toUInt8.toUInt32 = v := by
  apply UInt32.eq_of_toBitVec_eq
  simp only [UInt32.toBitVec_or, UInt32.toBitVec_shiftLeft, UInt8.toBitVec_toUInt32,
    UInt32.toBitVec_toUInt8, UInt32.toBitVec_shiftRight]
  simp
  generalize v.toBitVec = x
  ext i hi
  simp
  grind

theorem join_halves (v : UInt64) :
    (v >>> 32).toUInt32.toUInt64 <<< 32 ||| v.toUInt32.toUInt64 = v := by
  apply UInt64.eq_of_toBitVec_eq
  simp only [UInt64.toBitVec_or, UInt64.toBitVec_shiftLeft, toBitVec_toUInt64,
    UInt64.toBitVec_toUInt32, UInt64.toBitVec_shiftRight]
  simp
  generalize v.toBitVec = x
  ext i hi
  simp
  grind

theorem u32OfBytes_putU32 : u32OfBytes ⟨putU32 v, rfl⟩ = v := join_bytes v

def getU32 : Decoder UInt32 := bytes 4 fun b => done (u32OfBytes b)

def getU64 : Decoder UInt64 := do
  let hi ← getU32
  let lo ← getU32
  return hi.toUInt64 <<< 32 ||| lo.toUInt64

def getBool : Decoder Bool := do
  let u ← getU32
  if 1 < u then fail else return u == 1

@[simp] theorem parse_getU32 (tail : Bytes) : getU32.parse (putU32 v ++ tail) = some (v, tail) := by
  have h := parse_bytes_put (fun b => done (u32OfBytes b)) ⟨putU32 v, rfl⟩ tail
  have hput : putFixedOpaque (putU32 v) = putU32 v := by simp [putFixedOpaque, pad4]
  rw [hput, u32OfBytes_putU32] at h
  exact h

@[simp] theorem parse_getU64 (v : UInt64) (tail : Bytes) :
    getU64.parse (putU64 v ++ tail) = some (v, tail) := by
  simp only [getU64, putU64, append_assoc, parse_bind, parse_getU32, Option.bind_some,
    parse_pure, join_halves]

@[simp] theorem parse_getBool (v : Bool) (tail : Bytes) :
    getBool.parse (putBool v ++ tail) = some (v, tail) := by
  cases v <;> simp [getBool, putBool]

/-! ## Byte strings -/

def getFixedOpaque (len : Nat) : Decoder (Exactly len) := bytes len done

/-- A byte string with its length in front; longer ones than `limit` are malformed. -/
def getOpaque (limit : Nat) : Decoder (UpTo limit) := do
  let len ← getU32
  if h : len.toNat ≤ limit then bytes len.toNat fun b => done ⟨b.1, b.2.trans_le h⟩ else fail

@[simp] theorem parse_getFixedOpaque {len} (b : Exactly len) (tail : Bytes) :
    (getFixedOpaque len).parse (putFixedOpaque b.1 ++ tail) = some (b, tail) :=
  parse_bytes_put _ b tail

theorem toNat_ofNat_length {limit} (h : limit ≤ maxLength) (b : UpTo limit) :
    (ofNat b.1.length).toNat = b.1.length := by
  have hb : b.1.length ≤ maxLength := b.2.trans h
  rw [toNat_ofNat']
  exact Nat.mod_eq_of_lt (Nat.lt_of_le_sub_one (by decide) hb)

theorem parse_getOpaque {limit} (h : limit ≤ maxLength) (b : UpTo limit) (tail : Bytes) :
    (getOpaque limit).parse (putOpaque b.1 ++ tail) = some (b, tail) := by
  have hlen := toNat_ofNat_length h b
  have hle : (ofNat b.1.length).toNat ≤ limit := hlen.trans_le b.2
  simp only [getOpaque, putOpaque, append_assoc, parse_bind, parse_getU32,
    Option.bind_some, hle, dite_true]
  exact parse_bytes_put _ ⟨b.1, hlen.symm⟩ tail

theorem parse_getOpaque_long {limit b} (h : limit < b.length) (hb : b.length ≤ maxLength)
    (tail : Bytes) : (getOpaque limit).parse (putOpaque b ++ tail) = none := by
  have hlen := toNat_ofNat_length le_rfl ⟨b, hb⟩
  have hle : ¬(ofNat b.length).toNat ≤ limit := by
    rw [hlen]
    exact Nat.not_le.mpr h
  simp only [getOpaque, putOpaque, append_assoc, parse_bind, parse_getU32,
    Option.bind_some, hle, dite_false, parse]

/-! ## Repetition -/

def times (d : Decoder α) : (n : Nat) → Decoder {as : List α // as.length = n}
  | 0 => return ⟨[], rfl⟩
  | n + 1 => do
    let a ← d
    let as ← times d n
    return ⟨a :: as.1, congrArg (· + 1) as.2⟩

theorem parse_times {d : Decoder α} {put : α → Bytes} {as : List α} {n : Nat}
    (hn : as.length = n) (h : ∀ a ∈ as, ∀ tail, d.parse (put a ++ tail) = some (a, tail))
    (tail : Bytes) : (d.times n).parse (as.flatMap put ++ tail) = some (⟨as, hn⟩, tail) := by
  subst hn
  induction as with
  | nil => rfl
  | cons a as ih =>
    have ih := ih fun a ha => h a (.tail _ ha)
    simp [times, h a (.head _), ih]

end Decoder

end Cvmfs.Lib.Xdr
