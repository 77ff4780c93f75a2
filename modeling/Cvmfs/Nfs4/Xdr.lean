import Cvmfs.Lib.Xdr

/-! # Reader and writer of the NFS server

`nfs4/xdr.cc`. The reader walks over a borrowed buffer; its errors are sticky, so
that a routine can decode a whole structure and check once. All getters have the
same shape, a check with `Take`, a read and an advance of the cursor, which is
`XdrReader.run` on a byte string of the decoder. The field `reach` records
the furthest byte that was looked at.

The writer is its buffer; next to appending, a slot can be reserved and patched
later, and the buffer can be cut back. -/

namespace Cvmfs.Nfs4

open Lib.Xdr List

/-! ## Reader -/

structure XdrReader where
  data : Bytes
  pos : Nat := 0
  ok : Bool := true
  /-- One past the last byte of the buffer that was read. -/
  reach : Nat := 0

namespace XdrReader

variable {α : Type}

/-- The test in `Take`. -/
def take (r : XdrReader) (len : Nat) : Bool := r.ok && decide (len ≤ r.data.length - r.pos)

variable {r : XdrReader}

theorem length_of_take {len} (h : r.take (padded len) = true) :
    ((r.data.drop r.pos).take len).length = len := by
  have hlen : padded len ≤ r.data.length - r.pos := by simpa using (Bool.and_eq_true_iff.mp h).2
  rw [length_take, length_drop]
  exact Nat.min_eq_left ((le_padded len).trans hlen)

def run : Decoder α → XdrReader → Option α × XdrReader
  | .done a, r => (some a, r)
  | .fail, r => (none, { r with ok := false })
  | .reject, r => (none, r)
  | .bytes len k, r =>
    if h : r.take (padded len) = true then
      run (k ⟨(r.data.drop r.pos).take len, length_of_take h⟩)
        { r with pos := r.pos + padded len, reach := max r.reach (r.pos + len) }
    else (none, { r with ok := false })

def rest (r : XdrReader) : Bytes := r.data.drop r.pos

/-- Neither the cursor nor a read has left the buffer. -/
structure InBounds (r : XdrReader) : Prop where
  pos : r.pos ≤ r.data.length
  reach : r.reach ≤ r.data.length

theorem inBounds_start (data : Bytes) : InBounds { data } := ⟨Nat.zero_le _, Nat.zero_le _⟩

theorem InBounds.advance (hr : r.InBounds) {len} (h : r.take (padded len) = true) :
    InBounds { r with pos := r.pos + padded len, reach := max r.reach (r.pos + len) } := by
  have hlen : padded len ≤ r.data.length - r.pos := by simpa using (Bool.and_eq_true_iff.mp h).2
  have hpos := hr.pos
  have hle := le_padded len
  exact ⟨show r.pos + padded len ≤ r.data.length by omega,
    max_le hr.reach (show r.pos + len ≤ r.data.length by omega)⟩

theorem InBounds.run (hr : r.InBounds) (d : Decoder α) : (run d r).2.InBounds := by
  induction d generalizing r with
  | done a => exact hr
  | fail => exact ⟨hr.pos, hr.reach⟩
  | reject => exact hr
  | bytes len k ih =>
    rw [XdrReader.run]
    split
    · exact ih _ (hr.advance ‹_›)
    · exact ⟨hr.pos, hr.reach⟩

variable {d : Decoder α}

theorem run_of_parse (hok : r.ok = true) {a tail} (h : d.parse r.rest = some (a, tail)) :
    ∃ r', run d r = (some a, r') ∧ r'.ok = true ∧ r'.rest = tail := by
  induction d generalizing r with
  | done b =>
    cases h
    exact ⟨r, rfl, hok, rfl⟩
  | fail => cases h
  | reject => cases h
  | bytes len k ih =>
    rw [Decoder.parse] at h
    split at h
    case isTrue hlen =>
      have htake : r.take (padded len) = true := by
        rw [rest, length_drop] at hlen
        simp [take, hok, hlen]
      rw [run, dif_pos htake]
      refine ih _ ?_ ?_
      · exact hok
      · simp only [rest, drop_drop] at h
        exact h
    case isFalse => cases h

theorem run_of_parse_none (hok : r.ok = true) (h : d.parse r.rest = none) : (run d r).1 = none := by
  induction d generalizing r with
  | done b => cases h
  | fail => rfl
  | reject => rfl
  | bytes len k ih =>
    rw [run]
    split
    case isTrue htake =>
      have hlen : padded len ≤ r.rest.length := by
        rw [rest, length_drop]
        simpa [take, hok] using htake
      rw [Decoder.parse, dif_pos hlen] at h
      refine ih _ ?_ ?_
      · exact hok
      · simp only [rest, drop_drop] at h
        exact h
    case isFalse => rfl

/-- The routine tells the reader about every error. -/
def Strict : Decoder α → Prop
  | .done _ => True
  | .fail => True
  | .reject => False
  | .bytes _ k => ∀ b, Strict (k b)

theorem strict_getU32 : Strict Decoder.getU32 := fun _ => trivial

theorem strict_getOpaque (limit : Nat) : Strict (Decoder.getOpaque limit) := by
  intro b
  change Strict (if h : (Decoder.u32OfBytes b).toNat ≤ limit then _ else _)
  split
  · exact fun _ => trivial
  · trivial

theorem Strict.not_ok (hd : Strict d) (h : (run d r).1 = none) : (run d r).2.ok = false := by
  induction d generalizing r with
  | done a => cases h
  | fail => rfl
  | reject => exact hd.elim
  | bytes len k ih =>
    by_cases htake : r.take (padded len) = true
    · rw [run, dif_pos htake] at h ⊢
      exact ih _ (hd _) h
    · rw [run, dif_neg htake]

theorem run_bytes_of_not_ok (h : r.ok = false) (len : Nat) (k : Exactly len → Decoder α) :
    run (.bytes len k) r = (none, r) := by
  rw [run, dif_neg (by simp [take, h])]
  cases r
  cases h
  rfl

end XdrReader

/-! ## Writer -/

namespace XdrWriter

def reserveU32 (buf : Bytes) : Bytes := buf ++ [0, 0, 0, 0]

def patchU32 (buf : Bytes) (offset : Nat) (v : UInt32) : Bytes :=
  (((buf.set offset (v >>> 24).toUInt8).set (offset + 1) (v >>> 16).toUInt8).set
    (offset + 2) (v >>> 8).toUInt8).set (offset + 3) v.toUInt8

def truncate (buf : Bytes) (size : Nat) : Bytes := buf.take size

theorem patchU32_reserved (buf tail : Bytes) (v : UInt32) :
    patchU32 (buf ++ [0, 0, 0, 0] ++ tail) buf.length v = buf ++ putU32 v ++ tail := by
  simp [patchU32, putU32]

end XdrWriter

end Cvmfs.Nfs4
