import Cvmfs.Client.ChunkIndex
import Cvmfs.Ingestion.Tiling

/-! # Chunked files are read as they were ingested

`cvmfs_read` reads from the chunk of the offset and from those behind it, until it has what was
asked for. The chunks are fetched, and `Pread` returns what there is. -/

namespace Cvmfs.Client

open Lib List Ingestion

/-- The chunks of a file, with what is fetched for them. The `unsigned` index counts them without
wrapping around. -/
structure ChunkedFile extends FileChunkList where
  short : size < 2 ^ 32
  chunkSize : Nat → Nat
  data : Nat → List UInt8

namespace ChunkedFile

variable (l : ChunkedFile)

/-- The loop of `cvmfs_read`. What remains in the chunk is an unsigned number. -/
def readFrom : Nat → Nat → Nat → Nat → List UInt8
  | 0, _, _, _ => []
  | fuel + 1, idx, offsetInChunk, toRead =>
    let remaining := sub64 (l.chunkSize idx) offsetInChunk
    let fetched := slice (l.data idx) offsetInChunk (min toRead remaining)
    if fetched.length < toRead ∧ idx + 1 < l.size then
      fetched ++ readFrom fuel (idx + 1) 0 (toRead - fetched.length)
    else fetched

def read (size off : Nat) : Option (List UInt8) :=
  (l.findChunkIdx off).map fun idx => l.readFrom l.size idx (off - l.offset idx) size

/-- The chunks lie one behind the other and hold the content. -/
structure Stores (content : List UInt8) : Prop where
  tiles : Tiles 0 ((range l.size).map fun i => (l.offset i, l.chunkSize i)) content.length
  data : ∀ i < l.size, l.data i = slice content (l.offset i) (l.chunkSize i)

section

variable {l} {content : List UInt8} (h : l.Stores content)
include h

theorem Stores.next {i} (hi : i < l.size) :
    l.offset i + l.chunkSize i = if i + 1 < l.size then l.offset (i + 1) else content.length := by
  rw [h.tiles.next (i := i) (p := (l.offset i, l.chunkSize i)) (by simp [hi])]
  split <;> simp [*]

theorem Stores.readFrom (hlen : content.length < 2 ^ 64) {fuel idx o n}
    (hidx : idx < l.size) (hfuel : l.size ≤ idx + fuel)
    (ho : idx + 1 < l.size → o ≤ l.chunkSize idx) :
    l.readFrom fuel idx o n = slice content (l.offset idx + o) n := by
  induction fuel generalizing idx o n with
  | zero => omega
  | succ fuel ih =>
    have hnext := h.next hidx
    have hle : l.offset idx + l.chunkSize idx ≤ content.length :=
      h.tiles.stop_le _ (mem_map_of_mem (mem_range.2 hidx))
    have hfetched : slice (l.data idx) o (min n (sub64 (l.chunkSize idx) o)) =
        slice content (l.offset idx + o) (min n (l.chunkSize idx - o)) := by
      rw [h.data idx hidx, slice, slice, drop_take, take_take, drop_drop, slice, take_eq_take_iff,
        sub64]
      omega
    rw [ChunkedFile.readFrom, hfetched]
    split at hnext
    next hmore =>
      have ho := ho hmore
      rw [length_slice (by omega)]
      split
      next hlt =>
        rw [Nat.min_eq_right (by omega), ih hmore (by omega) fun _ => Nat.zero_le _,
          show l.offset (idx + 1) + 0 = l.offset idx + o + (l.chunkSize idx - o) by omega,
          slice_append, Nat.add_sub_cancel' (by omega)]
      next hge => rw [Nat.min_eq_left (by omega)]
    next hlast =>
      rw [if_neg fun hc => hlast hc.2, slice, slice, take_eq_take_iff, length_drop]
      omega

theorem Stores.read (hlen : content.length < 2 ^ 64) (size off : Nat) :
    l.read size off = some (slice content off size) := by
  obtain ⟨i, hi, hidx, hle, hnext⟩ := l.exists_holds l.short.le off
  have hend := h.next hidx
  rw [ChunkedFile.read, hi, Option.map_some, h.readFrom hlen hidx (by omega) fun hmore => by
    have := hnext hmore
    rw [if_pos hmore] at hend
    omega, Nat.add_sub_cancel' hle]

end

/-- The second chunk has bytes of both blocks. -/
def twoChunks : ChunkedFile where
  size := 2
  offset i := 32 * i
  nonempty := by decide
  first := rfl
  increasing := by omega
  bounded := by omega
  short := by decide
  chunkSize i := 32 - 24 * i
  data i := if i = 0 then replicate 32 1 else replicate 4 1 ++ replicate 4 2

end ChunkedFile

end Cvmfs.Client
