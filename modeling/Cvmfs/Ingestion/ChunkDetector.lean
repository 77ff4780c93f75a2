import Cvmfs.Lib.Span
import Cvmfs.Lib.Word

/-! # Cut marks

`Xor32Detector`: a rolling checksum over the last 32 bytes decides where a file is
cut, within a minimal and a maximal distance from the previous cut. The bytes
arrive in blocks, so the search is interrupted at the end of a block and taken up
in the next one. Offsets are `uint64_t`; sums with the chunk sizes, which are
settings, wrap around.

`findNextCutMark` gives `none` where an assertion fails. -/

namespace Cvmfs.Ingestion

open Lib List Nat

/-- The sizes that the constructor of the detector accepts. -/
structure ChunkSizes where
  minimal : Nat
  average : Nat
  maximal : Nat
  fits : minimal < 2 ^ 64 ∧ average < 2 ^ 64 ∧ maximal < 2 ^ 64
  accepted : (average = 0 ∨ 0 < minimal) ∧
    (0 < minimal → 32 ≤ minimal ∧ minimal < average ∧ average < maximal)

/-- `std::numeric_limits<uint32_t>::max() / average_chunk_size`, zero for no average. -/
def ChunkSizes.threshold (s : ChunkSizes) : BitVec 32 :=
  BitVec.ofNat 32 (if 0 < s.average then (2 ^ 32 - 1) / s.average else 0)

/-- Small files are not chunked. -/
def ChunkSizes.mightFindChunks (s : ChunkSizes) (size : Nat) : Bool := decide (s.minimal < size)

/-- Sizes for which no sum wraps around within a block. -/
structure ChunkSizes.Moderate (s : ChunkSizes) : Prop where
  positive : 0 < s.minimal
  maximal : s.maximal + 2 ^ 32 ≤ 2 ^ 64

def magicNumber : BitVec 32 := BitVec.ofNat 32 ((2 ^ 32 - 1) / 2)

def roll (x : BitVec 32) (byte : UInt8) : BitVec 32 := (x <<< 1) ^^^ byte.toBitVec.setWidth 32

/-- `abs(xor32 - magic) < threshold`, in wrapping arithmetic. -/
def checkThreshold (threshold x : BitVec 32) : Bool := (x - magicNumber).abs.slt threshold

structure Detector where
  lastCut : Nat := 0
  offset : Nat := 0
  xor32Ptr : Nat := 0
  xor32 : BitVec 32 := 0

namespace Detector

def doCut (d : Detector) (offset : Nat) : Nat × Detector :=
  (offset, { d with lastCut := offset, xor32 := 0, xor32Ptr := offset })

def noCut (d : Detector) (offset : Nat) : Nat × Detector := (0, { d with xor32Ptr := offset })

/-- The search proper, from index `i` on; gives the index of the byte that completes a
cut mark. -/
def search (threshold : BitVec 32) : BitVec 32 → Nat → List UInt8 → BitVec 32 × Option Nat
  | x, _, [] => (x, none)
  | x, i, b :: bs =>
    let x := roll x b
    if checkThreshold threshold x then (x, some i) else search threshold x (i + 1) bs

def toInt64 (n : Nat) : Int := if n < 2 ^ 63 then n else (n : Int) - 2 ^ 64

def doFindNextCutMark (s : ChunkSizes) (d : Detector) (data : List UInt8) :
    Option (Nat × Detector) :=
  if s.minimal = 0 then none
  else
    let globalOffset := max ((d.lastCut + (s.minimal - 32)) % 2 ^ 64) d.xor32Ptr
    if d.offset + data.length ≤ globalOffset then some (d.noCut globalOffset)
    else
      let internalOffset := sub64 globalOffset d.offset
      if data.length ≤ internalOffset then none
      else
        let precomputeEnd := (d.lastCut + s.minimal) % 2 ^ 64
        let internalPrecomputeEnd := min (toInt64 (sub64 precomputeEnd d.offset)) data.length
        if 32 < internalPrecomputeEnd - internalOffset then none
        else
          let i := max internalOffset internalPrecomputeEnd.toNat
          let x := ((data.take i).drop internalOffset).foldl roll d.xor32
          let internalMaxChunkSizeEnd := sub64 ((d.lastCut + s.maximal) % 2 ^ 64) d.offset
          let internalComputeEnd := min internalMaxChunkSizeEnd data.length
          match search s.threshold x i ((data.take internalComputeEnd).drop i) with
          | (x, some j) => some ({ d with xor32 := x }.doCut (j + d.offset))
          | (x, none) =>
            let i := max i internalComputeEnd
            if i = internalMaxChunkSizeEnd then some ({ d with xor32 := x }.doCut (i + d.offset))
            else some ({ d with xor32 := x }.noCut (i + d.offset))

def findNextCutMark (s : ChunkSizes) (d : Detector) (data : List UInt8) :
    Option (Nat × Detector) :=
  match doFindNextCutMark s d data with
  | none => none
  | some (0, d) => some (0, { d with offset := d.offset + data.length })
  | some (cut, d) => some (cut, d)

/-! ## What a search finds -/

variable {threshold x x' : BitVec 32} {i j : Nat} {bs : List UInt8}

theorem search_none (h : search threshold x i bs = (x', none)) : x' = bs.foldl roll x ∧
      ∀ k < bs.length, checkThreshold threshold ((bs.take (k + 1)).foldl roll x) = false := by
  induction bs generalizing x i with
  | nil =>
    cases h
    exact ⟨rfl, nofun⟩
  | cons b bs ih =>
    rw [search] at h
    split at h
    · cases h
    next hno =>
      obtain ⟨hx, hrest⟩ := ih h
      refine ⟨hx, fun k hk => ?_⟩
      cases k with
      | zero => simpa using hno
      | succ k => exact hrest k (lt_of_succ_lt_succ hk)

theorem search_some (h : search threshold x i bs = (x', some j)) :
    ∃ k < bs.length, j = i + k ∧ checkThreshold threshold ((bs.take (k + 1)).foldl roll x) = true ∧
      ∀ k' < k, checkThreshold threshold ((bs.take (k' + 1)).foldl roll x) = false := by
  induction bs generalizing x i with
  | nil => cases h
  | cons b bs ih =>
    rw [search] at h
    split at h
    next hyes =>
      cases h
      exact ⟨0, succ_pos _, rfl, by simpa using hyes, nofun⟩
    next hno =>
      obtain ⟨k, hk, hj, hyes, hbefore⟩ := ih h
      refine ⟨k + 1, succ_lt_succ hk, by omega, hyes, fun k' hk' => ?_⟩
      cases k' with
      | zero => simpa using hno
      | succ k' => exact hbefore k' (lt_of_succ_lt_succ hk')

/-- The detector between two calls, while a block with end `stop` is at hand: the search
goes on inside the block or behind it. -/
structure Ready (s : ChunkSizes) (d : Detector) (stop : Nat) : Prop where
  cut : d.lastCut ≤ stop
  near : d.offset < d.lastCut + s.maximal
  reach : d.offset ≤ d.lastCut + (s.minimal - 32) ∨ d.offset ≤ d.xor32Ptr
  ptr : d.xor32Ptr ≤ max d.offset (d.lastCut + (s.minimal - 32))

variable {s : ChunkSizes} {d : Detector} {a b : Nat}

theorem Ready.mono (h : Ready s d a) (hab : a ≤ b) :
    Ready s d b := ⟨h.cut.trans hab, h.near, h.reach, h.ptr⟩

theorem toInt64_sub64 (ha : a < 2 ^ 64) (hb : b < 2 ^ 63) (hab : a < b + 2 ^ 63) :
    toInt64 (sub64 a b) = (a : Int) - b := by
  unfold toInt64 sub64
  split <;> omega

theorem sub64_add {m} (hb : b ≤ a + m) (hlt : a + m < b + 2 ^ 64) (hb' : b < 2 ^ 64) :
    sub64 ((a + m) % 2 ^ 64) b = a + m - b := by
  unfold sub64
  omega

/-- What the detector tells about a block: there is no further cut mark and it moves on
behind the block, or the next cut mark lies in the block. -/
inductive Finds (s : ChunkSizes) (d : Detector) (len : Nat) : Option (Nat × Detector) → Prop
  | nothing {d' : Detector} : d'.offset = d.offset + len → d'.lastCut = d.lastCut →
    Ready s d' d'.offset → Finds s d len (some (0, d'))
  | cut {d' : Detector} : d'.offset = d.offset → d.offset ≤ d'.lastCut →
    d.lastCut + s.minimal ≤ d'.lastCut → Ready s d' (d.offset + len) →
    Finds s d len (some (d'.lastCut, d'))

theorem start_bounds {c m o g len i : Nat} (hm : 32 ≤ m) (hg : c + (m - 32) ≤ g) (ho : o ≤ g)
    (hlen : g < o + len) (hi : max (g - o) (min ((c + m : Nat) - (o : Int)) len).toNat = i) :
    ¬32 < min ((c + m : Nat) - (o : Int)) len - (g - o : Nat) ∧ i ≤ len ∧
      (c + m ≤ i + o ∨ len ≤ i) ∧ i + o ≤ max g (c + m) := by
  omega

/-- Where the search goes on. -/
def resume (s : ChunkSizes) (d : Detector) : Nat := max (d.lastCut + (s.minimal - 32)) d.xor32Ptr

/-- The checksum after the bytes of a block before position `p` of the file. -/
def rolled (s : ChunkSizes) (d : Detector) (data : List UInt8) (p : Nat) : BitVec 32 :=
  (slice data (d.resume s - d.offset) (p - d.resume s)).foldl roll d.xor32

/-- No byte before position `p` completes a cut mark. -/
def Unmarked (s : ChunkSizes) (d : Detector) (data : List UInt8) (p : Nat) : Prop :=
  ∀ q, d.resume s ≤ q → d.lastCut + s.minimal ≤ q → q < p →
    checkThreshold s.threshold (d.rolled s data (q + 1)) = false

theorem foldl_search {data : List UInt8} {io i n k : Nat} (hio : io ≤ i) (hk : k ≤ n - i) :
    (((data.take n).drop i).take k).foldl roll (((data.take i).drop io).foldl roll d.xor32) =
      (slice data io (i + k - io)).foldl roll d.xor32 := by
  rw [← foldl_append, drop_take, drop_take, take_take, min_eq_left hk]
  exact congrArg (foldl roll d.xor32) (slice_extend data hio k)

theorem doFindNextCutMark_cases {data : List UInt8} (hs : s.Moderate)
    (hmin : d.lastCut + s.minimal < 2 ^ 64)
    (hend : d.offset + data.length < 2 ^ 63) (hlen : data.length < 2 ^ 32)
    (h : Ready s d (d.offset + data.length)) :
    (∃ p, doFindNextCutMark s d data = some ({ d with xor32 := d.rolled s data p }.noCut p) ∧
      d.resume s ≤ p ∧ d.offset + data.length ≤ p ∧
      p ≤ max (d.offset + data.length) (d.lastCut + (s.minimal - 32)) ∧
      d.offset + data.length < d.lastCut + s.maximal ∧ d.Unmarked s data p) ∨
    ∃ x c, doFindNextCutMark s d data = some ({ d with xor32 := x }.doCut c) ∧
      d.resume s ≤ c ∧ d.lastCut + s.minimal ≤ c ∧ c ≤ d.offset + data.length ∧
      d.Unmarked s data c ∧ (c = d.lastCut + s.maximal ∨ c < d.lastCut + s.maximal ∧
        c < d.offset + data.length ∧
        checkThreshold s.threshold (d.rolled s data (c + 1)) = true) := by
  have hpos := hs.positive
  have hmax := hs.maximal
  obtain ⟨h32, hlt, hlt'⟩ := s.accepted.2 hpos
  obtain ⟨hcut, hnear, hreach, hptr⟩ := h
  have hzero : ¬s.minimal = 0 := by omega
  obtain ⟨globalOffset, hglobal⟩ : ∃ g, d.resume s = g := ⟨_, rfl⟩
  unfold Unmarked rolled
  rw [hglobal]
  rw [resume] at hglobal
  have hgc : d.lastCut + (s.minimal - 32) ≤ globalOffset := by omega
  have hgo : d.offset ≤ globalOffset := by omega
  have hgle : globalOffset ≤ max d.offset (d.lastCut + (s.minimal - 32)) := by omega
  clear hptr hreach
  have hg : (d.lastCut + (s.minimal - 32)) % 2 ^ 64 = d.lastCut + (s.minimal - 32) :=
    Nat.mod_eq_of_lt (by omega)
  by_cases hbehind : d.offset + data.length ≤ globalOffset
  · refine .inl ⟨globalOffset, ?_, le_rfl, hbehind, by omega, by omega, fun q _ _ _ => by omega⟩
    simp only [doFindNextCutMark, hg, hzero, hglobal, hbehind, if_true, if_false, Nat.sub_self,
      slice_zero, foldl_nil]
  have hp : (d.lastCut + s.minimal) % 2 ^ 64 = d.lastCut + s.minimal := mod_eq_of_lt (by omega)
  have hm : sub64 ((d.lastCut + s.maximal) % 2 ^ 64) d.offset =
      d.lastCut + s.maximal - d.offset := sub64_add (by omega) (by omega) (by omega)
  have hio : sub64 globalOffset d.offset = globalOffset - d.offset := by
    have hlt : globalOffset < 2 ^ 64 := by omega
    have := sub64_add (a := globalOffset) (m := 0) (b := d.offset) hgo (by omega) (by omega)
    rwa [add_zero, mod_eq_of_lt hlt] at this
  have hpre : toInt64 (sub64 (d.lastCut + s.minimal) d.offset) =
      (d.lastCut + s.minimal : Nat) - (d.offset : Int) :=
    toInt64_sub64 (by omega) (by omega) (by omega)
  have hin : ¬data.length ≤ globalOffset - d.offset := by
    clear hp hm hio hpre hg hmax hend hlen
    omega
  obtain ⟨i, hi⟩ : ∃ i, max (globalOffset - d.offset)
      (min ((d.lastCut + s.minimal : Nat) - (d.offset : Int)) data.length).toNat = i := ⟨_, rfl⟩
  obtain ⟨hwindow, hilen, hstart, hup⟩ := start_bounds h32 hgc hgo (Nat.lt_of_not_le hbehind) hi
  have hioi : globalOffset - d.offset ≤ i := hi ▸ le_max_left _ _
  simp only [doFindNextCutMark, hg, hp, hm, hzero, hglobal, hbehind, hio, hpre, hin, hwindow,
    hi, if_false]
  clear hg hp hm hglobal hio hpre hwindow hin hmax hend hlen hzero hi
  obtain ⟨n, hn⟩ : ∃ n, min (d.lastCut + s.maximal - d.offset) data.length = n := ⟨_, rfl⟩
  rw [hn]
  have hbytes : ((data.take n).drop i).length = n - i := by
    rw [length_drop, length_take]
    omega
  split
  next x' j hsearch =>
    obtain ⟨k, hk, hj, hyes, hbefore⟩ := search_some hsearch
    rw [hbytes] at hk
    refine .inr ⟨x', j + d.offset, rfl, by omega, by omega, by omega, fun q hq hq' hlt => ?_,
      .inr ⟨by omega, by omega, ?_⟩⟩
    · have := hbefore (q - d.offset - i) (by omega)
      rwa [foldl_search hioi (by omega), show i + (q - d.offset - i + 1) -
        (globalOffset - d.offset) = q + 1 - globalOffset by omega] at this
    · rwa [foldl_search hioi (by omega), show i + (k + 1) - (globalOffset - d.offset) =
        j + d.offset + 1 - globalOffset by omega] at hyes
  next x' hsearch =>
    obtain ⟨hx, hno⟩ := search_none hsearch
    have hunmarked : ∀ q, globalOffset ≤ q → d.lastCut + s.minimal ≤ q → q < max i n + d.offset →
        checkThreshold s.threshold ((slice data (globalOffset - d.offset)
          (q + 1 - globalOffset)).foldl roll d.xor32) = false := by
      intro q hq hq' hlt
      have := hno (q - d.offset - i) (by omega)
      rwa [foldl_search hioi (by omega), show i + (q - d.offset - i + 1) -
        (globalOffset - d.offset) = q + 1 - globalOffset by omega] at this
    split
    next hhard =>
      exact .inr ⟨x', max i n + d.offset, rfl, by omega, by omega, by omega, hunmarked,
        .inl (by omega)⟩
    next hhard =>
      refine .inl ⟨max i n + d.offset, ?_, by omega, by omega, by omega, by omega, hunmarked⟩
      rw [hx, ← take_of_length_le hbytes.le, foldl_search hioi le_rfl,
        show i + (n - i) - (globalOffset - d.offset) = max i n + d.offset - globalOffset by omega]

theorem findNextCutMark_noCut {data d' p} (h : doFindNextCutMark s d data = some (noCut d' p)) :
    findNextCutMark s d data =
      some (0, { d' with xor32Ptr := p, offset := d'.offset + data.length }) := by
  simp [findNextCutMark, h, noCut]

theorem findNextCutMark_doCut {data d' c} (h : doFindNextCutMark s d data = some (doCut d' c))
    (hc : c ≠ 0) : findNextCutMark s d data =
      some (c, { d' with lastCut := c, xor32 := 0, xor32Ptr := c }) := by
  simp [findNextCutMark, h, doCut]

theorem ready_cut (hs : s.Moderate) (x : BitVec 32) {c stop} (hle : d.offset ≤ c) (hc : c ≤ stop) :
    Ready s { d with lastCut := c, xor32 := x, xor32Ptr := c } stop := by
  obtain ⟨h32, hlt, hlt'⟩ := s.accepted.2 hs.positive
  refine ⟨hc, ?_, .inr hle, ?_⟩
  · simp only
    omega
  · simp only
    omega

theorem Ready.offset_le_resume {stop} (h : Ready s d stop) : d.offset ≤ d.resume s := by
  have := h.reach
  rw [resume]
  omega

theorem findNextCutMark_finds {data} (hs : s.Moderate) (hmin : d.lastCut + s.minimal < 2 ^ 64)
    (hend : d.offset + data.length < 2 ^ 63) (hlen : data.length < 2 ^ 32)
    (h : Ready s d (d.offset + data.length)) :
    Finds s d data.length (findNextCutMark s d data) := by
  have hpos := hs.positive
  have hresume := h.offset_le_resume
  obtain ⟨p, hfind, -, hle, hptr, hnear, -⟩ | ⟨x, c, hfind, hle, hc, hstop, -⟩ :=
    doFindNextCutMark_cases hs hmin hend hlen h
  · rw [findNextCutMark_noCut hfind]
    exact .nothing rfl rfl ⟨h.cut, hnear, .inr hle, hptr⟩
  · rw [findNextCutMark_doCut hfind (by omega)]
    exact @Finds.cut _ _ _ { d with lastCut := c, xor32 := 0, xor32Ptr := c } rfl
      (hresume.trans hle) hc (ready_cut hs 0 (hresume.trans hle) hstop)

theorem ready_start (hs : s.Moderate) : Ready s {} 0 := by
  obtain ⟨h32, hlt, hlt'⟩ := s.accepted.2 hs.positive
  exact ⟨le_rfl, show 0 < 0 + s.maximal by omega, .inr le_rfl, zero_le _⟩

end Detector

end Cvmfs.Ingestion
