import Cvmfs.Ingestion.ChunkDetector

/-! # Cut marks and buffering

A file arrives in blocks, and for each of them `FindNextCutMark` is called until it reports no
cut. The cut marks are those that `CutMarks` reads off the content as a whole. -/

namespace Cvmfs.Ingestion

open Lib Detector List Nat Ingestion

/-! ## The checksum and its window -/

def checksum (bytes : List UInt8) : BitVec 32 := bytes.foldl roll 0

theorem foldl_roll (x : BitVec 32) (bs : List UInt8) :
    bs.foldl roll x = (x <<< bs.length) ^^^ checksum bs := by
  induction bs generalizing x with
  | nil => simp [checksum]
  | cons b bs ih =>
    rw [checksum, foldl_cons, foldl_cons, ih, ih (roll 0 b), length_cons]
    simp [roll, BitVec.shiftLeft_xor_distrib, ← BitVec.shiftLeft_add, BitVec.xor_assoc, add_comm 1]

/-- The checksum of the 32 bytes that end with the one at position `p`. -/
def window (content : List UInt8) (p : Nat) : BitVec 32 := checksum (slice content (p - 31) 32)

theorem checksum_eq_window {content : List UInt8} {a p : Nat} (ha : a + 31 ≤ p)
    (hp : p < content.length) : checksum (slice content a (p + 1 - a)) = window content p := by
  have hsplit := slice_extend content (show a ≤ p - 31 by omega) 32
  rw [show p - 31 + 32 = p + 1 by omega] at hsplit
  rw [← hsplit, checksum, foldl_append, foldl_roll, length_slice (by omega),
    BitVec.shiftLeft_eq_zero le_rfl]
  exact BitVec.zero_xor

/-- A cut mark: nearer to the middle of the range than the threshold, or its last number,
where the absolute value overflows. -/
def ChunkSizes.Close (s : ChunkSizes) (x : BitVec 32) : Prop :=
  ((x.toNat : Int) - (2 ^ 31 - 1)).natAbs < (2 ^ 32 - 1) / s.average ∨ x.toNat = 2 ^ 32 - 1

variable {s : ChunkSizes}

theorem checkThreshold_iff (hs : s.Moderate) (x : BitVec 32) :
    checkThreshold s.threshold x = true ↔ s.Close x := by
  obtain ⟨h32, hlt, -⟩ := s.accepted.2 hs.positive
  have hsmall : (2 ^ 32 - 1) / s.average ≤ (2 ^ 32 - 1) / 32 :=
    div_le_div_left (by omega) (by omega)
  have hx := x.isLt
  rw [checkThreshold, ChunkSizes.threshold, if_pos (by omega), ChunkSizes.Close]
  generalize (2 ^ 32 - 1) / s.average = t at *
  have hdiff : (x - magicNumber).toNat = (x.toNat + 2 ^ 31 + 1) % 2 ^ 32 := by
    rw [BitVec.toNat_sub, magicNumber, BitVec.toNat_ofNat]
    omega
  rw [BitVec.slt, decide_eq_true_eq, BitVec.abs, BitVec.msb_eq_decide, hdiff,
    BitVec.toInt_eq_toNat_cond (BitVec.ofNat 32 t), BitVec.toNat_ofNat]
  split
  next hneg =>
    rw [decide_eq_true_eq] at hneg
    rw [BitVec.toInt_eq_toNat_cond, BitVec.neg_eq, BitVec.toNat_neg, hdiff]
    omega
  next hneg =>
    rw [decide_eq_true_eq] at hneg
    rw [BitVec.toInt_eq_toNat_cond, hdiff]
    omega

/-! ## The loops over the blocks -/

/-- `FindNextCutMark` until it reports no cut; `none` where an assertion fails. -/
def blockMarks (s : ChunkSizes) (data : List UInt8) :
    Nat → Detector → Option (List Nat × Detector)
  | 0, _ => none
  | fuel + 1, d =>
    match d.findNextCutMark s data with
    | none => none
    | some (cut, d) =>
      if cut = 0 then some ([], d)
      else (blockMarks s data fuel d).map fun (cuts, d) => (cut :: cuts, d)

/-- The cut marks of a file that arrives in blocks. A block has fewer cut marks than bytes,
up to one at its end. -/
def fileMarks (s : ChunkSizes) : Detector → List (List UInt8) → Option (List Nat)
  | _, [] => some []
  | d, data :: blocks =>
    match blockMarks s data (data.length + 2) d with
    | none => none
    | some (cuts, d) => (fileMarks s d blocks).map (cuts ++ ·)

/-! ## The cut marks of a content -/

/-- A chunk that starts at `c` ends at `p`. -/
structure NextCut (s : ChunkSizes) (content : List UInt8) (c p : Nat) : Prop where
  minimal : c + s.minimal ≤ p
  before : ∀ q, c + s.minimal ≤ q → q < p → ¬s.Close (window content q)
  here : p = c + s.maximal ∧ p ≤ content.length ∨
    p < c + s.maximal ∧ p < content.length ∧ s.Close (window content p)

inductive CutMarks (s : ChunkSizes) (content : List UInt8) : Nat → List Nat → Prop
  | last {c : Nat} : content.length < c + s.maximal →
    (∀ q, c + s.minimal ≤ q → q < content.length → ¬s.Close (window content q)) →
      CutMarks s content c []
  | next {c p : Nat} {ps : List Nat} : NextCut s content c p → CutMarks s content p ps →
    CutMarks s content c (p :: ps)

variable {content content' : List UInt8} {a b c p p' : Nat} {ps ps' : List Nat}

section

variable (h : NextCut s content c p)
include h

theorem NextCut.unique (h' : NextCut s content c p') : p = p' := by
  rcases lt_trichotomy p p' with hlt | heq | hlt
  · rcases h.here with ⟨rfl, -⟩ | ⟨-, -, hclose⟩
    · have := h'.here
      omega
    · exact absurd hclose (h'.before p h.minimal hlt)
  · exact heq
  · rcases h'.here with ⟨rfl, -⟩ | ⟨-, -, hclose⟩
    · have := h.here
      omega
    · exact absurd hclose (h.before p' h'.minimal hlt)

theorem NextCut.le_length : p ≤ content.length := by
  rcases h.here with ⟨-, hle⟩ | ⟨-, hlt, -⟩
  · exact hle
  · exact hlt.le

theorem NextCut.not_last (hend : content.length < c + s.maximal) :
    ¬∀ q, c + s.minimal ≤ q → q < content.length → ¬s.Close (window content q) := by
  intro hno
  rcases h.here with ⟨rfl, hle⟩ | ⟨-, hlt, hclose⟩
  · omega
  · exact hno p h.minimal hlt hclose

end

theorem CutMarks.unique (h : CutMarks s content c ps) (h' : CutMarks s content c ps') :
    ps = ps' := by
  induction h generalizing ps' with
  | last hend hno =>
    cases h' with
    | last => rfl
    | next hnext => exact absurd hno (hnext.not_last hend)
  | next hnext _ ih =>
    cases h' with
    | last hend hno => exact absurd hno (hnext.not_last hend)
    | next hnext' htail =>
      obtain rfl := hnext.unique hnext'
      rw [ih htail]

section

variable (hs : s.Moderate) (h : CutMarks s content c ps)
include hs h

theorem CutMarks.lt : ∀ p ∈ ps, c < p := by
  have hpos := hs.positive
  induction h with
  | last => exact forall_mem_nil _
  | next hnext _ ih =>
    have hlt := hnext.minimal
    exact forall_mem_cons.2 ⟨by omega, fun q hq => by have := ih q hq; omega⟩

theorem CutMarks.after (ha : a ∈ c :: ps) : CutMarks s content a (ps.filter (a < ·)) := by
  induction h with
  | last hend hno =>
    obtain rfl := mem_singleton.1 ha
    exact .last hend hno
  | @next c p ps hnext htail ih =>
    have hlt := (CutMarks.next hnext htail).lt hs
    rcases mem_cons.1 ha with rfl | ha
    · rw [filter_eq_self.2 fun q hq => decide_eq_true (hlt q hq)]
      exact .next hnext htail
    have hle : ¬a < p := by
      rcases mem_cons.1 ha with rfl | ha
      · exact lt_irrefl _
      · exact (htail.lt hs a ha).not_gt
    rw [filter_cons_of_neg (by simpa using hle)]
    exact ih ha

theorem CutMarks.infix_iff (ha : a ∈ c :: ps) : [a, p] <:+: c :: ps ↔ NextCut s content a p := by
  induction h with
  | @last c hend hno =>
    obtain rfl := mem_singleton.1 ha
    refine ⟨fun hin => ?_, fun hnext => absurd hno (hnext.not_last hend)⟩
    simpa using hin.length_le
  | @next c p₀ ps hnext htail ih =>
    have hlt := (CutMarks.next hnext htail).lt hs
    rw [infix_cons_iff, cons_prefix_cons, cons_prefix_cons]
    rcases mem_cons.1 ha with rfl | ha
    · refine ⟨?_, fun hp => .inl ⟨rfl, hp.unique hnext, nil_prefix⟩⟩
      rintro (⟨-, rfl, -⟩ | hin)
      · exact hnext
      · exact absurd (hlt a (hin.subset (mem_cons_self ..))) (lt_irrefl _)
    · have hne : a ≠ c := fun he => absurd (hlt a ha) (by omega)
      rw [← ih ha]
      exact or_iff_right fun hc => hne hc.1

end

theorem CutMarks.le_length (h : CutMarks s content c ps) (ha : a ∈ ps) : a ≤ content.length := by
  induction h with
  | last => cases ha
  | next hnext _ ih =>
    rcases mem_cons.1 ha with rfl | ha
    · exact hnext.le_length
    · exact ih ha

theorem CutMarks.end_lt (h : CutMarks s content c ps) :
    content.length < ps.getLastD c + s.maximal := by
  induction h with
  | last hend _ => exact hend
  | next _ _ ih => rwa [getLastD_cons]

/-! ## Contents that agree from some position on -/

section

variable (hs : s.Moderate) (hdrop : content.drop a = content'.drop b)
include hs hdrop

theorem window_shift {q : Nat} (hq : a + s.minimal ≤ q) :
    window content' (q - a + b) = window content q := by
  have h32 := (s.accepted.2 hs.positive).1
  have hslice : slice (content.drop a) (q - 31 - a) 32 = slice content (q - 31) 32 := by
    rw [slice, slice, drop_drop, show a + (q - 31 - a) = q - 31 by omega]
  rw [window, window, ← hslice, hdrop, slice, slice, drop_drop,
    show b + (q - 31 - a) = q - a + b - 31 by omega]

theorem not_close_shift (hc : a ≤ c) {q : Nat}
    (h : ∀ q, c + s.minimal ≤ q → q < p → ¬s.Close (window content q))
    (hq : c - a + b + s.minimal ≤ q) (hlt : q < p - a + b) : ¬s.Close (window content' q) := by
  have hwindow := window_shift hs hdrop (show a + s.minimal ≤ q - b + a by omega)
  rw [show q - b + a - a + b = q by omega] at hwindow
  rw [hwindow]
  exact h (q - b + a) (by omega) (by omega)

variable (ha : a ≤ content.length) (hb : b ≤ content'.length)
include ha hb

theorem NextCut.shift (hc : a ≤ c) (h : NextCut s content c p) :
    NextCut s content' (c - a + b) (p - a + b) := by
  have hlen := congrArg length hdrop
  rw [length_drop, length_drop] at hlen
  have hmin := h.minimal
  refine ⟨by omega, fun q hq hlt => not_close_shift hs hdrop hc h.before hq hlt, ?_⟩
  rw [window_shift hs hdrop (by omega)]
  rcases h.here with ⟨rfl, hle⟩ | ⟨hlt, hlen', hclose⟩
  · exact .inl ⟨by omega, by omega⟩
  · exact .inr ⟨by omega, by omega, hclose⟩

theorem CutMarks.shift (hc : a ≤ c) (h : CutMarks s content c ps) :
    CutMarks s content' (c - a + b) (ps.map (· - a + b)) := by
  have hlen := congrArg length hdrop
  rw [length_drop, length_drop] at hlen
  induction h with
  | last hend hno =>
    exact .last (by omega) fun q hq hlt =>
      not_close_shift hs hdrop hc hno hq (by omega)
  | next hnext _ ih =>
    have hmin := hnext.minimal
    exact .next (hnext.shift hs hdrop ha hb hc) (ih (by omega))

end

/-! ## The detector follows them -/

/-- What the detector has computed of the chunk that it is in. -/
structure Tracks (s : ChunkSizes) (content : List UInt8) (d : Detector) : Prop where
  start : d.lastCut = 0 ∨ s.minimal ≤ d.lastCut
  value : d.xor32 = checksum (slice content (d.lastCut + (s.minimal - 32))
    (d.xor32Ptr - (d.lastCut + (s.minimal - 32))))
  before : ∀ q, d.lastCut + s.minimal ≤ q → q < d.xor32Ptr → ¬s.Close (window content q)

theorem tracks_cut (s : ChunkSizes) (content : List UInt8) {d : Detector} {c : Nat}
    (hc : c = 0 ∨ s.minimal ≤ c) :
    Tracks s content { d with lastCut := c, xor32 := 0, xor32Ptr := c } := by
  refine ⟨hc, ?_, fun q hq hlt => ?_⟩
  · simp only [show c - (c + (s.minimal - 32)) = 0 by omega, slice_zero]
    rfl
  · simp only at hq hlt
    omega

section

variable {d : Detector} {data : List UInt8}

theorem Tracks.rolled_eq (h : Tracks s content d) (ho : d.offset ≤ d.resume s)
    (hdata : data = slice content d.offset data.length) (hp : d.resume s ≤ p)
    (hend : p ≤ d.offset + data.length ∨ p = d.resume s) :
    d.rolled s data p = checksum (slice content (d.lastCut + (s.minimal - 32))
      (p - (d.lastCut + (s.minimal - 32)))) := by
  have hbytes : slice data (d.resume s - d.offset) (p - d.resume s) =
      slice content (d.resume s) (p - d.resume s) := by
    rcases hend with hend | rfl
    · rw [hdata, slice_slice (by omega), Nat.add_sub_cancel' ho]
    · simp
  have hbase : d.xor32Ptr - (d.lastCut + (s.minimal - 32)) =
      d.resume s - (d.lastCut + (s.minimal - 32)) := by
    rw [resume]
    omega
  rw [rolled, hbytes, h.value, hbase, checksum, ← foldl_append,
    slice_extend content (show _ ≤ d.resume s from le_max_left _ _), Nat.add_sub_cancel' hp]
  rfl

variable (hs : s.Moderate) (hdata : data = slice content d.offset data.length)
  (hin : d.offset + data.length ≤ content.length)
include hs hdata hin

theorem Tracks.close_iff {q : Nat} (h : Tracks s content d) (ho : d.offset ≤ d.resume s)
    (hq : d.resume s ≤ q) (hq' : d.lastCut + s.minimal ≤ q) (hlt : q < d.offset + data.length) :
    checkThreshold s.threshold (d.rolled s data (q + 1)) = true ↔ s.Close (window content q) := by
  have h32 := (s.accepted.2 hs.positive).1
  rw [checkThreshold_iff hs, h.rolled_eq ho hdata (by omega) (.inl hlt),
    checksum_eq_window (by omega) (by omega)]

theorem Tracks.not_close (h : Tracks s content d) (ho : d.offset ≤ d.resume s)
    (hp : p ≤ d.offset + data.length ∨ p ≤ d.resume s) (hno : d.Unmarked s data p) {q : Nat}
    (hq : d.lastCut + s.minimal ≤ q) (hlt : q < p) : ¬s.Close (window content q) := by
  by_cases hnew : d.resume s ≤ q
  · rw [← h.close_iff hs hdata hin ho hnew hq (by omega), hno q hnew hq hlt]
    exact Bool.false_ne_true
  · refine h.before q hq ?_
    rw [resume] at hnew
    omega

theorem Tracks.findNextCutMark (hend : d.offset + data.length < 2 ^ 63)
    (hlen : data.length < 2 ^ 32) (hr : Ready s d (d.offset + data.length))
    (h : Tracks s content d) :
    (∃ d', d.findNextCutMark s data = some (0, d') ∧ d'.lastCut = d.lastCut ∧
      d'.offset = d.offset + data.length ∧ Ready s d' d'.offset ∧ Tracks s content d') ∨
    ∃ d', d.findNextCutMark s data = some (d'.lastCut, d') ∧ d'.lastCut ≠ 0 ∧
      d'.offset = d.offset ∧ d.offset ≤ d'.lastCut ∧ Ready s d' (d.offset + data.length) ∧
      Tracks s content d' ∧ NextCut s content d.lastCut d'.lastCut := by
  have hpos := hs.positive
  have hmin : d.lastCut + s.minimal < 2 ^ 64 := by
    have := s.fits.1
    have := hr.cut
    have := h.start
    omega
  have ho := hr.offset_le_resume
  obtain ⟨p, hfind, hp, hle, hptr, hnear, hno⟩ | ⟨x, c, hfind, hle, hc, hstop, hno, hhere⟩ :=
    doFindNextCutMark_cases hs hmin hend hlen hr
  · have hp' : p ≤ d.offset + data.length ∨ p = d.resume s := by
      rw [resume] at hp ⊢
      omega
    exact .inl ⟨_, findNextCutMark_noCut hfind, rfl, rfl, ⟨hr.cut, hnear, .inr hle, hptr⟩, h.start,
      h.rolled_eq ho hdata hp hp', fun q hq hlt =>
        h.not_close hs hdata hin ho (hp'.imp_right Eq.le) hno hq hlt⟩
  have hzero : c ≠ 0 := by omega
  refine .inr ⟨{ d with lastCut := c, xor32 := 0, xor32Ptr := c },
    findNextCutMark_doCut hfind hzero, hzero, rfl, ho.trans hle,
    ready_cut hs 0 (ho.trans hle) hstop, tracks_cut s content (.inr (by omega)), hc,
    fun q hq hlt => h.not_close hs hdata hin ho (.inl hstop) hno hq hlt, ?_⟩
  rcases hhere with rfl | ⟨hlt, hin', hclose⟩
  · exact .inl ⟨rfl, hstop.trans hin⟩
  · exact .inr ⟨hlt, hin'.trans_le hin, (h.close_iff hs hdata hin ho hle hc hin').1 hclose⟩

theorem Tracks.blockMarks {fuel : Nat} (hend : d.offset + data.length < 2 ^ 63)
    (hlen : data.length < 2 ^ 32) (hr : Ready s d (d.offset + data.length)) (h : Tracks s content d)
    (hfuel : data.length + 2 ≤ fuel ∨ d.offset + data.length + 1 ≤ d.lastCut + fuel) :
    ∃ cuts d', blockMarks s data fuel d = some (cuts, d') ∧
      d'.offset = d.offset + data.length ∧ Ready s d' d'.offset ∧ Tracks s content d' ∧
      ∀ ps, CutMarks s content d'.lastCut ps → CutMarks s content d.lastCut (cuts ++ ps) := by
  induction fuel generalizing d with
  | zero =>
    have := hr.cut
    omega
  | succ fuel ih =>
    obtain ⟨d', hfind, hcut, ho, hr', h'⟩ | ⟨d', hfind, hne, ho, hle, hr', h', hnext⟩ :=
      h.findNextCutMark hs hdata hin hend hlen hr
    · refine ⟨[], d', by rw [blockMarks, hfind]; rfl, ho, hr', h', fun ps hps => ?_⟩
      rwa [hcut] at hps
    have hstep := hnext.minimal
    have hpos := hs.positive
    rw [← ho] at hdata hin hend hr' hle ⊢
    obtain ⟨cuts, d'', hcuts, ho'', hr'', h'', htail⟩ := ih hdata hin hend hr' h' (by omega)
    refine ⟨d'.lastCut :: cuts, d'', ?_, ho'', hr'', h'', fun ps hps => ?_⟩
    · simp [blockMarks, hfind, hne, hcuts]
    · exact .next hnext (htail ps hps)

end

variable {blocks : List (List UInt8)}

theorem Tracks.fileMarks (hs : s.Moderate) (hlen : content.length < 2 ^ 63)
    (hblocks : ∀ data ∈ blocks, data.length < 2 ^ 32) {d : Detector}
    (hrest : content.drop d.offset = blocks.flatten) (ho : d.offset ≤ content.length)
    (hr : Ready s d d.offset) (h : Tracks s content d) :
    ∃ cuts, fileMarks s d blocks = some cuts ∧ CutMarks s content d.lastCut cuts := by
  induction blocks generalizing d with
  | nil =>
    have hend : content.length ≤ d.offset := drop_eq_nil_iff.1 hrest
    refine ⟨[], rfl, .last (hend.trans_lt hr.near) fun q hq hlt => h.before q hq ?_⟩
    have := hr.reach
    omega
  | cons data blocks ih =>
    have hsize := congrArg length hrest
    rw [length_drop, flatten_cons, length_append] at hsize
    have hdata : data = slice content d.offset data.length := by
      rw [slice, hrest, flatten_cons, take_left]
    obtain ⟨cuts, d', hcuts, ho', hr', h', hmarks⟩ :=
      h.blockMarks hs hdata (by omega) (by omega) (hblocks data (mem_cons_self ..))
        (hr.mono (Nat.le_add_right ..)) (.inl le_rfl)
    have hrest' : content.drop d'.offset = blocks.flatten := by
      rw [ho', ← drop_drop, hrest, flatten_cons, drop_left]
    obtain ⟨ps, hps, hmarks'⟩ := ih (fun b hb => hblocks b (mem_cons_of_mem _ hb)) hrest'
      (by omega) hr' h'
    exact ⟨cuts ++ ps, by simp [Ingestion.fileMarks, hcuts, hps], hmarks ps hmarks'⟩

theorem fileMarks_cutMarks (hs : s.Moderate)
    (hlen : blocks.flatten.length < 2 ^ 63) (hblocks : ∀ data ∈ blocks, data.length < 2 ^ 32) :
    ∃ cuts, fileMarks s {} blocks = some cuts ∧ CutMarks s blocks.flatten 0 cuts :=
  Tracks.fileMarks hs hlen hblocks rfl (zero_le _) (ready_start hs)
    (tracks_cut (d := {}) s blocks.flatten (.inl rfl))

theorem fileMarks_of_append {more ps} {d : Detector}
    (h : fileMarks s d (blocks ++ more) = some ps) :
    ∃ cuts, fileMarks s d blocks = some cuts ∧ cuts <+: ps := by
  induction blocks generalizing d ps with
  | nil => exact ⟨[], rfl, nil_prefix⟩
  | cons data blocks ih =>
    rw [cons_append, fileMarks] at h
    rw [fileMarks]
    split at h
    · cases h
    obtain ⟨_, hps, rfl⟩ := Option.map_eq_some_iff.1 h
    obtain ⟨cuts, hcuts, hle⟩ := ih hps
    exact ⟨_, by rw [hcuts]; rfl, (prefix_append_right_inj _).2 hle⟩

def smallSizes : ChunkSizes where
  minimal := 32
  average := 33
  maximal := 64
  fits := by decide
  accepted := by decide

/-- The byte comes near the middle of the range when 24 more have been shifted in. -/
def oneByte : List UInt8 := replicate 10 0 ++ 127 :: replicate 59 0

/-- **Appending keeps the cut marks**, however the file is split before and after. -/
theorem appending_keeps_cuts {blocks'} (hs : s.Moderate)
    (hblocks : ∀ data ∈ blocks ++ blocks', data.length < 2 ^ 32)
    (hlen : blocks'.flatten.length < 2 ^ 63) (h : blocks.flatten <+: blocks'.flatten) :
    ∃ cuts cuts', fileMarks s {} blocks = some cuts ∧ fileMarks s {} blocks' = some cuts' ∧
      cuts <+: cuts' := by
  obtain ⟨hblocks, hblocks'⟩ := forall_mem_append.1 hblocks
  obtain ⟨cuts', hcuts', hmarks'⟩ := fileMarks_cutMarks hs hlen hblocks'
  obtain ⟨rest, hrest⟩ := h
  -- what is appended may as well arrive byte by byte
  have hflat : (blocks ++ rest.map ([·])).flatten = blocks'.flatten := by
    rw [flatten_append, ← flatMap_def, flatMap_singleton', hrest]
  obtain ⟨ps, hps, hmarks⟩ := fileMarks_cutMarks hs (hflat ▸ hlen)
    (forall_mem_append.2 ⟨hblocks, by simp⟩)
  obtain ⟨cuts, hcuts, hle⟩ := fileMarks_of_append hps
  rw [hflat] at hmarks
  exact ⟨cuts, cuts', hcuts, hcuts', hmarks.unique hmarks' ▸ hle⟩

theorem appending_keeps_cuts_zeroes :
    ∃ cuts cuts', fileMarks smallSizes {} [replicate 70 0] = some cuts ∧
      fileMarks smallSizes {} [replicate 9 0, replicate 70 0] = some cuts' ∧ cuts <+: cuts' :=
  appending_keeps_cuts ⟨by decide, by decide⟩ (by decide) (by decide) (by decide)

def farContent : List UInt8 := 0 :: replicate 25 1 ++ replicate 7 0 ++ [255, 0]

end Cvmfs.Ingestion
