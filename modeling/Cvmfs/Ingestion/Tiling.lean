import Cvmfs.Ingestion.TaskChunk

/-! # Ingestion tiles every file

The invariant of the chunking stage speaks about streams: every chunk that is being
filled carries the file from the chunk's offset up to the position reached, every chunk
with a stop block carries exactly its own range. The stopped partial chunks and the
current one lie one behind the other. -/

namespace Cvmfs.Ingestion

open Lib List Chunking Nat Detector

def log (out : List BlockItem) : List (Nat × Message UInt8) := out.map fun b => (b.tag, b.content)

section

variable (s : Chunking) (c : Nat × ChunkItem)
include s c

theorem log_dispatch (m : Message UInt8) : log (s.dispatch c m).out = log s.out ++ [(c.1, m)] := by
  simp [log, dispatch]

theorem stopped_data (piece : List UInt8) :
    stopped (s.dispatch c (.data piece)).out = stopped s.out := by
  simp [stopped, dispatch]

theorem stopped_stop : stopped (s.dispatch c .stop).out = stopped s.out ++ [c] := by
  simp [stopped, dispatch]

end

/-! ## Streams of chunks -/

/-- The chunks being filled, each with the position it has been filled to, and the stopped
chunks. -/
structure Streams (content : List UInt8) (tags : Nat → Nat) (s : Chunking)
    (filling : List ((Nat × ChunkItem) × Nat)) : Prop where
  carried : ∀ o ∈ filling, o.1.2.offset ≤ o.2 ∧
    Carries (log s.out) o.1.1 (slice content o.1.2.offset (o.2 - o.1.2.offset))
  ended : ∀ c ∈ stopped s.out, Ended (log s.out) c.1 (slice content c.2.offset c.2.size)
  distinct : (filling.map (·.1.1) ++ (stopped s.out).map Prod.fst).Nodup
  covered : ∀ b ∈ s.out, b.tag ∈ filling.map (·.1.1) ++ (stopped s.out).map Prod.fst
  drawn : ∀ t ∈ filling.map (·.1.1) ++ (stopped s.out).map Prod.fst, ∃ k < s.drawn, t = tags k
  inFly : s.nchunksInFly = filling.length + (stopped s.out).length

namespace Streams

variable {content : List UInt8} {tags : Nat → Nat} {s : Chunking}
  {filling filling' : List ((Nat × ChunkItem) × Nat)} {c : Nat × ChunkItem} {pos : Nat}

theorem perm (h : Streams content tags s filling) (hperm : filling.Perm filling') :
    Streams content tags s filling' := by
  have hmap := (hperm.map (·.1.1)).append_right ((stopped s.out).map Prod.fst)
  exact {
    carried := fun o ho => h.carried o (hperm.mem_iff.2 ho)
    ended := h.ended
    distinct := hmap.nodup_iff.1 h.distinct
    covered := fun b hb => hmap.mem_iff.1 (h.covered b hb)
    drawn := fun t ht => h.drawn t (hmap.mem_iff.2 ht)
    inFly := by rw [h.inFly, hperm.length_eq] }

section

variable (h : Streams content tags s ((c, pos) :: filling))
include h

theorem head_ne {t} (ht : t ∈ filling.map (·.1.1) ++ (stopped s.out).map Prod.fst) : c.1 ≠ t := by
  rintro rfl
  exact (nodup_cons.1 h.distinct).1 ht

theorem data (n : Nat) : Streams content tags (s.dispatch c (.data (slice content pos n)))
      ((c, pos + n) :: filling) := by
  have hstop := stopped_data s c (slice content pos n)
  obtain ⟨hle, hcarries⟩ := h.carried (c, pos) (.head _)
  refine {
    carried := ?_
    ended := ?_
    distinct := by rw [hstop]; exact h.distinct
    covered := ?_
    drawn := by rw [hstop]; exact h.drawn
    inFly := by rw [hstop]; exact h.inFly }
  · intro o ho
    rw [log_dispatch]
    rcases mem_cons.1 ho with rfl | ho
    · refine ⟨le_add_right_of_le hle, ?_⟩
      have := hcarries.data (slice content pos n)
      rwa [slice_extend content hle n] at this
    · obtain ⟨hle, hcarries⟩ := h.carried o (.tail _ ho)
      exact ⟨hle, hcarries.other (h.head_ne (mem_append_left _ (mem_map_of_mem ho))) _⟩
  · rw [hstop, log_dispatch]
    intro e he
    exact (h.ended e he).other (h.head_ne (mem_append_right _ (mem_map_of_mem he))) _
  · rw [hstop]
    intro b hb
    rcases mem_append.1 hb with hb | hb
    · exact h.covered b hb
    · rw [mem_singleton.1 hb]
      exact .head _

theorem stop {e} (hoff : e.offset = c.2.offset) (hsize : e.size = pos - c.2.offset) :
    Streams content tags (s.dispatch (c.1, e) .stop) filling := by
  have hstop := stopped_stop s (c.1, e)
  obtain ⟨-, hcarries⟩ := h.carried (c, pos) (.head _)
  have hmap : (filling.map (·.1.1) ++ (stopped (s.dispatch (c.1, e) .stop).out).map Prod.fst).Perm
      (((c, pos) :: filling).map (·.1.1) ++ (stopped s.out).map Prod.fst) := by
    rw [hstop, map_append, map_singleton, ← append_assoc]
    exact perm_append_singleton _ _
  refine {
    carried := ?_
    ended := ?_
    distinct := hmap.nodup_iff.2 h.distinct
    covered := ?_
    drawn := fun t ht => h.drawn t (hmap.mem_iff.1 ht)
    inFly := ?_ }
  · intro o ho
    obtain ⟨hle, hcarries⟩ := h.carried o (.tail _ ho)
    rw [log_dispatch]
    exact ⟨hle, hcarries.other (h.head_ne (mem_append_left _ (mem_map_of_mem ho))) _⟩
  · rw [hstop, log_dispatch]
    intro e' he
    rcases mem_append.1 he with he | he
    · exact (h.ended e' he).other (h.head_ne (mem_append_right _ (mem_map_of_mem he))) _
    · rw [mem_singleton.1 he, hoff, hsize]
      exact hcarries.stop
  · intro b hb
    refine hmap.mem_iff.2 ?_
    rcases mem_append.1 hb with hb | hb
    · exact h.covered b hb
    · rw [mem_singleton.1 hb]
      exact .head _
  · rw [hstop, length_append, length_singleton]
    have := h.inFly
    rw [length_cons] at this
    simp only [dispatch]
    omega

theorem withItem {e} (hoff : e.offset = c.2.offset) :
    Streams content tags s (((c.1, e), pos) :: filling) := by
  refine ⟨?_, h.ended, h.distinct, h.covered, h.drawn, h.inFly⟩
  intro o ho
  rcases mem_cons.1 ho with rfl | ho
  · simpa only [hoff] using h.carried (c, pos) (.head _)
  · exact h.carried o (.tail _ ho)

end

theorem newChunk (hinj : Function.Injective tags) (h : Streams content tags s filling)
    (offset : Nat) : Streams content tags (s.newChunk tags offset).2
      (((s.newChunk tags offset).1, offset) :: filling) := by
  have hfresh : tags s.drawn ∉ filling.map (·.1.1) ++ (stopped s.out).map Prod.fst := by
    intro hmem
    obtain ⟨k, hk, heq⟩ := h.drawn _ hmem
    exact ne_of_gt hk (hinj heq)
  refine {
    carried := ?_
    ended := h.ended
    distinct := nodup_cons.2 ⟨hfresh, h.distinct⟩
    covered := fun b hb => .tail _ (h.covered b hb)
    drawn := ?_
    inFly := ?_ }
  · intro o ho
    rcases mem_cons.1 ho with rfl | ho
    · refine ⟨le_rfl, ?_⟩
      simp only [Chunking.newChunk, Nat.sub_self, slice_zero]
      refine Carries.fresh fun m hm => ?_
      obtain ⟨b, hb, rfl⟩ := mem_map.1 hm
      rintro heq
      exact hfresh (heq ▸ h.covered b hb)
    · exact h.carried o ho
  · intro t ht
    rcases mem_cons.1 ht with rfl | ht
    · exact ⟨s.drawn, lt_succ_self _, rfl⟩
    · obtain ⟨k, hk, heq⟩ := h.drawn t ht
      exact ⟨k, lt_succ_of_lt hk, heq⟩
  · have := h.inFly
    simp only [Chunking.newChunk, length_cons]
    omega

theorem dispatchTail (h : Streams content tags s ((c, pos) :: filling)) {n tail}
    (htail : tail = slice content pos n) (hlen : tail.length = n) :
    Streams content tags (s.dispatchTail c tail) ((c, pos + n) :: filling) := by
  unfold Chunking.dispatchTail
  split
  next hnil =>
    rw [hnil, length_nil] at hlen
    rwa [← hlen, add_zero]
  · rw [htail]
    exact h.data n

end Streams

theorem stopped_dispatchTail (s : Chunking) (c : Nat × ChunkItem) (tail : List UInt8) :
    stopped (s.dispatchTail c tail).out = stopped s.out := by
  unfold dispatchTail
  split
  · rfl
  · exact stopped_data s c tail

theorem detector_dispatchTail (s : Chunking) (c : Nat × ChunkItem) (tail : List UInt8) :
    (s.dispatchTail c tail).detector = s.detector := by
  unfold dispatchTail
  split <;> rfl

/-! ## Partial chunks -/

def extent (c : ChunkItem) : Nat × Nat := (c.offset, c.size)

/-- The file is cut up to `pos`, and `next` is the current chunk. -/
structure Cutting (f : FileItem) (content : List UInt8) (tags : Nat → Nat) (s : Chunking)
    (next : Nat × ChunkItem) (pos : Nat) (others : List ((Nat × ChunkItem) × Nat)) : Prop where
  streams : Streams content tags s ((next, pos) :: others)
  fresh : next.2 = { offset := next.2.offset }
  tiles : Tiles 0 ((stopped s.out).map fun c => extent c.2) next.2.offset
  plain : ∀ c ∈ stopped s.out, c.2.isBulkChunk = false ∧ c.2.suffix = .chunk ∧ 0 < c.2.size
  below : next.2.offset < f.size

section

variable {f : FileItem} {content : List UInt8} {tags : Nat → Nat} {s : Chunking}
  {next : Nat × ChunkItem} {pos : Nat} {others : List ((Nat × ChunkItem) × Nat)}

theorem Cutting.tail (h : Cutting f content tags s next pos others) {n tail}
    (htail : tail = slice content pos n) (hlen : tail.length = n) :
    Cutting f content tags (s.dispatchTail next tail) next (pos + n) others := by
  have hstop := stopped_dispatchTail s next tail
  exact {
    streams := h.streams.dispatchTail htail hlen
    fresh := h.fresh
    tiles := by rw [hstop]; exact h.tiles
    plain := by rw [hstop]; exact h.plain
    below := h.below }

theorem Cutting.cut (hinj : Function.Injective tags)
    (h : Cutting f content tags s next pos others) (hpos : next.2.offset < pos)
    (hlt : pos < f.size) :
    let ended : ChunkItem := { offset := next.2.offset, size := pos - next.2.offset }
    let s' := s.dispatch (next.1, ended) .stop
    Cutting f content tags (s'.newChunk tags pos).2 (s'.newChunk tags pos).1 pos others := by
  intro ended s'
  have hstop : stopped (s'.newChunk tags pos).2.out = stopped s.out ++ [(next.1, ended)] :=
    stopped_stop s (next.1, ended)
  have hstreams : Streams content tags s' others := h.streams.stop rfl rfl
  refine {
    streams := hstreams.newChunk hinj pos
    fresh := rfl
    tiles := ?_
    plain := ?_
    below := hlt }
  · rw [hstop, map_append, map_singleton]
    have := h.tiles.snoc (pos - next.2.offset)
    rwa [Nat.add_sub_cancel' (Nat.le_of_lt hpos)] at this
  rw [hstop]
  intro c hc
  rcases mem_append.1 hc with hc | hc
  · exact h.plain c hc
  · rw [mem_singleton.1 hc]
    exact ⟨rfl, rfl, Nat.sub_pos_of_lt hpos⟩

/-- A block of a file that is large enough for chunks. -/
structure BlockAt (f : FileItem) (content : List UInt8) (base : Nat) (data : List UInt8) :
    Prop where
  moderate : f.sizes.Moderate
  minimal : f.sizes.minimal < f.size
  small : f.size < 2 ^ 63
  block : data = slice content base data.length
  inside : base + data.length ≤ f.size
  length : data.length < 2 ^ 32

structure Following (f : FileItem) (d : Detector) (next : Nat × ChunkItem)
    (base len offsetInBlock : Nat) : Prop where
  offset : d.offset = base
  ready : d.Ready f.sizes (base + len)
  current : next.2.offset ≤ d.lastCut
  reached : offsetInBlock = 0 ∨ base + offsetInBlock = d.lastCut
  inside : offsetInBlock ≤ len

theorem Cutting.withDetector (h : Cutting f content tags s next pos others) (d : Detector) :
    Cutting f content tags { s with detector := d } next pos others :=
  { h with streams := { h.streams with } }

theorem BlockAt.slice {base data} (hb : BlockAt f content base data) {start len}
    (h : start + len ≤ data.length) : slice data start len = slice content (base + start) len := by
  conv_lhs => rw [hb.block]
  exact slice_slice h

/-- The loop ends, and what it leaves open is the end of the block. The next cut mark is
at `max base (lastCut + minimal)` or later, which bounds the number of turns. -/
theorem cutLoop_spec (hinj : Function.Injective tags) {data base} (hb : BlockAt f content base data)
    {fuel offsetInBlock} (hpos : 0 < fuel)
    (hfuel : base + data.length + 2 ≤ fuel + max base (s.detector.lastCut + f.sizes.minimal))
    (h : Cutting f content tags s next (base + offsetInBlock) others)
    (hd : Following f s.detector next base data.length offsetInBlock) : ∃ s' next' offsetInBlock',
      cutLoop f tags data base fuel s next offsetInBlock = some (s', next', offsetInBlock') ∧
      Cutting f content tags s' next' (base + offsetInBlock') others ∧
      offsetInBlock' ≤ data.length ∧ next'.2.offset ≤ s'.detector.lastCut ∧
      s'.detector.offset = base + data.length ∧ s'.detector.Ready f.sizes s'.detector.offset := by
  induction fuel generalizing s next offsetInBlock with
  | zero => exact absurd hpos (lt_irrefl 0)
  | succ fuel ih =>
    have h32 := (f.sizes.accepted.2 hb.moderate.positive).1
    have hmin := hb.minimal.trans hb.small
    have hend : s.detector.offset + data.length < 2 ^ 63 := by
      rw [hd.offset]
      exact hb.inside.trans_lt hb.small
    have hready : s.detector.Ready f.sizes (s.detector.offset + data.length) :=
      hd.offset.symm ▸ hd.ready
    have hcut := hready.cut
    have hfinds := findNextCutMark_finds hb.moderate (by omega) hend hb.length hready
    rw [cutLoop]
    revert hfinds
    generalize findNextCutMark f.sizes s.detector data = found
    intro hfinds
    cases hfinds with
    | @nothing d' hoff hlast hready =>
      exact ⟨{ s with detector := d' }, next, offsetInBlock, by simp, h.withDetector d', hd.inside,
        hlast ▸ hd.current, by rw [hoff, hd.offset], hready⟩
    | @cut d' hoff hbase hmincut hready =>
      obtain ⟨cut, hcut⟩ : ∃ cut, d'.lastCut = cut := ⟨_, rfl⟩
      have hle := hready.cut
      have hcurrent := hd.current
      have hreached := hd.reached
      rw [hd.offset] at hbase hle
      rw [hcut] at hbase hmincut hle ⊢
      have hfrom : base + offsetInBlock ≤ cut := by omega
      have hzero : ¬cut = 0 := by omega
      have hchecks : base + offsetInBlock ≤ cut ∧ cut - base ≤ data.length ∧
          next.2.offset ≤ cut := by omega
      have hin : offsetInBlock + (cut - base - offsetInBlock) ≤ data.length := by omega
      have htail := (h.withDetector d').tail (hb.slice hin) (length_slice hin)
      rw [show base + offsetInBlock + (cut - base - offsetInBlock) = cut by omega] at htail
      have hset : next.2.setSize (cut - next.2.offset) =
          some { offset := next.2.offset, size := cut - next.2.offset } := by
        rw [h.fresh]
        rfl
      simp only [hzero, hchecks, hset, if_false, and_self, if_true]
      have hbound : base + (cut - base) = cut := by omega
      have hfuel' : base + data.length + 2 ≤ fuel + max base (cut + f.sizes.minimal) := by omega
      have hready' : d'.Ready f.sizes (base + data.length) := hd.offset ▸ hready
      have hdet := detector_dispatchTail { s with detector := d' } next
        (slice data offsetInBlock (cut - base - offsetInBlock))
      by_cases hlt : cut < f.size
      · rw [if_pos hlt]
        refine ih (by omega) ?_ ?_ ?_
        · simpa only [newChunk, dispatch, hdet, hcut] using hfuel'
        · rw [hbound]
          exact htail.cut hinj (by omega) hlt
        · simp only [newChunk, dispatch, hdet]
          exact ⟨hoff.trans hd.offset, hready', hcut.ge, .inr (hbound.trans hcut.symm), hchecks.2.1⟩
      · rw [if_neg hlt]
        refine ih (by omega) ?_ ?_ ?_
        · simpa only [hdet, hcut] using hfuel'
        · rwa [hbound]
        · rw [hdet]
          exact ⟨hoff.trans hd.offset, hready', hcut ▸ hchecks.2.2,
            .inr (hbound.trans hcut.symm), hchecks.2.1⟩

/-! ## Blocks of a file -/

def bulkItem (f : FileItem) : ChunkItem :=
  { offset := 0, size := f.size, isBulkChunk := true, suffix := f.hashSuffix }

inductive Legacy (f : FileItem) : Option (Nat × ChunkItem) → Prop
  | without : f.hasLegacyBulkChunk = false → Legacy f none
  | beside (tag : Nat) : f.hasLegacyBulkChunk = true → Legacy f (some (tag, bulkItem f))

inductive Going (f : FileItem) (content : List UInt8) (tags : Nat → Nat) :
    ChunkInfo → Chunking → Nat → Prop
  | cutting {s : Chunking} {pos : Nat} {next : Nat × ChunkItem}
      {bulk : Option (Nat × ChunkItem)} :
    f.mayHaveChunks = true → Legacy f bulk →
    Cutting f content tags s next pos (bulk.toList.map fun c => (c, pos)) →
    next.2.offset ≤ s.detector.lastCut → s.detector.offset = pos →
    s.detector.Ready f.sizes pos →
    Going f content tags ⟨pos, some next, bulk⟩ s pos
  | bulk {s : Chunking} {pos tag : Nat} :
    f.mayHaveChunks = false → Streams content tags s [((tag, bulkItem f), pos)] →
    stopped s.out = [] →
    Going f content tags ⟨0, none, some (tag, bulkItem f)⟩ s pos

/-- What the read stage knows about a file. -/
structure Readable (f : FileItem) (content : List UInt8) : Prop where
  length : content.length = f.size
  small : f.size < 2 ^ 63
  chunks : f.mayHaveChunks = true → f.sizes.Moderate ∧ f.sizes.minimal < f.size

theorem streams_start (content : List UInt8) (tags : Nat → Nat) : Streams content tags {} [] :=
  ⟨by simp, by simp [stopped], by simp [stopped], by simp, by simp [stopped], by simp [stopped]⟩

theorem going_start (hinj : Function.Injective tags) (hf : Readable f content) :
    Going f content tags (chunkInfo f tags {}).1 (chunkInfo f tags {}).2 0 := by
  have hnew := (streams_start content tags).newChunk hinj 0
  unfold chunkInfo start
  dsimp only
  split
  next hmay =>
    obtain ⟨hmod, hsize⟩ := hf.chunks hmay
    have hpos : 0 < f.size := zero_lt_of_lt hsize
    split
    next hlegacy =>
      have hbulk : Streams content tags _ _ := (hnew.newChunk hinj 0).withItem (e := bulkItem f) rfl
      exact .cutting hmay (.beside _ hlegacy)
        ⟨hbulk.perm (.swap _ _ _), rfl, .nil 0, forall_mem_nil _, hpos⟩ le_rfl rfl
        (ready_start hmod)
    next hlegacy =>
      exact .cutting hmay (.without (by simpa using hlegacy))
        ⟨hnew, rfl, .nil 0, forall_mem_nil _, hpos⟩ le_rfl rfl (ready_start hmod)
  next hmay =>
    exact .bulk (by simpa using hmay) (hnew.withItem rfl) rfl

theorem stopped_dispatchBulk_data (s : Chunking) (info : ChunkInfo) (piece : List UInt8) :
    stopped (s.dispatchBulk info (.data piece)).out = stopped s.out := by
  unfold dispatchBulk
  split
  · rfl
  · exact stopped_data s _ piece

theorem detector_dispatchBulk (s : Chunking) (info : ChunkInfo) (content : Message UInt8) :
    (s.dispatchBulk info content).detector = s.detector := by
  unfold dispatchBulk
  split <;> rfl

variable {info : ChunkInfo}

theorem chunkInfo_of_info (h : s.info = some info) : chunkInfo f tags s = (info, s) := by
  simp [chunkInfo, h]

theorem info_dispatchBulk (s : Chunking) (info : ChunkInfo) (content : Message UInt8) :
    (s.dispatchBulk info content).info = s.info := by
  unfold dispatchBulk
  split <;> rfl

theorem Cutting.bulk {bulk len}
    (h : Cutting f content tags s next (pos + len) (bulk.toList.map fun c => (c, pos)))
    (info : ChunkInfo) (hinfo : info.bulkChunk = bulk) :
    Cutting f content tags
      (({ s with info := some info } : Chunking).dispatchBulk info (.data (slice content pos len)))
      next (pos + len) (bulk.toList.map fun c => (c, pos + len)) := by
  have hstop := stopped_dispatchBulk_data { s with info := some info } info (slice content pos len)
  refine ⟨?_, h.fresh, by rw [hstop]; exact h.tiles, by rw [hstop]; exact h.plain, h.below⟩
  have hs : Streams content tags { s with info := some info }
      ((next, pos + len) :: bulk.toList.map fun c => (c, pos)) :=
    { h.streams with }
  unfold dispatchBulk
  rw [hinfo]
  cases bulk with
  | none => exact hs
  | some c => exact ((hs.perm (.swap _ _ _)).data len).perm (.swap _ _ _)

theorem going_data (hinj : Function.Injective tags) (hf : Readable f content) {data}
    (hne : data ≠ []) (hlen : data.length < 2 ^ 32) (hblock : data = slice content pos data.length)
    (hinside : pos + data.length ≤ f.size)
    (h : Going f content tags (chunkInfo f tags s).1 (chunkInfo f tags s).2 pos) :
    ∃ s', process f tags s (.data data) = some s' ∧
      Going f content tags (chunkInfo f tags s').1 (chunkInfo f tags s').2 (pos + data.length) := by
  unfold process
  revert h
  generalize chunkInfo f tags s = entry
  obtain ⟨info, s⟩ := entry
  intro h
  dsimp only at h ⊢
  rw [if_neg (fun hc => hne hc.2)]
  cases h with
  | @cutting _ _ next bulk hmay hlegacy hcut hcurrent hoff hready =>
    obtain ⟨hmod, hmin⟩ := hf.chunks hmay
    have hb : BlockAt f content pos data := ⟨hmod, hmin, hf.small, hblock, hinside, hlen⟩
    obtain ⟨s', next', offsetInBlock, hloop, hcut', hle, hcurrent', hoff', hready'⟩ :=
      cutLoop_spec hinj hb (show 0 < data.length + 2 by omega) (by omega) hcut
        ⟨hoff, hready.mono (le_add_right _ _), hcurrent, .inl rfl, zero_le _⟩
    have hdata : processData f tags ⟨pos, some next, bulk⟩ s data =
        some (⟨pos + data.length, some next', bulk⟩,
          s'.dispatchTail next' (data.drop offsetInBlock)) := by
      simp only [processData, hloop, if_neg (not_lt.2 hle)]
    have hin : offsetInBlock + (data.length - offsetInBlock) ≤ data.length := by omega
    have hdrop : data.drop offsetInBlock = slice data offsetInBlock (data.length - offsetInBlock) :=
      (take_of_length_le (length_drop ..).le).symm
    have htail := hcut'.tail (hdrop.trans (hb.slice hin)) (length_drop ..)
    rw [show pos + offsetInBlock + (data.length - offsetInBlock) = pos + data.length by omega]
      at htail
    have hbulk := htail.bulk ⟨pos + data.length, some next', bulk⟩ rfl
    rw [← hblock] at hbulk
    simp only [hdata]
    refine ⟨_, rfl, ?_⟩
    rw [chunkInfo_of_info (info_dispatchBulk _ _ _)]
    refine .cutting hmay hlegacy hbulk ?_ ?_ ?_ <;>
      simp only [detector_dispatchBulk, detector_dispatchTail]
    · exact hcurrent'
    · exact hoff'
    · exact hoff' ▸ hready'
  | @bulk _ _ tag hmay hstreams hnone =>
    refine ⟨_, rfl, ?_⟩
    have hdata := hstreams.data data.length
    rw [← hblock] at hdata
    exact .bulk hmay { hdata with } ((stopped_data _ _ data).trans hnone)

theorem drop_append_flatten {rest : List (List UInt8)} {data : List UInt8}
    (h : content.drop pos = data ++ rest.flatten) :
    data = slice content pos data.length ∧ content.drop (pos + data.length) = rest.flatten := by
  constructor
  · rw [slice, h, take_left]
  · rw [← drop_drop, h, drop_left]

theorem going_blocks (hinj : Function.Injective tags) (hf : Readable f content)
    {blocks : List (List UInt8)} (hblocks : ∀ b ∈ blocks, b ≠ [] ∧ b.length < 2 ^ 32)
    (hpos : pos ≤ content.length) (hrest : content.drop pos = blocks.flatten)
    (h : Going f content tags (chunkInfo f tags s).1 (chunkInfo f tags s).2 pos)
    (inputs : List (Message UInt8)) :
    ∃ s', processAll f tags s (blocks.map .data ++ inputs) = processAll f tags s' inputs ∧
      Going f content tags (chunkInfo f tags s').1 (chunkInfo f tags s').2 f.size := by
  induction blocks generalizing s pos with
  | nil =>
    have hend : content.length ≤ pos := drop_eq_nil_iff.1 hrest
    rw [← hf.length, le_antisymm hend hpos]
    exact ⟨s, rfl, h⟩
  | cons data blocks ih =>
    obtain ⟨hne, hlen⟩ := hblocks data (.head _)
    obtain ⟨hblock, hrest'⟩ := drop_append_flatten hrest
    have hinside : pos + data.length ≤ content.length := by
      have := congrArg length hrest
      rw [length_drop, flatten_cons, length_append] at this
      omega
    obtain ⟨s', hs', hgoing⟩ := going_data hinj hf hne hlen hblock (hf.length ▸ hinside) h
    obtain ⟨s'', hs'', hgoing'⟩ := ih (fun b hb => hblocks b (.tail _ hb)) hinside hrest' hgoing
    refine ⟨s'', ?_, hgoing'⟩
    rw [map_cons, cons_append, processAll, hs']
    exact hs''

/-! ## The stop block -/

/-- The partial chunks and the bulk chunks, in the order of their stop blocks. -/
def pieces (out : List BlockItem) : List ChunkItem :=
  ((stopped out).map Prod.snd).filter fun c => !c.isBulkChunk

def bulks (out : List BlockItem) : List ChunkItem :=
  ((stopped out).map Prod.snd).filter fun c => c.isBulkChunk

/-- A file that has been through the chunking stage. Every dispatched block belongs to a
stopped chunk, whose data are its byte range. The partial chunks lie one behind the other
and cover the file, the bulk chunk is the file as a whole. -/
structure Tiled (f : FileItem) (content : List UInt8) (s : Chunking) : Prop where
  finished : s.isFullyChunked = true
  ended : ∀ c ∈ stopped s.out, Ended (log s.out) c.1 (slice content c.2.offset c.2.size)
  distinct : ((stopped s.out).map Prod.fst).Nodup
  covered : ∀ b ∈ s.out, b.tag ∈ (stopped s.out).map Prod.fst
  inFly : s.nchunksInFly = (stopped s.out).length
  tiles : f.mayHaveChunks = true → Tiles 0 ((pieces s.out).map extent) f.size
  plain : ∀ c ∈ pieces s.out, c.suffix = .chunk ∧ 0 < c.size
  whole : f.mayHaveChunks = false → pieces s.out = []
  bulk : bulks s.out = if f.hasLegacyBulkChunk || !f.mayHaveChunks then [bulkItem f] else []

theorem Tiled.of_streams (h : Streams content tags s []) (hfin : s.isFullyChunked = true)
    (htiles : f.mayHaveChunks = true → Tiles 0 ((pieces s.out).map extent) f.size)
    (hplain : ∀ c ∈ pieces s.out, c.suffix = .chunk ∧ 0 < c.size)
    (hwhole : f.mayHaveChunks = false → pieces s.out = [])
    (hbulk : bulks s.out = if f.hasLegacyBulkChunk || !f.mayHaveChunks then [bulkItem f] else []) :
    Tiled f content s := by
  exact ⟨hfin, h.ended, by simpa using h.distinct, by simpa using h.covered,
    by simpa using h.inFly, htiles, hplain, hwhole, hbulk⟩

theorem pieces_bulks {out ps bs} (h : stopped out = ps ++ bs)
    (hps : ∀ c ∈ ps, c.2.isBulkChunk = false) (hbs : ∀ c ∈ bs, c.2.isBulkChunk = true) :
    pieces out = ps.map Prod.snd ∧ bulks out = bs.map Prod.snd := by
  unfold pieces bulks
  rw [h, map_append, filter_append, filter_append]
  have hp : ∀ c ∈ ps.map Prod.snd, c.isBulkChunk = false := forall_mem_map.2 hps
  have hb : ∀ c ∈ bs.map Prod.snd, c.isBulkChunk = true := forall_mem_map.2 hbs
  rw [filter_eq_self.2 fun c hc => by rw [hp c hc]; rfl,
    filter_eq_nil_iff.2 fun c hc => by rw [hb c hc]; decide,
    filter_eq_nil_iff.2 fun c hc => by rw [hp c hc]; decide,
    filter_eq_self.2 fun c hc => hb c hc, append_nil, nil_append]
  exact ⟨rfl, rfl⟩

theorem streams_dispatchBulk {bulk} (hbulk : Legacy f bulk)
    (h : Streams content tags s (bulk.toList.map fun c => (c, f.size)))
    (hinfo : info.bulkChunk = bulk) : Streams content tags (s.dispatchBulk info .stop) [] ∧
      stopped (s.dispatchBulk info .stop).out = stopped s.out ++ bulk.toList := by
  unfold dispatchBulk
  rw [hinfo]
  cases hbulk with
  | without _ => exact ⟨h, by simp⟩
  | beside tag _ =>
    exact ⟨h.stop (c := (tag, bulkItem f)) rfl rfl, stopped_stop s (tag, bulkItem f)⟩

theorem Legacy.bulks {bulk} (hmay : f.mayHaveChunks = true) (h : Legacy f bulk) :
    (∀ c ∈ bulk.toList, c.2.isBulkChunk = true) ∧ bulk.toList.map Prod.snd =
      if f.hasLegacyBulkChunk || !f.mayHaveChunks then [bulkItem f] else [] := by
  cases h with
  | without h => simp [hmay, h]
  | beside tag h => simp [hmay, h, bulkItem]

theorem Cutting.finish {bulk ended}
    (h : Cutting f content tags s next f.size (bulk.toList.map fun c => (c, f.size)))
    (hmay : f.mayHaveChunks = true) (hbulk : Legacy f bulk) (hinfo : info.bulkChunk = bulk)
    (hfin : s.isFullyChunked = true)
    (hended : ended = { offset := next.2.offset, size := f.size - next.2.offset }) :
    Tiled f content
      (({ s.dispatch (next.1, ended) .stop with info := none } : Chunking).dispatchBulk info
        .stop) := by
  have hstop := h.streams.stop (e := ended) (by rw [hended]) (by rw [hended])
  obtain ⟨hstreams, hstopped⟩ := streams_dispatchBulk
    (s := { s.dispatch (next.1, ended) .stop with info := none }) hbulk
    { hstop with } hinfo
  rw [stopped_stop] at hstopped
  obtain ⟨hbulks, hbulks'⟩ := hbulk.bulks hmay
  have hplain : ∀ c ∈ stopped s.out ++ [(next.1, ended)],
      c.2.isBulkChunk = false ∧ c.2.suffix = .chunk ∧ 0 < c.2.size := by
    intro c hc
    rcases mem_append.1 hc with hc | hc
    · exact h.plain c hc
    · rw [mem_singleton.1 hc, hended]
      exact ⟨rfl, rfl, Nat.sub_pos_of_lt h.below⟩
  obtain ⟨hp, hb⟩ := pieces_bulks hstopped (fun c hc => (hplain c hc).1) hbulks
  refine .of_streams hstreams ?_ (fun _ => ?_) ?_ (fun hno => absurd (hmay.symm.trans hno) (by decide))
    (hb.trans hbulks')
  · unfold dispatchBulk
    split <;> exact hfin
  · rw [hp, map_map, map_append, map_singleton]
    have := h.tiles.snoc (f.size - next.2.offset)
    rw [Nat.add_sub_cancel' (Nat.le_of_lt h.below)] at this
    rw [hended]
    exact this
  · rw [hp]
    exact forall_mem_map.2 fun c hc => (hplain c hc).2

theorem going_stop (h : Going f content tags (chunkInfo f tags s).1 (chunkInfo f tags s).2 f.size) :
    ∃ s', process f tags s .stop = some s' ∧ Tiled f content s' := by
  unfold process
  revert h
  generalize chunkInfo f tags s = entry
  obtain ⟨info, s⟩ := entry
  intro h
  cases h with
  | @cutting _ _ next bulk hmay hlegacy hcut hcurrent hoff hready =>
    have hset : next.2.setSize (f.size - next.2.offset) =
        some { offset := next.2.offset, size := f.size - next.2.offset } := by
      rw [hcut.fresh]
      rfl
    have hcut' : Cutting f content tags { s with isFullyChunked := true } next f.size _ :=
      { hcut with streams := { hcut.streams with } }
    simp only [processStop, if_neg (not_lt.2 (le_of_lt hcut.below)), hset]
    exact ⟨_, rfl, hcut'.finish hmay hlegacy rfl rfl rfl⟩
  | @bulk _ _ tag hmay hstreams hnone =>
    have hstop := hstreams.stop (e := bulkItem f) rfl rfl
    have hstopped := stopped_stop s (tag, bulkItem f)
    rw [hnone] at hstopped
    obtain ⟨hp, hb⟩ := pieces_bulks hstopped (by simp) (by simp [bulkItem])
    refine ⟨_, rfl, .of_streams { hstop with } rfl ?_ ?_ ?_ ?_⟩
    · intro hyes
      exact absurd (hmay.symm.trans hyes) (by decide)
    · intro c hc
      replace hc : c ∈ pieces (s.dispatch (tag, bulkItem f) .stop).out := hc
      rw [hp] at hc
      exact absurd hc not_mem_nil
    · exact fun _ => hp
    · refine hb.trans ?_
      simp [hmay]

/-! ## Registration -/

/-- A chunk that is registered as the file as a whole. -/
structure IsWhole (f : FileItem) (c : ChunkItem) : Prop where
  suffix : c.suffix = f.hashSuffix
  offset : c.offset = 0
  size : c.size = f.size

theorem extent_committed (f : FileItem) (c : ChunkItem) : extent (committed f c) = extent c := by
  unfold committed
  split <;> rfl

variable {c : ChunkItem}

theorem registerChunk_whole (hf : f.hashSuffix ≠ .chunk) (r : Registered) (h : IsWhole f c) :
    registerChunk f r c = some { r with
      bulkHash := some f.hashSuffix
      nchunksInFly := r.nchunksInFly - 1 } := by
  unfold registerChunk
  split
  next hc => exact absurd (h.suffix.symm.trans hc) hf
  · rw [if_pos ⟨h.offset, h.size⟩, h.suffix]

/-- The chunk stays a partial one when it is committed. -/
def staysPartial (f : FileItem) (c : ChunkItem) : Bool := (committed f c).suffix = .chunk

theorem registerAll_spec (hf : f.hashSuffix ≠ .chunk) {cs}
    (hcs : ∀ c ∈ cs, (committed f c).suffix = .chunk ∨ IsWhole f (committed f c)) (r : Registered) :
    ∃ r', registerAll f r cs = some r' ∧
      r'.chunks = r.chunks ++ (cs.filter (staysPartial f)).map extent ∧
      r'.nchunksInFly = r.nchunksInFly - cs.length ∧
      r'.bulkHash = if cs.all (staysPartial f) then r.bulkHash else some f.hashSuffix := by
  induction cs generalizing r with
  | nil => exact ⟨r, rfl, by simp, by simp, by simp⟩
  | cons c cs ih =>
    have hrest := fun c hc => hcs c (.tail _ hc)
    rcases hcs c (.head _) with hchunk | hwhole
    · have hstays : staysPartial f c = true := by simp [staysPartial, hchunk]
      obtain ⟨r', hr', hchunks, hfly, hbulk⟩ := ih hrest { r with
        chunks := r.chunks ++ [extent (committed f c)]
        nchunksInFly := r.nchunksInFly - 1 }
      refine ⟨r', ?_, ?_, ?_, ?_⟩
      · rw [registerAll, registerChunk, show (committed f c).suffix = .chunk from hchunk]
        exact hr'
      · rw [hchunks, filter_cons_of_pos hstays, map_cons, extent_committed]
        simp
      · rw [hfly, length_cons]
        dsimp only
        omega
      · rw [hbulk, all_cons, hstays, Bool.true_and]
    have hstays : staysPartial f c = false := by simp [staysPartial, hwhole.suffix, hf]
    obtain ⟨r', hr', hchunks, hfly, hbulk⟩ := ih hrest { r with
      bulkHash := some f.hashSuffix
      nchunksInFly := r.nchunksInFly - 1 }
    refine ⟨r', ?_, ?_, ?_, ?_⟩
    · rw [registerAll, registerChunk_whole hf r hwhole]
      exact hr'
    · rw [hchunks, filter_cons_of_neg (by simp [hstays])]
    · rw [hfly, length_cons]
      dsimp only
      omega
    · rw [hbulk, all_cons, hstays]
      simp

section

variable (h : Tiled f content s)
include h

theorem Tiled.commit (hf : f.hashSuffix ≠ .chunk) (hc : c ∈ (stopped s.out).map Prod.snd) :
    (committed f c).suffix = .chunk ∧ c ∈ pieces s.out ∧ c.isBulkChunk = false ∧
      c.isSolePiece f = false ∨ IsWhole f (committed f c) ∧ staysPartial f c = false ∧
      (c.isBulkChunk = true ∨ c.isSolePiece f = true) := by
  have hwhole : ∀ {c' : ChunkItem}, committed f c = c' → IsWhole f c' →
      IsWhole f (committed f c) ∧ staysPartial f c = false := by
    intro c' heq hw
    rw [heq]
    exact ⟨hw, by simp [staysPartial, heq, hw.suffix, hf]⟩
  cases hbulk : c.isBulkChunk with
  | true =>
    have hmem : c ∈ bulks s.out := mem_filter.2 ⟨hc, hbulk⟩
    rw [h.bulk] at hmem
    have heq : c = bulkItem f := by
      split at hmem
      · exact mem_singleton.1 hmem
      · exact absurd hmem not_mem_nil
    have hcom : committed f c = bulkItem f := by rw [heq]; rfl
    obtain ⟨hw, hstays⟩ := hwhole hcom ⟨rfl, rfl, rfl⟩
    exact .inr ⟨hw, hstays, .inl rfl⟩
  | false =>
    have hmem : c ∈ pieces s.out := mem_filter.2 ⟨hc, by rw [hbulk]; rfl⟩
    obtain ⟨hsuffix, -⟩ := h.plain c hmem
    cases hsole : c.isSolePiece f with
    | false => exact .inl ⟨by simp [committed, hsole, hsuffix], hmem, rfl, rfl⟩
    | true =>
      have hcom : committed f c = c.makeBulkChunk f := by simp [committed, hsole]
      simp only [ChunkItem.isSolePiece, hbulk, Bool.and_eq_true, beq_iff_eq] at hsole
      obtain ⟨hw, hstays⟩ := hwhole hcom ⟨rfl, hsole.1.2, hsole.2⟩
      exact .inr ⟨hw, hstays, .inr rfl⟩

theorem Tiled.sole (hc : c ∈ pieces s.out) :
    c.isSolePiece f = decide ((pieces s.out).length = 1) := by
  have hbulk : c.isBulkChunk = false := by simpa using (mem_filter.1 hc).2
  have hmay : f.mayHaveChunks = true := by
    by_contra hno
    rw [h.whole (by simpa using hno)] at hc
    exact absurd hc not_mem_nil
  have htiles := h.tiles hmay
  have hsole : c.isSolePiece f = decide (c.offset = 0 ∧ c.size = f.size) := by
    rw [ChunkItem.isSolePiece, hbulk, Bool.eq_iff_iff]
    simp
  have hpos : ∀ r ∈ (pieces s.out).map extent, 0 < r.2 :=
    forall_mem_map.2 fun c hc => (h.plain c hc).2
  rw [hsole, decide_eq_decide]
  match hps : pieces s.out with
  | [] => exact absurd (hps ▸ hc) not_mem_nil
  | [p] =>
    rw [hps] at hc htiles
    obtain rfl := mem_singleton.1 hc
    simpa [extent] using htiles.single
  | p :: q :: ps =>
    rw [hps] at hc htiles hpos
    have := htiles.several hpos (extent c) (mem_map_of_mem hc)
    simpa [extent] using this

theorem Tiled.stays (hf : f.hashSuffix ≠ .chunk) (hc : c ∈ (stopped s.out).map Prod.snd) :
    staysPartial f c = (!c.isBulkChunk && decide (1 < (pieces s.out).length)) := by
  rcases h.commit hf hc with ⟨hsuffix, hmem, hbulk, hsole⟩ | ⟨-, hstays, hcase⟩
  · have hlen : 0 < (pieces s.out).length := length_pos_of_mem hmem
    rw [h.sole hmem, decide_eq_false_iff_not] at hsole
    have hlt : 1 < (pieces s.out).length := by omega
    simp [staysPartial, hsuffix, hbulk, hlt]
  rw [hstays]
  cases hbulk : c.isBulkChunk with
  | true => rfl
  | false =>
    have hmem : c ∈ pieces s.out := mem_filter.2 ⟨hc, by rw [hbulk]; rfl⟩
    have hsole := hcase.resolve_left (by simp [hbulk])
    rw [h.sole hmem, decide_eq_true_iff] at hsole
    simp [hsole]

theorem Tiled.ne_nil (hread : Readable f content) : (stopped s.out).map Prod.snd ≠ [] := by
  intro hnil
  have hp : pieces s.out = [] := by rw [pieces, hnil]; rfl
  have hb : bulks s.out = [] := by rw [bulks, hnil]; rfl
  cases hmay : f.mayHaveChunks with
  | true =>
    have htiles := h.tiles hmay
    have hsize := (hread.chunks hmay).2
    rw [hp] at htiles
    have hsum := htiles.sum
    simp only [map_nil, sum_nil] at hsum
    omega
  | false =>
    rw [h.bulk, hmay] at hb
    simp at hb

theorem Tiled.bulk_mem (hlegacy : f.hasLegacyBulkChunk = true) :
    ∃ c ∈ (stopped s.out).map Prod.snd, c.isBulkChunk = true := by
  have hmem : bulkItem f ∈ bulks s.out := by
    rw [h.bulk, hlegacy]
    exact .head _
  exact ⟨_, (mem_filter.1 hmem).1, rfl⟩

/-- A file with at most one piece is registered as a whole, any other one with its pieces.
The chunks may be committed in any order. -/
theorem Tiled.registered (hread : Readable f content) (hf : f.hashSuffix ≠ .chunk)
    (hnone : f.hashSuffix = .none ∨ f.mayHaveChunks = false ∨ f.hasLegacyBulkChunk = true) {order}
    (horder : order.Perm ((stopped s.out).map Prod.snd)) :
    ∃ r, registerAll f { nchunksInFly := s.nchunksInFly } order = some r ∧ taskRegister f r = true ∧
      if (pieces s.out).length ≤ 1 then r.chunks = [] ∧ r.bulkHash = some f.hashSuffix
      else r.chunks.Perm ((pieces s.out).map extent) := by
  have hall : ∀ c ∈ order, (committed f c).suffix = .chunk ∨ IsWhole f (committed f c) := by
    intro c hc
    rcases h.commit hf (horder.mem_iff.1 hc) with hcase | hcase
    · exact .inl hcase.1
    · exact .inr hcase.1
  have hstays := fun (c : ChunkItem) (hc : c ∈ order) => h.stays hf (horder.mem_iff.1 hc)
  obtain ⟨r, hr, hchunks, hfly, hbulk⟩ :=
    registerAll_spec hf hall { nchunksInFly := s.nchunksInFly }
  refine ⟨r, hr, ?_⟩
  have hfly0 : r.nchunksInFly = 0 := by
    rw [hfly, horder.length_eq, length_map, h.inFly]
    simp
  rw [nil_append] at hchunks
  split
  next hle =>
    have hstays0 : ∀ c ∈ order, staysPartial f c = false := by
      intro c hc
      rw [hstays c hc, decide_eq_false (not_lt.2 hle), Bool.and_false]
    have hnil : r.chunks = [] := by
      rw [hchunks, filter_eq_nil_iff.2 fun c hc => by simp [hstays0 c hc]]
      rfl
    have hwhole : r.bulkHash = some f.hashSuffix := by
      rw [hbulk, if_neg]
      intro hyes
      obtain ⟨c, hc⟩ := exists_mem_of_ne_nil _ (h.ne_nil hread)
      have hc' := horder.mem_iff.2 hc
      exact absurd ((all_eq_true.1 hyes c hc').symm.trans (hstays0 c hc')) (by decide)
    exact ⟨by simp [taskRegister, hnil, hwhole, hfly0], hnil, hwhole⟩
  next hlt =>
    have hstays1 : ∀ c ∈ order, staysPartial f c = !c.isBulkChunk := by
      intro c hc
      rw [hstays c hc, decide_eq_true (Nat.lt_of_not_le hlt), Bool.and_true]
    have hperm : r.chunks.Perm ((pieces s.out).map extent) := by
      rw [hchunks, filter_congr hstays1]
      exact (horder.filter _).map _
    have hlen := hperm.length_eq
    rw [length_map] at hlen
    have hmay : f.mayHaveChunks = true := by
      by_contra hno
      rw [h.whole (by simpa using hno)] at hlt
      exact hlt (zero_le _)
    have hlegacy : f.hasLegacyBulkChunk = true → r.bulkHash = some f.hashSuffix := by
      intro hyes
      obtain ⟨c, hc, hcbulk⟩ := h.bulk_mem hyes
      rw [hbulk, if_neg]
      intro hyes
      have hc' := horder.mem_iff.2 hc
      have := (all_eq_true.1 hyes c hc').symm.trans (hstays1 c hc')
      simp [hcbulk] at this
    refine ⟨?_, hperm⟩
    have hlt' : 1 < r.chunks.length := by omega
    have hne : r.chunks.length ≠ 1 := by omega
    cases hleg : f.hasLegacyBulkChunk with
    | true => simp [taskRegister, hlegacy hleg, hfly0, hne]
    | false =>
      have hsuffix : f.hashSuffix = .none := by simpa [hmay, hleg] using hnone
      have hget : r.bulkHash.getD .none = .none := by
        rw [hbulk, hsuffix]
        split <;> rfl
      simp [taskRegister, hleg, hfly0, hlt', hne, hget, hsuffix]

end

end

/-- Chunk sizes are moderate when files may have chunks, and hashes of files that may have
partial chunks only have no suffix. -/
structure FileItem.Regular (f : FileItem) : Prop where
  sizes : f.mayHaveChunks = true → f.sizes.Moderate
  suffix : f.hashSuffix ≠ .chunk
  bulkSuffix : f.hashSuffix = .none ∨ f.mayHaveChunks = false ∨ f.hasLegacyBulkChunk = true

theorem readable_measured {f : FileItem} (hf : f.Regular) {content : List UInt8} {size : Nat}
    (hlen : content.length = size) (hsmall : size < 2 ^ 63) :
    Readable (f.measured size) content := by
  refine ⟨hlen, hsmall, fun hmay => ?_⟩
  simp only [FileItem.measured, ChunkSizes.mightFindChunks, Bool.and_eq_true,
    decide_eq_true_eq] at hmay
  exact ⟨hf.sizes hmay.1, hmay.2⟩

section

variable {f : FileItem} (hf : f.Regular) {tags : Nat → Nat} (hinj : Function.Injective tags)
  {size : Nat} (hsmall : size < 2 ^ 63) {blocks : List (List UInt8)}
  (hblocks : ∀ b ∈ blocks, b ≠ [] ∧ b.length < 2 ^ 32) (hsize : blocks.flatten.length = size)
include hf hinj hsmall hblocks hsize

theorem chunkFile_tiled :
    ∃ s, chunkFile f tags size blocks = some s ∧ Tiled (f.measured size) blocks.flatten s := by
  have hread := readable_measured hf hsize hsmall
  obtain ⟨s, hs, hgoing⟩ := going_blocks hinj hread hblocks (zero_le _) rfl
    (going_start hinj hread) [.stop]
  obtain ⟨s', hs', htiled⟩ := going_stop hgoing
  refine ⟨s', ?_, htiled⟩
  rw [chunkFile, hs, processAll, hs']
  rfl

end

/-- Ingestion tiles every file: whatever its content, its splitting into blocks and the tags
drawn, the chunking stage succeeds, what it dispatches tiles the file, and the file passes
the assertions of the registration, in whichever order the chunks are committed. -/
theorem ingestion_tiles (f : FileItem) (hf : f.Regular) (tags : Nat → Nat)
    (hinj : Function.Injective tags) (size : Nat) (hsmall : size < 2 ^ 63)
    (blocks : List (List UInt8)) (hblocks : ∀ b ∈ blocks, b ≠ [] ∧ b.length < 2 ^ 32)
    (hsize : blocks.flatten.length = size) :
    ∃ s, chunkFile f tags size blocks = some s ∧ Tiled (f.measured size) blocks.flatten s ∧
      ∀ order : List ChunkItem, order.Perm ((stopped s.out).map Prod.snd) →
        ∃ r, registerAll (f.measured size) { nchunksInFly := s.nchunksInFly } order = some r ∧
          taskRegister (f.measured size) r = true ∧
          if (pieces s.out).length ≤ 1 then
            r.chunks = [] ∧ r.bulkHash = some f.hashSuffix
          else r.chunks.Perm ((pieces s.out).map extent) := by
  obtain ⟨s, hs, htiled⟩ := chunkFile_tiled hf hinj hsmall hblocks hsize
  refine ⟨s, hs, htiled, fun order horder => ?_⟩
  refine htiled.registered (readable_measured hf hsize hsmall) hf.suffix ?_ horder
  rcases hf.bulkSuffix with hnone | hno | hlegacy
  · exact .inl hnone
  · exact .inr (.inl (by simp [FileItem.measured, hno]))
  · exact .inr (.inr hlegacy)

theorem ingestion_tiles_two_blocks :
    ∃ s, chunkFile { sizes := ⟨32, 64, 128, by decide, by decide⟩ } id 140
        [replicate 40 1, replicate 100 2] = some s ∧
      Tiled (FileItem.measured { sizes := ⟨32, 64, 128, by decide, by decide⟩ } 140)
        [replicate 40 1, replicate 100 2].flatten s := by
  obtain ⟨s, hs, htiled, -⟩ := ingestion_tiles { sizes := ⟨32, 64, 128, by decide, by decide⟩ }
    ⟨fun _ => ⟨by decide, by decide⟩, by decide, .inl rfl⟩ id Function.injective_id 140 (by decide)
    [replicate 40 1, replicate 100 2] (by simp) (by simp)
  exact ⟨s, hs, htiled⟩

/-- Without an upper bound for chunks, the end of the largest possible chunk wraps around.
Behind a cut mark the detector then stops early, and finds itself outside the next block. -/
theorem huge_maximum_aborts :
    (chunkFile { sizes := ⟨32, 33, 2 ^ 64 - 1, by decide, by decide⟩ } id 67
      [[0, 0] ++ replicate 64 1, [1]]).isNone = true := by
  decide +kernel

-- the sizes of a disabled detector are accepted, but it looks for cut marks
example :
    (chunkFile { sizes := ⟨0, 0, 0, by decide, by decide⟩ } id 1 [[0]]).isNone = true := by
  decide

end Cvmfs.Ingestion
