import Cvmfs.Receiver.PayloadSpec
import Mathlib.Data.List.Forall2

/-! # Which payloads are accepted

`Process` is meant to return success only for a payload that is complete: the
header has the announced digest, and every listed object was received in full,
with its hash, and committed (`Sound`). On every other stream it should return an
error, and no assertion should be reachable.

It does not: the state in which the pack consumer ends is never looked at, so an
early end of the stream passes for success (`sound_fails_at_end_of_stream`), a
failed read passes for the rest of the buffer, and an object with a wrong hash stays
in the list of pending files, which an assertion requires to be empty.
`sound_of_trustworthy` says on which inputs the result can be trusted. The streams
that need more than 32 bits, a header of `2^32` bytes or an object of more, are not
among them: there the cutting depends on how the reads fall.
-/

namespace Cvmfs.Receiver

open Consumer List Nat Processor
open Crypto (Bytes Any Algorithms mkFromHexPtr)
open Lib.Decimal (ascii)

/-- The bytes that the reads bring, up to the end or to a failed read. -/
def received : List Read → Bytes
  | [] | .error :: _ => []
  | .data bytes :: reads => if bytes = [] then [] else bytes ++ received reads

section Waiting

variable {hash : Algorithms → Bytes → Bytes} {index : List IndexEntry} {q : Bytes} {c : Consumer}
  {p : Processor} {objs : List (IndexEntry × Bytes)} {e : IndexEntry} {todo : List IndexEntry}
  {handed : Bytes} {n : Nat}

theorem consumeNext_payload {buf} (hstate : c.state = .continue)
    (hheader : c.expectedHeaderSize ≤ c.pos) (hn : n ≠ 0) :
    c.consumeNext hash n buf = c.consumePayload n buf := by
  have hz : c.expectedHeaderSize - c.pos = 0 := by omega
  have hlt : ¬ c.pos < c.expectedHeaderSize := by omega
  simp [consumeNext, hn, hstate, hz, hlt]
  rw [← hstate]

theorem feed_waiting (hsizes : ∀ e ∈ index, e.size ≤ 2 ^ 32) {buf tail}
    (h : Waiting hash index q c p objs e todo handed) (hn : n ≠ 0) (htail : buf <+: tail)
    (hlast : n ≤ buf.length ∨ tail = buf) :
    Broken hash index (q ++ tail) ∧ Failed (feed hash c p n buf) ∨
      ∃ c' p', feed hash c p n buf = .ok (c', p') ∧ Arrived hash index q n buf c' p' := by
  have hc : c.consumeNext hash n buf = c.consumePayload n buf :=
    consumeNext_payload h.state_eq h.header_done hn
  rcases consumePayload_track hsizes h.toTrack h.header_done htail hlast with
    ⟨hbroken, hfails⟩ | ⟨c', p', hcb, hres, harr⟩
  · exact .inl ⟨hbroken, hfails.failed hc⟩
  · exact .inr ⟨c', p', feed_eq hc hcb hres, harr⟩

/-- How a run on a payload ends, if nothing is wrong with what it saw: with all
objects received, or at the end of the payload and inside an object. -/
def Ended (hash : Algorithms → Bytes → Bytes) (index : List IndexEntry) (payload : Bytes)
    (c : Consumer) (p : Processor) : Prop :=
  (∃ q' objs, q' <+: payload ∧ Track hash index q' c p objs [] []) ∨
  ∃ objs e todo handed, Waiting hash index payload c p objs e todo handed

/-- The result of a run on a payload: it ends as `Ended` says, or the payload is
broken and the run has failed, or a read. -/
def Outcome (hash : Algorithms → Bytes → Bytes) (index : List IndexEntry) (payload : Bytes)
    (reads : List Read) (res : Except Abort (Consumer × Processor)) : Prop :=
  Broken hash index payload ∧ (.error ∈ reads ∨ Failed res) ∨
  ∃ c p, res = .ok (c, p) ∧ Ended hash index payload c p

theorem Outcome.cons {payload reads res} (h : Outcome hash index payload reads res) (r : Read) :
    Outcome hash index payload (r :: reads) res :=
  h.imp_left fun ⟨hbroken, hfailed⟩ => ⟨hbroken, hfailed.imp_left (.tail _)⟩

theorem Waiting.outcome (h : Waiting hash index q c p objs e todo handed) (reads : List Read) :
    Outcome hash index (q ++ []) reads (.ok (c, p)) :=
  .inr ⟨c, p, rfl, .inr ⟨objs, e, todo, handed, by rwa [append_nil]⟩⟩

theorem Waiting.broken (h : Waiting hash index q c p objs e todo handed) :
    Broken hash index (q ++ []) := by
  refine h.toTrack.broken ?_
  intro b hb hrec
  have h1 := hb.length_le
  have h2 : b.length = e.size := hrec.size_eq
  have h3 := h.short
  rw [append_nil] at h1
  omega

theorem readLoop_numErrors {reads buffer c' p'} (h : readLoop hash reads buffer c p = .ok (c', p')) :
    p.numErrors ≤ p'.numErrors := by
  induction reads generalizing buffer c p with
  | nil =>
    cases h
    exact le_refl _
  | cons r reads ih =>
    cases r with
    | error => exact callbacks_numErrors (feed_ok h).1
    | data bytes =>
      simp only [readLoop] at h
      split at h
      · cases h
        exact le_refl _
      split at h
      · cases h
      rename_i c₁ p₁ hfeed
      have h₁ := callbacks_numErrors (feed_ok hfeed).1
      split at h
      · exact le_trans h₁ (ih h)
      · cases h
        exact h₁

theorem outcome_data {reads buffer bytes pay t} (hbytes : bytes ≠ [])
    (hfeed : Broken hash index (q ++ (pay ++ t)) ∧ Failed (feed hash c p bytes.length bytes) ∨
      ∃ c' p', feed hash c p bytes.length bytes = .ok (c', p') ∧
        Arrived hash index q pay.length pay c' p')
    (hrest : ∀ {c' p' objs e todo handed}, Waiting hash index (q ++ pay) c' p' objs e todo handed →
      Outcome hash index (q ++ pay ++ t) reads
        (readLoop hash reads (bytes ++ buffer.drop bytes.length) c' p')) :
    Outcome hash index (q ++ (pay ++ t)) (.data bytes :: reads)
      (readLoop hash (.data bytes :: reads) buffer c p) := by
  simp only [readLoop, if_neg hbytes]
  rcases hfeed with ⟨hbroken, hfailed⟩ | ⟨c', p', hok, harr⟩
  · refine .inl ⟨hbroken, .inr ?_⟩
    intro c' p' h
    split at h
    · cases h
    rename_i c₁ p₁ hok
    have herr := hfailed c₁ p₁ hok
    split at h
    · exact lt_of_lt_of_le herr (readLoop_numErrors h)
    · cases h
      exact herr
  simp only [hok]
  rcases harr with ⟨q', objs', hq, ht, hstate⟩ | ⟨-, objs', e', todo', handed', hw⟩
  · rw [if_neg hstate]
    refine .inr ⟨c', p', rfl, .inl ⟨q', objs', hq.trans ?_, ht⟩⟩
    rw [← append_assoc]
    exact prefix_append _ _
  · rw [if_pos hw.state_eq, ← append_assoc]
    rw [take_length] at hw
    exact (hrest hw).cons _

theorem readLoop_waiting (hsizes : ∀ e ∈ index, e.size ≤ 2 ^ 32) {reads : List Read}
    {buffer : Bytes} (h : Waiting hash index q c p objs e todo handed) :
    Outcome hash index (q ++ received reads) reads (readLoop hash reads buffer c p) := by
  induction reads generalizing q c p objs e todo handed buffer with
  | nil => exact h.outcome _
  | cons r reads ih =>
    cases r with
    | error => exact .inl ⟨h.broken, .inl (.head _)⟩
    | data bytes =>
      by_cases hbytes : bytes = []
      · simp only [received, readLoop, if_pos hbytes]
        exact h.outcome _
      have hn : bytes.length ≠ 0 := by simpa using hbytes
      simp only [received, if_neg hbytes]
      exact outcome_data hbytes
        (feed_waiting hsizes h hn (prefix_append _ _) (.inl (le_refl _))) ih

end Waiting

/-! ## From the header to the payload -/

/-- The consumer while the header comes in; `q` is what it has of it. -/
def fresh (d : Any) (headerSize : Nat) (q : Bytes) : Consumer :=
  { new d headerSize with pos := q.length, rawHeader := q }

/-- The consumer right behind a header that lists `index`. -/
def opened (d : Any) (headerSize : Nat) (index : List IndexEntry) : Consumer :=
  { new d headerSize with pos := headerSize, rawHeader := [], index := index }

section Header

variable {hash : Algorithms → Bytes → Bytes} {d : Any} {headerSize : Nat} {index : List IndexEntry}
  {q : Bytes} {n : Nat} {buf : Bytes}

theorem new_small (h : headerSize ≤ 100 * kMaxObjects) :
    headerSize % 2 ^ 32 = headerSize ∧ (new d headerSize).state = .continue := by
  have hmod : headerSize % 2 ^ 32 = headerSize := mod_eq_of_lt (lt_of_le_of_lt h (by decide))
  refine ⟨hmod, ?_⟩
  simp only [new, hmod]
  rw [if_neg (by omega)]

theorem consumeNext_fresh_part (hsmall : headerSize ≤ 100 * kMaxObjects) (hn : n ≠ 0)
    (hbuf : buf.length = n) (hpart : q.length + n < headerSize) :
    (fresh d headerSize q).consumeNext hash n buf = ⟨[], .ok (fresh d headerSize (q ++ buf))⟩ := by
  obtain ⟨hmod, hstate⟩ := new_small (d := d) hsmall
  subst hbuf
  have hmin : min (headerSize - q.length) buf.length = buf.length := by omega
  simp only [consumeNext, if_neg hn, fresh, hstate]
  simp only [new, hmod, hmin, take_length, length_append]
  rw [if_neg (by omega), if_pos (by omega)]

theorem consumeNext_fresh_whole (hsmall : headerSize ≤ 100 * kMaxObjects) {k}
    (hk : q.length + k = headerSize) (hk0 : 0 < k) (hkn : k ≤ n) (hkb : k ≤ buf.length)
    (ha : d.algorithm ≠ .any) (hdigest : hash d.algorithm (q ++ buf.take k) = d.digest)
    (hparse : parseHeader (q ++ buf.take k) = some index) :
    (fresh d headerSize q).consumeNext hash n buf =
      if n = k ∧ index = [] then ⟨[], .ok { opened d headerSize index with state := .done }⟩
      else (opened d headerSize index).consumePayload (n - k) (buf.drop k) := by
  obtain ⟨hmod, hstate⟩ := new_small (d := d) hsmall
  have hmin : min (headerSize - q.length) n = k := by omega
  simp only [consumeNext, if_neg (show n ≠ 0 by omega), fresh, hstate]
  simp only [new, hmod, hmin, hk]
  rw [if_neg (by omega), if_neg (by omega), if_pos ⟨hk0, trivial⟩, if_neg ha,
    if_neg (not_not.mpr hdigest), hparse]
  simp only [opened, new, hmod, if_neg (show ¬ 100 * kMaxObjects < headerSize by omega)]

theorem track_opened : Track hash index [] (opened d headerSize index) .empty [] index [] where
  index_eq := rfl
  split := rfl
  idx_eq := rfl
  received := nofun
  consumed := rfl
  pos_eq := rfl
  room := fun _ _ => .inl rfl
  known := fun _ _ hne => absurd rfl hne
  idle := fun _ => rfl
  accu_lt := by simp [opened, new, kAccuSize]
  commits_eq := rfl
  errors_eq := rfl
  pending_eq := fun _ _ => by simp [pendingOf, empty]
  settled := fun _ => rfl

section

variable (hsizes : ∀ e ∈ index, e.size ≤ 2 ^ 32) (hsmall : headerSize ≤ 100 * kMaxObjects)
include hsizes hsmall

theorem feed_fresh_whole {k tail} (hk : q.length + k = headerSize)
    (hk0 : 0 < k) (hkn : k ≤ n) (hkb : k ≤ buf.length) (ha : d.algorithm ≠ .any)
    (hdigest : hash d.algorithm (q ++ buf.take k) = d.digest)
    (hparse : parseHeader (q ++ buf.take k) = some index) (htail : buf.drop k <+: tail)
    (hlast : n ≤ buf.length ∨ tail = buf.drop k) :
    Broken hash index ([] ++ tail) ∧ Failed (feed hash (fresh d headerSize q) .empty n buf) ∨
      ∃ c' p', feed hash (fresh d headerSize q) .empty n buf = .ok (c', p') ∧
        Arrived hash index [] (n - k) (buf.drop k) c' p' := by
  have hc := consumeNext_fresh_whole hsmall hk hk0 hkn hkb ha hdigest hparse
  by_cases hempty : n = k ∧ index = []
  · rw [if_pos hempty] at hc
    obtain ⟨-, rfl⟩ := hempty
    have ht : Track hash [] [] (opened d headerSize []) .empty [] [] [] := track_opened
    exact .inr ⟨_, _, feed_eq hc rfl rfl, .inl ⟨[], [], nil_prefix, { ht with }, nofun⟩⟩
  rw [if_neg hempty] at hc
  have hheader : (opened d headerSize index).expectedHeaderSize ≤ (opened d headerSize index).pos :=
    mod_le _ _
  have hlast' : n - k ≤ (buf.drop k).length ∨ tail = buf.drop k := by
    rw [length_drop]
    rcases hlast with hl | rfl
    · exact .inl (by omega)
    · exact .inr rfl
  rcases consumePayload_track hsizes track_opened hheader htail hlast' with
    ⟨hbroken, hfails⟩ | ⟨c', p', hcb, hres, harr⟩
  · exact .inl ⟨hbroken, hfails.failed hc⟩
  · exact .inr ⟨c', p', feed_eq hc hcb hres, harr⟩

/-- **The whole run** on a stream whose header is as announced. -/
theorem readLoop_fresh {reads : List Read} {buffer stream : Bytes}
    (hq : q.length < headerSize) (hstream : stream = q ++ received reads)
    (hlen : headerSize ≤ stream.length)
    (ha : d.algorithm ≠ .any) (hdigest : hash d.algorithm (stream.take headerSize) = d.digest)
    (hparse : parseHeader (stream.take headerSize) = some index) :
    Outcome hash index (stream.drop headerSize) reads
      (readLoop hash reads buffer (fresh d headerSize q) .empty) := by
  induction reads generalizing q buffer with
  | nil =>
    rw [hstream, received, append_nil] at hlen
    omega
  | cons r reads ih =>
    cases r with
    | error =>
      rw [hstream, received, append_nil] at hlen
      omega
    | data bytes =>
      by_cases hbytes : bytes = []
      · rw [hstream, received, if_pos hbytes, append_nil] at hlen
        omega
      have hn : bytes.length ≠ 0 := by simpa using hbytes
      rw [received, if_neg hbytes] at hstream
      by_cases hpart : q.length + bytes.length < headerSize
      · have hfeed : feed hash (fresh d headerSize q) .empty bytes.length bytes =
            .ok (fresh d headerSize (q ++ bytes), .empty) :=
          feed_eq (consumeNext_fresh_part hsmall hn rfl hpart) rfl rfl
        have hstate : (fresh d headerSize (q ++ bytes)).state = .continue :=
          (new_small (d := d) hsmall).2
        simp only [readLoop, if_neg hbytes, hfeed, if_pos hstate]
        exact (ih (by rwa [length_append]) (by rw [hstream, append_assoc])).cons _
      obtain ⟨k, hk⟩ : ∃ k, q.length + k = headerSize := ⟨headerSize - q.length, by omega⟩
      -- the header ends `k` bytes into this read
      have htake : stream.take headerSize = q ++ bytes.take k := by
        rw [hstream, ← hk, take_append, take_of_length_le (by omega), Nat.add_sub_cancel_left,
          take_append_of_le_length (by omega)]
      have hdrop : stream.drop headerSize = bytes.drop k ++ received reads := by
        rw [hstream, ← hk, drop_append, drop_of_length_le (by omega), Nat.add_sub_cancel_left,
          drop_append_of_le_length (by omega), nil_append]
      rw [htake] at hdigest hparse
      rw [hdrop]
      have hfeed := feed_fresh_whole (n := bytes.length) hsizes hsmall hk (by omega) (by omega)
        (by omega) ha hdigest hparse
        (prefix_append _ (received reads))
        (.inl (le_refl _))
      rw [← length_drop] at hfeed
      exact outcome_data hbytes hfeed (readLoop_waiting hsizes)

end

end Header

theorem readLoop_tooBig {hash c p} (h : c.state = .headerTooBig) (reads : List Read)
    (buffer : Bytes) : readLoop hash reads buffer c p = .ok (c, p) := by
  have hfeed : ∀ n buf, feed hash c p n buf = .ok (c, p) := by
    intro n buf
    have hc : c.consumeNext hash n buf = ⟨[], .ok c⟩ := by
      simp only [consumeNext, h, ite_self]
    exact feed_eq hc rfl rfl
  cases reads with
  | nil => rfl
  | cons r reads =>
    cases r with
    | error => exact hfeed _ _
    | data bytes =>
      simp only [readLoop, hfeed, h]
      split <;> rfl

/-! ## The contract of `Process` -/

namespace Input

/-- The bytes that came in. -/
def stream (i : Input) : Bytes := received i.reads

def digest (i : Input) : Any := mkFromHexPtr i.headerDigest

/-- The header has the announced digest, and it parses to `index`. -/
structure HeaderOk (i : Input) (index : List IndexEntry) : Prop where
  received : i.headerSize ≤ i.stream.length
  algorithm_ne : i.digest.algorithm ≠ .any
  hash_eq : i.hash i.digest.algorithm (i.stream.take i.headerSize) = i.digest.digest
  parse_eq : parseHeader (i.stream.take i.headerSize) = some index

/-- The object `e` was received in full, with its hash, and committed. -/
structure Committed (i : Input) (e : IndexEntry) (c : Commit) : Prop where
  id_eq : c.id = e.id ∧ c.suffix = e.suffix
  size_eq : c.content.length = e.size
  hash_eq : i.hash e.id.algorithm c.content = e.id.digest

/-- The run ended with one commit for each listed object. -/
def Complete (i : Input) (p : Processor) : Prop :=
  ∃ index, i.HeaderOk index ∧ Forall₂ i.Committed index p.commits

/-- **What `Process` is for.** It returns, and it returns success only for a
complete payload. -/
def Sound (i : Input) : Prop :=
  ∃ r, i.process = .ok r ∧ (r = .success → ∃ c p, i.run = .ok (c, p) ∧ i.Complete p)

/-- The header is `2^32` bytes or longer, or it lists an object of more. -/
def Beyond32 (i : Input) : Prop :=
  2 ^ 32 ≤ i.headerSize ∨ ∃ index, i.HeaderOk index ∧ ∃ e ∈ index, 2 ^ 32 < e.size

/-- The stream starts with a header as announced, of an accepted size unless it
lists nothing, and goes on with the listed objects. -/
def StreamComplete (i : Input) : Prop :=
  ∃ index, i.HeaderOk index ∧ Delivered i.hash index (i.stream.drop i.headerSize) ∧
    (i.headerSize ≤ 100 * kMaxObjects ∨ index = [])

/-- The inputs on which the result of `Process` can be trusted. -/
def Trustworthy (i : Input) : Prop :=
  i.initResult ≠ .success ∨ ¬ i.Beyond32 ∧ i.StreamComplete

variable {i : Input}

variable {c : Consumer} {p : Processor}

theorem process_of_run (hinit : i.initResult = .success) (hrun : i.run = .ok (c, p))
    (hpending : p.pendingFiles = []) : i.process = .ok (i.finalize p) := by
  simp [process, hinit, hrun, hpending]

theorem sound_of_run (hrun : i.run = .ok (c, p)) (hpending : p.pendingFiles = [])
    (hcomplete : i.Complete p) : i.Sound := by
  by_cases hinit : i.initResult = .success
  · exact ⟨_, process_of_run hinit hrun hpending, fun _ => ⟨c, p, hrun, hcomplete⟩⟩
  · exact ⟨i.initResult, by simp [process, hinit], fun h => absurd h hinit⟩

theorem Sound.complete (h : i.Sound) (hs : i.process = .ok .success) :
    ∃ c p, i.run = .ok (c, p) ∧ p.numErrors = 0 ∧ i.Complete p := by
  obtain ⟨r, hr, hcomplete⟩ := h
  cases hs.symm.trans hr
  obtain ⟨c, p, hrun, hc⟩ := hcomplete rfl
  refine ⟨c, p, hrun, ?_, hc⟩
  unfold process at hs
  rw [hrun] at hs
  by_contra hne
  simp only [finalize, if_pos (Nat.pos_of_ne_zero hne)] at hs
  split at hs
  next hinit => exact hinit (Except.ok.inj hs)
  split at hs
  · cases hs
  · split at hs <;> cases hs

variable {index : List IndexEntry}

theorem HeaderOk.size_pos (h : i.HeaderOk index) : 0 < i.headerSize := by
  rcases Nat.eq_zero_or_pos i.headerSize with h0 | h0
  · have hp := h.parse_eq
    rw [h0] at hp
    cases hp
  · exact h0

theorem run_outcome (h : i.HeaderOk index) (hb : ¬ i.Beyond32)
    (hsmall : i.headerSize ≤ 100 * kMaxObjects) :
    Outcome i.hash index (i.stream.drop i.headerSize) i.reads i.run := by
  have hsizes : ∀ e ∈ index, e.size ≤ 2 ^ 32 := by
    intro e he
    by_contra hlt
    exact hb (.inr ⟨index, h, e, he, by omega⟩)
  exact readLoop_fresh (q := []) hsizes hsmall h.size_pos rfl h.received h.algorithm_ne h.hash_eq
    h.parse_eq

theorem run_tooBig (hb : ¬ i.Beyond32) (hbig : 100 * kMaxObjects < i.headerSize) :
    ∃ c, i.run = .ok (c, .empty) := by
  have hmod : i.headerSize % 2 ^ 32 = i.headerSize :=
    mod_eq_of_lt (by
      by_contra hlt
      exact hb (.inl (by omega)))
  refine ⟨_, readLoop_tooBig ?_ _ _⟩
  simp only [new, hmod, if_pos hbig]

theorem forall₂_commitOf {objs : List (IndexEntry × Bytes)} (h : ∀ o ∈ objs, Received i.hash o) :
    Forall₂ i.Committed (objs.map Prod.fst) (objs.map commitOf) := by
  induction objs with
  | nil => exact .nil
  | cons o objs ih =>
    have ho := h o (.head _)
    exact .cons ⟨⟨rfl, rfl⟩, ho.size_eq, ho.hash_eq⟩ (ih fun x hx => h x (.tail _ hx))

theorem StreamComplete.sound (h : i.StreamComplete) (hb : ¬ i.Beyond32) : i.Sound := by
  obtain ⟨index, hok, hdel, hsize⟩ := h
  by_cases hsmall : i.headerSize ≤ 100 * kMaxObjects
  · rcases run_outcome hok hb hsmall with ⟨hbroken, -⟩ | ⟨c, p, hrun, ⟨q', objs, -, ht⟩ | hw⟩
    · exact absurd hdel hbroken.not_delivered
    · refine sound_of_run hrun (ht.settled rfl) ⟨index, hok, ?_⟩
      rw [ht.commits_eq, ht.split, append_nil]
      exact forall₂_commitOf ht.received
    · obtain ⟨objs, e, todo, handed, hw⟩ := hw
      exact absurd hdel (append_nil (drop ..) ▸ hw.broken).not_delivered
  · obtain rfl := hsize.resolve_left hsmall
    obtain ⟨c, hrun⟩ := run_tooBig hb (by omega)
    exact sound_of_run hrun rfl ⟨[], hok, .nil⟩

theorem streamComplete_of_run (hb : ¬ i.Beyond32) (hreads : .error ∉ i.reads)
    (hrun : i.run = .ok (c, p))
    (herr : p.numErrors = 0) (hc : i.Complete p) : i.StreamComplete := by
  obtain ⟨index, hok, hall⟩ := hc
  by_cases hsmall : i.headerSize ≤ 100 * kMaxObjects
  · refine ⟨index, hok, ?_, .inl hsmall⟩
    rcases run_outcome hok hb hsmall with ⟨-, hfailed⟩ | ⟨c', p', hrun', hend⟩
    · have := (hfailed.resolve_left hreads) c p hrun
      omega
    cases hrun.symm.trans hrun'
    rcases hend with ⟨q', objs, hq, ht⟩ | ⟨objs, e, todo, handed, hw⟩
    · refine ⟨objs, by rw [ht.split, append_nil], ht.received, ?_⟩
      rw [ht.consumed, nil_append, append_eq_nil_iff.mp (ht.idle rfl) |>.2, append_nil] at hq
      exact hq
    · have hlen := hall.length_eq
      rw [hw.commits_eq, hw.split] at hlen
      simp at hlen
  · obtain ⟨c', hrun'⟩ := run_tooBig hb (by omega)
    cases hrun.symm.trans hrun'
    cases hall
    exact ⟨[], hok, ⟨[], rfl, nofun, nil_prefix⟩, .inr rfl⟩

/-- **Complete streams are handled as intended**, whatever the reads, and so are failures of
`Initialize`. Where no read fails, success is an answer to be trusted for complete streams only. -/
theorem sound_of_trustworthy (i : Input) :
    (i.Trustworthy → i.Sound) ∧
    (i.process = .ok .success → .error ∉ i.reads → ¬ i.Beyond32 → (i.Sound ↔ i.StreamComplete)) := by
  refine ⟨?_, fun hs hreads hb => ⟨fun h => ?_, fun h => h.sound hb⟩⟩
  · rintro (hinit | ⟨hb, hcomplete⟩)
    · exact ⟨i.initResult, by simp [process, hinit], fun h => absurd h hinit⟩
    · exact hcomplete.sound hb
  · obtain ⟨c, p, hrun, herr, hc⟩ := h.complete hs
    exact streamComplete_of_run hb hreads hrun herr hc

/-- A pack with one object of one byte. -/
def onePack : Bytes :=
  ascii "V2\nS1\nN1\n--\nC 0000000000000000000000000000000000000000 1\n"

def oneInput (hash : Algorithms → Bytes → Bytes) : Input where
  hash := hash
  headerDigest := replicate 40 48
  headerSize := onePack.length
  reads := [.data (onePack ++ [7])]
  reads_fit := by
    intro r hr
    rw [mem_singleton.mp hr]
    exact (by decide : (onePack ++ [7]).length ≤ kConsumerBuffer)
  initResult := .success
  uploaderErrors := 0

theorem sound_of_trustworthy_onePack :
    (oneInput fun _ _ => replicate 20 0).process = .ok .success ∧
      (oneInput fun _ _ => replicate 20 0).Sound := by
  refine ⟨by decide, (sound_of_trustworthy _).1 (.inr ?_)⟩
  have hparse : parseHeader onePack = some [⟨.null .sha1, 0, 1, .cas, []⟩] := by decide
  refine ⟨?_, _, ⟨by decide, by decide, by decide, hparse⟩,
    ⟨[(_, [7])], rfl, forall_mem_singleton.2 ⟨rfl, by decide, rfl⟩, prefix_rfl⟩, .inl (by decide)⟩
  rintro (hlong | ⟨index, hok, e, he, hlong⟩)
  · exact absurd hlong (by decide)
  · cases hparse.symm.trans hok.parse_eq
    cases mem_singleton.1 he
    exact absurd hlong (by decide)

/-- The descriptor ends before the header is there, and success is returned. -/
theorem sound_fails_at_end_of_stream : let i : Input := {
      hash := fun _ _ => []
      headerDigest := []
      headerSize := 5
      reads := []
      reads_fit := nofun
      initResult := .success
      uploaderErrors := 0 }
    i.process = .ok .success ∧ ¬ i.Sound := by
  refine ⟨rfl, ?_⟩
  rintro ⟨r, hr, hs⟩
  cases hr
  obtain ⟨c, p, -, index, hok, -⟩ := hs rfl
  exact absurd hok.received (by decide)

/-- An object with a wrong hash stays pending: the assertion is reachable. -/
theorem assertion_reachable :
    (oneInput fun _ bytes => if bytes.length = 1 then [] else replicate 20 0).process =
      .error .pendingFiles := by
  decide

end Input

end Cvmfs.Receiver
