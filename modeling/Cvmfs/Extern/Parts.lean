import Mathlib.Tactic.Ring
import Cvmfs.Extern.Transaction

/-! # Objects reach the plugin in parts

What a transaction should do is a function of the expected size and the buffers alone. The
code follows it as long as two sums of its counters are not mistaken for the number of
bytes written: `Write` compares the bytes flushed so far with the expected size and forgets
the buffer, and a flush inside of `Write` adds the bytes flushed and the bytes copied by
this call, which have bytes in common. -/

namespace Cvmfs.Extern

open List Nat

section

variable {Id Label : Type}

/-! ## What is expected -/

/-- Another `len` bytes are more than a known expected size allows. -/
def Exceeds (expectedSize total len : Nat) : Prop :=
  expectedSize ≠ kSizeUnknown ∧ expectedSize < total + len

instance (expectedSize total len : Nat) : Decidable (Exceeds expectedSize total len) :=
  inferInstanceAs (Decidable (_ ∧ _))

/-- What the calls of `Write` should return, and the bytes written then. -/
def intended (expectedSize : Nat) :
    List UInt8 → List (List UInt8) → List (Except Errno Nat) × List UInt8
  | bytes, [] => ([], bytes)
  | bytes, buf :: bufs =>
    if Exceeds expectedSize bytes.length buf.length then
      let rest := intended expectedSize bytes bufs
      (.error .efbig :: rest.1, rest.2)
    else
      let rest := intended expectedSize (bytes ++ buf) bufs
      (.ok buf.length :: rest.1, rest.2)

/-- The messages carry these bytes in numbered parts of the maximum object size, only the
last of them marked. -/
structure InParts (m : Manager) (bytes : List UInt8) (reqs : List (StoreReq Id Label)) : Prop where
  numbered : reqs.map (·.partNr) = range' 1 reqs.length
  full : ∀ r ∈ reqs.dropLast, r.attachment.length = m.maxObjectSize
  marked : reqs.map (·.lastPart) = replicate (reqs.length - 1) false ++ [true]
  content : reqs.flatMap (·.attachment) = bytes

/-- The transaction returns what it should and the plugin gets the bytes written. -/
def Stored (Label : Type) (m : Manager) (reply : Nat → Status) (id : Id)
    (expectedSize nextRequestId : Nat) (bufs : List (List UInt8)) (fd : Option Nat) : Prop :=
  ∃ report : Report Id Label, store m reply id expectedSize nextRequestId bufs fd = some report ∧
    report.writes = (intended expectedSize [] bufs).1 ∧
    report.finish = .ok () ∧
    InParts m (intended expectedSize [] bufs).2 report.client.stores

/-! ## When it happens -/

/-- The bytes that are flushed when `total` bytes are written: a full buffer is only flushed
when another byte comes. -/
def flushedBytes (m : Manager) (total : Nat) : Nat :=
  m.maxObjectSize * ((total - 1) / m.maxObjectSize)

/-- The end of a part at which a call with `len` bytes flushes the buffer. -/
def FlushesAt (m : Manager) (total len stop : Nat) : Prop :=
  m.maxObjectSize ∣ stop ∧ 0 < stop ∧ total ≤ stop ∧ stop < total + len

/-- At this end of a part the sum of the bytes flushed before it and the bytes copied by the
call is the expected size by chance. -/
def LooksComplete (m : Manager) (expectedSize total stop : Nat) : Prop :=
  expectedSize ≠ kSizeUnknown ∧ u64 (stop - m.maxObjectSize + (stop - total)) = expectedSize

/-- A call of `Write` with `len` bytes behind `total` others does what it should. -/
def CarefulWrite (m : Manager) (expectedSize total len : Nat) : Prop :=
  if Exceeds expectedSize total len then expectedSize < u64 (flushedBytes m total + len)
  else ∀ stop, FlushesAt m total len stop → ¬LooksComplete m expectedSize total stop ∧ stop < 2 ^ 64

def Careful (m : Manager) (expectedSize : Nat) : Nat → List (List UInt8) → Prop
  | _, [] => True
  | total, buf :: bufs =>
    CarefulWrite m expectedSize total buf.length ∧ Careful m expectedSize
        (if Exceeds expectedSize total buf.length then total else total + buf.length) bufs

/-! ## The client while it writes -/

variable (t : Transaction Id Label)

theorem stores_store (sent : List (Request Id Label)) (req : StoreReq Id Label) :
    (Client.mk t (sent ++ [.store req])).stores = (Client.mk t sent).stores ++ [req] := by
  simp [Client.stores]

/-- The bytes are in the full parts already sent and in the buffer. -/
structure Packed (m : Manager) (expectedSize : Nat) (bytes : List UInt8)
    (c : Client Id Label) : Prop where
  isOpen : c.txn.committed = false
  expected : c.txn.expectedSize = expectedSize
  size : c.txn.size = m.maxObjectSize * c.stores.length
  numbered : c.stores.map (·.partNr) = range' 1 c.stores.length
  full : ∀ r ∈ c.stores, r.attachment.length = m.maxObjectSize
  unmarked : ∀ r ∈ c.stores, r.lastPart = false
  content : c.stores.flatMap (·.attachment) ++ c.txn.buffer = bytes
  fits : c.txn.buffer.length ≤ m.maxObjectSize

/-- Between two calls of `Write` there is something in the buffer once a part is sent. -/
structure Filling (m : Manager) (expectedSize : Nat) (bytes : List UInt8)
    (c : Client Id Label) : Prop extends Packed m expectedSize bytes c where
  behind : c.txn.buffer = [] → c.stores = []

/-- The transaction is committed, but bytes are missing. -/
def Cut (bytes : List UInt8) (c : Client Id Label) : Prop :=
  c.txn.committed = true ∧ (c.stores.flatMap (·.attachment)).length < bytes.length

/-- A part has the wrong number, or the next one will have. -/
def Skewed (m : Manager) (c : Client Id Label) : Prop :=
  c.stores.map (·.partNr) ≠ range' 1 c.stores.length ∨
    (c.txn.committed = false ∧ c.txn.size < m.maxObjectSize * c.stores.length)

variable {m : Manager} {reply : Nat → Status} {expectedSize : Nat} {bytes : List UInt8}
  {c : Client Id Label}

theorem length_flatMap_full {M : Nat} {reqs : List (StoreReq Id Label)}
    (h : ∀ r ∈ reqs, r.attachment.length = M) :
    (reqs.flatMap (·.attachment)).length = M * reqs.length := by
  rw [length_flatMap, map_congr_left h, map_const', sum_replicate_nat, mul_comm]

theorem Packed.length (h : Packed m expectedSize bytes c) :
    bytes.length = m.maxObjectSize * c.stores.length + c.txn.buffer.length := by
  rw [← h.content, length_append, length_flatMap_full h.full]

theorem Filling.size_eq (h : Filling m expectedSize bytes c) :
    c.txn.size = flushedBytes m bytes.length := by
  rw [h.size, flushedBytes, h.length]
  congr 1
  by_cases hb : c.txn.buffer = []
  · simp [hb, h.behind hb]
  · have hpos := length_pos_iff.2 hb
    have hfits := h.fits
    rw [Nat.add_sub_assoc hpos, Nat.mul_add_div m.pos, Nat.div_eq_of_lt (by omega), Nat.add_zero]

theorem Packed.copy (h : Packed m expectedSize bytes c) {batch} (hne : batch ≠ [])
    (hfits : c.txn.buffer.length + batch.length ≤ m.maxObjectSize) :
    Filling m expectedSize (bytes ++ batch) (c.copy batch) where
  isOpen := h.isOpen
  expected := h.expected
  size := h.size
  numbered := h.numbered
  full := h.full
  unmarked := h.unmarked
  content := by
    rw [← h.content, append_assoc]
    rfl
  fits := by
    rw [← length_append] at hfits
    exact hfits
  behind hnil := absurd (append_eq_nil_iff.1 hnil).2 hne

/-! ## Flushing -/

theorem flush_open (hok : ∀ n, reply n = .ok) (h : c.txn.committed = false) (doCommit : Bool) :
    flush m reply doCommit c =
      (.ok (), { txn := { c.txn with flushed := true, committed := doCommit }
                 sent := c.sent ++ [.store (c.txn.storeReq m doCommit)] }) := by
  simp [flush, h, hok, ack2Errno, Transaction.acknowledge]

theorem flush_committed (h : c.txn.committed = true) (doCommit : Bool) :
    flush m reply doCommit c = (.ok (), c) := by
  simp [flush, h]

variable {written : Nat}

theorem makeRoom_free (h : c.txn.buffer.length ≠ m.maxObjectSize) :
    makeRoom m reply written c = (.ok (), c) := by
  rw [makeRoom, if_neg h]

theorem makeRoom_committed (h : c.txn.committed = true)
    (hfull : c.txn.buffer.length = m.maxObjectSize) :
    makeRoom m reply written c =
      (.ok (), { c with
        txn.size := u64 (c.txn.size + c.txn.buffer.length), txn.buffer := [] }) := by
  rw [makeRoom, if_pos hfull, flush_committed h]

section

variable (hok : ∀ n, reply n = .ok)
include hok

theorem makeRoom_full (h : c.txn.committed = false) (hfull : c.txn.buffer.length = m.maxObjectSize) :
    makeRoom m reply written c =
      (.ok (), { txn := { c.txn with
                   flushed := true
                   committed := c.txn.doCommit written
                   size := u64 (c.txn.size + c.txn.buffer.length)
                   buffer := [] }
                 sent := c.sent ++ [.store (c.txn.storeReq m (c.txn.doCommit written))] }) := by
  rw [makeRoom, if_pos hfull, flush_open hok h]

theorem makeRoom_ok (written : Nat) (c : Client Id Label) :
    (makeRoom m reply written c).1 = .ok () ∧ (c.txn.buffer.length ≤ m.maxObjectSize →
      (makeRoom m reply written c).2.txn.buffer.length < m.maxObjectSize) := by
  by_cases hfull : c.txn.buffer.length = m.maxObjectSize
  · cases hc : c.txn.committed with
    | true =>
      rw [makeRoom_committed hc hfull]
      exact ⟨rfl, fun _ => m.pos⟩
    | false =>
      rw [makeRoom_full hok hc hfull]
      exact ⟨rfl, fun _ => m.pos⟩
  · rw [makeRoom_free hfull]
    exact ⟨rfl, fun h => lt_of_le_of_ne h hfull⟩

theorem writeLoop_cons (rounds : Nat) (byte : UInt8) (data : List UInt8) (written : Nat)
    (c : Client Id Label) : ∃ n c', makeRoom m reply written c = (.ok (), c') ∧
      writeLoop m reply (rounds + 1) (byte :: data) written c =
        writeLoop m reply rounds ((byte :: data).drop n) (written + n)
          (c'.copy ((byte :: data).take n)) ∧
      n ≤ (byte :: data).length ∧ n ≤ m.maxObjectSize - c'.txn.buffer.length ∧
      (c.txn.buffer.length ≤ m.maxObjectSize → 0 < n ∧ c'.txn.buffer.length < m.maxObjectSize) := by
  obtain ⟨hok, hroom⟩ := makeRoom_ok (m := m) hok written c
  rw [writeLoop]
  generalize makeRoom m reply written c = r at hok hroom
  obtain ⟨result, c'⟩ := r
  cases hok
  exact ⟨_, c', rfl, rfl, min_le_left _ _, min_le_right _ _, fun h =>
    ⟨lt_min (Nat.succ_pos _) (Nat.sub_pos_of_lt (hroom h)), hroom h⟩⟩

theorem writeLoop_induct (P : Client Id Label → Prop)
    (hroom : ∀ written c, P c → P (makeRoom m reply written c).2)
    (hcopy : ∀ batch c, P c → P (c.copy batch)) :
    ∀ (rounds : Nat) (data : List UInt8) (written : Nat) (c : Client Id Label), P c →
      P (writeLoop m reply rounds data written c).2
  | 0, [], _, _, h => h
  | 0, _ :: _, _, _, h => h
  | _ + 1, [], _, _, h => h
  | rounds + 1, byte :: data, written, c, h => by
    obtain ⟨n, c', hc', heq, -⟩ := writeLoop_cons (m := m) hok rounds byte data written c
    rw [heq]
    have hroom' := hroom written c h
    rw [hc'] at hroom'
    exact writeLoop_induct P hroom hcopy rounds _ _ _ (hcopy _ _ hroom')

theorem writeLoop_fst : ∀ (rounds : Nat) (data : List UInt8) (written : Nat) (c : Client Id Label),
      data.length ≤ rounds → c.txn.buffer.length ≤ m.maxObjectSize →
      (writeLoop m reply rounds data written c).1 = .ok (written + data.length)
  | 0, [], _, _, _, _ => rfl
  | _ + 1, [], _, _, _, _ => rfl
  | rounds + 1, byte :: data, written, c, hrounds, hfits => by
    obtain ⟨n, c', -, heq, hbatch, hspace, hroom⟩ :=
      writeLoop_cons (m := m) hok rounds byte data written c
    obtain ⟨hpos, -⟩ := hroom hfits
    rw [heq, writeLoop_fst rounds]
    · rw [length_drop, Nat.add_assoc, Nat.add_sub_cancel' hbatch]
    · rw [length_drop]
      omega
    · simp only [Client.copy, length_append, length_take]
      omega

end

/-! ## A call of `Write` -/

theorem doCommit_iff (h : Packed m expectedSize bytes c) {total}
    (hfull : c.txn.buffer.length = m.maxObjectSize) (hlen : bytes.length = total + written) :
    c.txn.doCommit written = true ↔ LooksComplete m expectedSize total bytes.length := by
  have hsize : c.txn.size = bytes.length - m.maxObjectSize := by
    rw [h.size, h.length, hfull, Nat.add_sub_cancel]
  have hwritten : written = bytes.length - total := by omega
  rw [Transaction.doCommit, LooksComplete, Bool.and_eq_true, decide_eq_true_iff, decide_eq_true_iff,
    h.expected, hsize, ← hwritten]

section

variable (h : Packed m expectedSize bytes c) (hok : ∀ n, reply n = .ok)
    (hfull : c.txn.buffer.length = m.maxObjectSize)
include h hok hfull

theorem Packed.makeRoom (hcommit : c.txn.doCommit written = false) (hfits : bytes.length < 2 ^ 64) :
    Packed m expectedSize bytes (Extern.makeRoom m reply written c).2 := by
  have hlen : c.txn.size + c.txn.buffer.length = bytes.length := by rw [h.size, h.length]
  have hdiv : c.txn.size / m.maxObjectSize = c.stores.length := by
    rw [h.size, Nat.mul_div_cancel_left _ m.pos]
  rw [makeRoom_full hok h.isOpen hfull, hcommit, hlen, u64_of_lt hfits]
  exact {
    isOpen := rfl
    expected := h.expected
    size := by
      rw [stores_store, length_append, h.length, hfull]
      exact (mul_succ _ _).symm
    numbered := by
      rw [stores_store, map_append, length_append, length_singleton, range'_1_concat]
      refine congrArg₂ _ h.numbered ?_
      have hnumber : c.txn.size / m.maxObjectSize + 1 = 1 + c.stores.length := by
        rw [hdiv, add_comm]
      exact congrArg (fun n => [n]) hnumber
    full := by
      rw [stores_store]
      intro r hr
      rcases mem_append.1 hr with hr | hr
      · exact h.full r hr
      · rw [mem_singleton.1 hr]
        exact hfull
    unmarked := by
      rw [stores_store]
      intro r hr
      rcases mem_append.1 hr with hr | hr
      · exact h.unmarked r hr
      · rw [mem_singleton.1 hr]
        rfl
    content := by
      rw [stores_store, flatMap_append, flatMap_singleton, append_nil]
      exact h.content
    fits := zero_le _ }

theorem Packed.makeRoom_cut (hcommit : c.txn.doCommit written = true) {data} (hne : data ≠ []) :
    Cut (bytes ++ data) (Extern.makeRoom m reply written c).2 := by
  rw [makeRoom_full hok h.isOpen hfull, hcommit]
  refine ⟨rfl, ?_⟩
  have hcontent := congrArg List.length h.content
  have hpos := length_pos_iff.2 hne
  rw [stores_store, flatMap_append, flatMap_singleton,
    show (bytes ++ data).length = bytes.length + data.length from length_append, ← hcontent]
  exact Nat.lt_add_of_pos_right hpos

theorem Packed.makeRoom_skewed (hcommit : c.txn.doCommit written = false)
    (hwraps : 2 ^ 64 ≤ bytes.length) : Skewed m (Extern.makeRoom m reply written c).2 := by
  rw [makeRoom_full hok h.isOpen hfull, hcommit]
  refine .inr ⟨rfl, (u64_lt _).trans_le ?_⟩
  rw [stores_store, length_append]
  rw [h.length, hfull] at hwraps
  exact hwraps

end

theorem Cut.makeRoom (h : Cut bytes c) : Cut bytes (Extern.makeRoom m reply written c).2 := by
  by_cases hfull : c.txn.buffer.length = m.maxObjectSize
  · rw [makeRoom_committed h.1 hfull]
    exact h
  · rw [makeRoom_free hfull]
    exact h

theorem Skewed.snoc {t doCommit} (h : Skewed m c) :
    Skewed m { txn := t, sent := c.sent ++ [.store (c.txn.storeReq m doCommit)] } := by
  left
  rw [stores_store, map_append, length_append, length_singleton, range'_1_concat]
  intro heq
  obtain ⟨hnumbers_eq, hlast⟩ := append_inj heq (by rw [length_map, length_range'])
  rcases h with hnumbers | ⟨-, hsize⟩
  · exact hnumbers hnumbers_eq
  · have hdiv : c.txn.size / m.maxObjectSize < c.stores.length := Nat.div_lt_of_lt_mul hsize
    have hnumber : c.txn.size / m.maxObjectSize + 1 = 1 + c.stores.length := singleton_inj.1 hlast
    omega

theorem Skewed.makeRoom (hok : ∀ n, reply n = .ok) (h : Skewed m c) :
    Skewed m (Extern.makeRoom m reply written c).2 := by
  by_cases hfull : c.txn.buffer.length = m.maxObjectSize
  · cases hc : c.txn.committed with
    | true =>
      rw [makeRoom_committed hc hfull]
      refine .inl (h.resolve_right ?_)
      rintro ⟨hopen, -⟩
      rw [hopen] at hc
      cases hc
    | false =>
      rw [makeRoom_full hok hc hfull]
      exact h.snoc
  · rw [makeRoom_free hfull]
    exact h

theorem Filling.stop_eq (h : Filling m expectedSize bytes c) {batch stop}
    (hbatch : batch ≤ m.maxObjectSize) (hfree : c.txn.buffer.length ≠ m.maxObjectSize →
      batch ≤ m.maxObjectSize - c.txn.buffer.length) (hstop : FlushesAt m bytes.length batch stop) :
    c.txn.buffer.length = m.maxObjectSize ∧ stop = bytes.length := by
  obtain ⟨⟨j, rfl⟩, hpos, hle, hlt⟩ := hstop
  have hlen := h.length
  have hfits := h.fits
  by_cases hfull : c.txn.buffer.length = m.maxObjectSize
  · refine ⟨hfull, le_antisymm ?_ hle⟩
    rw [hfull, ← mul_succ] at hlen
    rw [hlen] at hlt ⊢
    have hj : j < c.stores.length.succ + 1 := by
      refine Nat.lt_of_mul_lt_mul_left (a := m.maxObjectSize) (hlt.trans_le ?_)
      rw [Nat.mul_add m.maxObjectSize _ 1, Nat.mul_one]
      exact Nat.add_le_add_left hbatch _
    exact Nat.mul_le_mul_left _ (Nat.lt_succ_iff.1 hj)
  exfalso
  have hspace := hfree hfull
  have hj : j < c.stores.length + 1 := by
    refine Nat.lt_of_mul_lt_mul_left (a := m.maxObjectSize) (hlt.trans_le ?_)
    rw [Nat.mul_add, Nat.mul_one]
    omega
  have hk : m.maxObjectSize * j ≤ m.maxObjectSize * c.stores.length :=
    Nat.mul_le_mul_left _ (Nat.lt_succ_iff.1 hj)
  have hnil : c.txn.buffer = [] := length_eq_zero_iff.1 (by omega)
  rw [h.behind hnil] at hk
  simp only [length_nil, mul_zero, le_zero] at hk
  omega

/-- Every end of a part that the call passes is passed properly. -/
def Passes (m : Manager) (expectedSize total start len : Nat) : Prop :=
  ∀ stop, FlushesAt m start len stop → ¬LooksComplete m expectedSize total stop ∧ stop < 2 ^ 64

theorem passes_split {total start len batch} (hle : batch ≤ len) :
    Passes m expectedSize total start len ↔ Passes m expectedSize total start batch ∧
        Passes m expectedSize total (start + batch) (len - batch) := by
  constructor
  · intro h
    refine ⟨fun stop hstop => h stop ?_, fun stop hstop => h stop ?_⟩
    · exact ⟨hstop.1, hstop.2.1, hstop.2.2.1, hstop.2.2.2.trans_le (by omega)⟩
    · obtain ⟨hdvd, hpos, hge, hlt⟩ := hstop
      exact ⟨hdvd, hpos, by omega, by omega⟩
  · rintro ⟨hfirst, hrest⟩ stop ⟨hdvd, hpos, hge, hlt⟩
    by_cases hin : stop < start + batch
    · exact hfirst stop ⟨hdvd, hpos, hge, hin⟩
    · exact hrest stop ⟨hdvd, hpos, by omega, by omega⟩

def Broken (m : Manager) (bytes : List UInt8) (c : Client Id Label) : Prop :=
  Cut bytes c ∨ Skewed m c

theorem Broken.writeLoop (hok : ∀ n, reply n = .ok) (h : Broken m bytes c) (rounds : Nat)
    (data : List UInt8) (written : Nat) :
    Broken m bytes (writeLoop m reply rounds data written c).2 := by
  refine writeLoop_induct hok (Broken m bytes) ?_ (fun _ _ h => h) rounds data written c h
  intro written c h
  exact h.imp Cut.makeRoom (Skewed.makeRoom hok)

theorem Filling.round (h : Filling m expectedSize bytes c) (hok : ∀ n, reply n = .ok) {total}
    (hlen : bytes.length = total + written) {data} (hne : data ≠ []) {batchSize}
    (hpos : 0 < batchSize) {c'} (hc' : Extern.makeRoom m reply written c = (.ok (), c'))
    (hspace : batchSize ≤ m.maxObjectSize - c'.txn.buffer.length) :
    (Passes m expectedSize total bytes.length batchSize ∧ Packed m expectedSize bytes c') ∨
    (¬Passes m expectedSize total bytes.length batchSize ∧ Broken m (bytes ++ data) c') := by
  obtain rfl : (Extern.makeRoom m reply written c).2 = c' := congrArg Prod.snd hc'
  have hM : batchSize ≤ m.maxObjectSize := hspace.trans (sub_le _ _)
  by_cases hfull : c.txn.buffer.length = m.maxObjectSize
  · have hself : FlushesAt m bytes.length batchSize bytes.length := by
      refine ⟨?_, ?_, le_rfl, Nat.lt_add_of_pos_right hpos⟩
      · rw [h.length, hfull]
        exact ⟨c.stores.length + 1, (Nat.mul_succ _ _).symm⟩
      · have := m.pos
        have := h.length
        omega
    by_cases hcommit : c.txn.doCommit written = true
    · right
      refine ⟨fun hpasses => (hpasses _ hself).1 ?_, ?_⟩
      · exact (doCommit_iff h.toPacked hfull hlen).1 hcommit
      · exact .inl (h.toPacked.makeRoom_cut hok hfull hcommit hne)
    have hcommit' := Bool.eq_false_iff.2 hcommit
    by_cases hfits : bytes.length < 2 ^ 64
    · refine .inl ⟨fun stop hstop => ?_, h.toPacked.makeRoom hok hfull hcommit' hfits⟩
      obtain ⟨-, rfl⟩ := h.stop_eq hM (fun hfree => absurd hfull hfree) hstop
      exact ⟨fun hlooks => hcommit ((doCommit_iff h.toPacked hfull hlen).2 hlooks), hfits⟩
    · refine .inr ⟨fun hpasses => hfits (hpasses _ hself).2, ?_⟩
      exact .inr (h.toPacked.makeRoom_skewed hok hfull hcommit' (Nat.le_of_not_lt hfits))
  · rw [makeRoom_free hfull] at hspace ⊢
    refine .inl ⟨fun stop hstop => ?_, h.toPacked⟩
    exact absurd (h.stop_eq hM (fun _ => hspace) hstop).1 hfull

/-- The loop of `Write`: all bytes are packed if every end of a part is passed properly,
and otherwise the transaction is broken. -/
theorem Filling.writeLoop (hok : ∀ n, reply n = .ok) (total : Nat) :
    ∀ (rounds : Nat) (data : List UInt8) (written : Nat) (bytes : List UInt8)
      (c : Client Id Label), Filling m expectedSize bytes c → data.length ≤ rounds →
      bytes.length = total + written → (Passes m expectedSize total bytes.length data.length ∧
        Filling m expectedSize (bytes ++ data) (writeLoop m reply rounds data written c).2) ∨
      (¬Passes m expectedSize total bytes.length data.length ∧
        Broken m (bytes ++ data) (Extern.writeLoop m reply rounds data written c).2)
  | rounds, [], written, bytes, c, h, _, _ => by
    refine .inl ⟨fun stop hstop => ?_, ?_⟩
    · exact absurd hstop.2.2.2 (not_lt.2 hstop.2.2.1)
    · rw [append_nil]
      cases rounds <;> exact h
  | rounds + 1, byte :: data, written, bytes, c, h, hrounds, hlen => by
    obtain ⟨batchSize, c', hc', heq, hbatch, hspace, hroom⟩ :=
      writeLoop_cons (m := m) hok rounds byte data written c
    obtain ⟨hpos, hroom⟩ := hroom h.fits
    have htake : ((byte :: data).take batchSize).length = batchSize := by
      rw [length_take, min_eq_left hbatch]
    rw [heq, passes_split hbatch]
    rcases h.round hok hlen (cons_ne_nil byte data) hpos hc' hspace with
      ⟨hpasses, hpacked⟩ | ⟨hpasses, hbroken⟩
    · have hnext : Filling m expectedSize (bytes ++ (byte :: data).take batchSize)
          (c'.copy ((byte :: data).take batchSize)) := by
        refine hpacked.copy ?_ ?_
        · exact ne_nil_of_length_pos (htake.symm ▸ hpos)
        · rw [htake]
          exact (Nat.add_le_add_left hspace _).trans_eq (Nat.add_sub_cancel' hroom.le)
      have hrest := Filling.writeLoop hok total rounds
        ((byte :: data).drop batchSize) (written + batchSize) _ _ hnext
        (by rw [length_drop]; omega)
        (by rw [length_append, htake, hlen, add_assoc])
      rw [append_assoc, take_append_drop, length_append, htake, length_drop] at hrest
      exact hrest.imp (fun hrest => ⟨⟨hpasses, hrest.1⟩, hrest.2⟩)
        (fun hrest => ⟨fun hall => hrest.1 hall.2, hrest.2⟩)
    · have hcopied : Broken m (bytes ++ byte :: data)
          (c'.copy ((byte :: data).take batchSize)) := hbroken
      exact .inr ⟨fun hall => hpasses hall.1, hcopied.writeLoop hok _ _ _⟩

end

end Cvmfs.Extern
