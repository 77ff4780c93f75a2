import Cvmfs.Extern.Parts

/-! # Storing an object as a whole

The calls of `Write` and the end of a transaction, from `StartTxn` to `CommitTxn`. -/

namespace Cvmfs.Extern

open List Nat

section

variable {Id Label : Type} {m : Manager} {reply : Nat → Status} {expectedSize : Nat}
  {bytes : List UInt8} {c : Client Id Label}

/-! ## Calls of `Write` -/

/-- The bytes written after a call of `Write` that does what it should. -/
def after (expectedSize : Nat) (bytes buf : List UInt8) : List UInt8 :=
  if Exceeds expectedSize bytes.length buf.length then bytes else bytes ++ buf

def answer (expectedSize : Nat) (bytes buf : List UInt8) : Except Errno Nat :=
  if Exceeds expectedSize bytes.length buf.length then .error .efbig else .ok buf.length

theorem intended_cons (bytes buf : List UInt8) (bufs : List (List UInt8)) :
    intended expectedSize bytes (buf :: bufs) =
      (answer expectedSize bytes buf :: (intended expectedSize (after expectedSize bytes buf) bufs).1,
        (intended expectedSize (after expectedSize bytes buf) bufs).2) := by
  unfold answer after
  rw [intended]
  split <;> rfl

theorem careful_cons (bytes buf : List UInt8) (bufs : List (List UInt8)) :
    Careful m expectedSize bytes.length (buf :: bufs) ↔
      CarefulWrite m expectedSize bytes.length buf.length ∧
        Careful m expectedSize (after expectedSize bytes buf).length bufs := by
  rw [Careful, after]
  split <;> simp

/-- A careful call does what it should. Any other call returns something else or breaks the
transaction. -/
theorem Filling.write (h : Filling m expectedSize bytes c) (hok : ∀ n, reply n = .ok)
    (hrange : expectedSize < 2 ^ 64) (buf : List UInt8) :
    ∃ result c', write m reply buf c = some (result, c') ∧
      ((CarefulWrite m expectedSize bytes.length buf.length ∧
        result = answer expectedSize bytes buf ∧
        Filling m expectedSize (after expectedSize bytes buf) c') ∨
      (¬CarefulWrite m expectedSize bytes.length buf.length ∧
        (result ≠ answer expectedSize bytes buf ∨
          Broken m (after expectedSize bytes buf) c'))) := by
  have hloop := Filling.writeLoop hok bytes.length buf.length buf 0 bytes c h le_rfl rfl
  have hfst := writeLoop_fst hok buf.length buf 0 c le_rfl h.fits
  rw [zero_add] at hfst
  rw [Extern.write, if_neg (by rw [h.isOpen]; decide), h.expected, h.size_eq]
  by_cases hexceeds : Exceeds expectedSize bytes.length buf.length
  · rw [CarefulWrite, if_pos hexceeds, answer, if_pos hexceeds, after, if_pos hexceeds]
    by_cases hrefused : expectedSize < u64 (flushedBytes m bytes.length + buf.length)
    · rw [if_pos ⟨hexceeds.1, hrefused⟩]
      exact ⟨_, _, rfl, .inl ⟨hrefused, rfl, h⟩⟩
    rw [if_neg (fun hboth => hrefused hboth.2)]
    refine ⟨_, _, rfl, .inr ⟨hrefused, .inl ?_⟩⟩
    rw [hfst]
    exact nofun
  have haccepted : ¬(expectedSize ≠ kSizeUnknown ∧
      expectedSize < u64 (flushedBytes m bytes.length + buf.length)) := by
    rintro ⟨hknown, hlt⟩
    have hle : bytes.length + buf.length ≤ expectedSize :=
      Nat.le_of_not_lt fun hlt => hexceeds ⟨hknown, hlt⟩
    have hflushed : flushedBytes m bytes.length ≤ bytes.length :=
      (Nat.mul_div_le _ _).trans (Nat.sub_le _ _)
    have hsum := (Nat.add_le_add_right hflushed _).trans hle
    rw [u64_of_lt (hsum.trans_lt hrange)] at hlt
    exact absurd hsum (Nat.not_le.2 hlt)
  rw [if_neg haccepted, CarefulWrite, if_neg hexceeds, answer, if_neg hexceeds, after,
    if_neg hexceeds]
  exact ⟨_, _, rfl, hloop.imp (fun hloop => ⟨hloop.1, hfst, hloop.2⟩)
    (fun hloop => ⟨hloop.1, .inr hloop.2⟩)⟩

/-! ## The whole transaction -/

section

variable (hok : ∀ n, reply n = .ok)
include hok

theorem flush_fst (doCommit : Bool) (c : Client Id Label) :
    (flush m reply doCommit c).1 = .ok () := by
  cases hc : c.txn.committed with
  | true => rw [flush_committed hc]
  | false => rw [flush_open hok hc]

theorem committed_flush (c : Client Id Label) : (flush m reply true c).2.txn.committed = true := by
  cases hc : c.txn.committed with
  | true => rw [flush_committed hc, hc]
  | false => rw [flush_open hok hc]

theorem commitTxn_spec (c : Client Id Label) : (commitTxn m reply c).1 = .ok () ∧
      (commitTxn m reply c).2.stores = (flush m reply true c).2.stores := by
  have hfst := flush_fst (m := m) hok true c
  rw [commitTxn]
  generalize flush m reply true c = r at hfst
  obtain ⟨result, c'⟩ := r
  cases hfst
  dsimp only
  split
  · rw [changeRefcount, hok]
    exact ⟨rfl, by simp [Client.stores]⟩
  · exact ⟨rfl, rfl⟩

theorem finish_spec (fd : Option Nat) (c : Client Id Label) : (finish m reply fd c).1 = .ok () ∧
      (finish m reply fd c).2.stores = (flush m reply true c).2.stores := by
  cases fd with
  | none => exact commitTxn_spec hok c
  | some fd =>
    have hfst := flush_fst (m := m) hok true c
    have hcommitted := committed_flush (m := m) hok c
    rw [finish, openFromTxn]
    generalize flush m reply true c = r at hfst hcommitted
    obtain ⟨result, c'⟩ := r
    cases hfst
    obtain ⟨hdone, hstores⟩ := commitTxn_spec (m := m) hok c'.opened
    refine ⟨hdone, hstores.trans ?_⟩
    rw [flush_committed (show c'.opened.txn.committed = true from hcommitted)]
    rfl

end

theorem Filling.finish (h : Filling m expectedSize bytes c) (hok : ∀ n, reply n = .ok)
    (fd : Option Nat) : InParts m bytes (Extern.finish m reply fd c).2.stores := by
  have hdiv : c.txn.size / m.maxObjectSize + 1 = 1 + c.stores.length := by
    rw [h.size, Nat.mul_div_cancel_left _ m.pos, Nat.add_comm]
  rw [(finish_spec hok fd c).2, flush_open hok h.isOpen, stores_store]
  refine ⟨?_, ?_, ?_, ?_⟩
  · rw [map_append, length_append, length_singleton, range'_1_concat]
    exact congrArg₂ _ h.numbered (congrArg (fun n => [n]) hdiv)
  · rw [dropLast_concat]
    exact h.full
  · rw [map_append, length_append, length_singleton, Nat.add_sub_cancel]
    refine congrArg₂ _ (eq_replicate_iff.2 ⟨length_map _, ?_⟩) rfl
    intro b hb
    obtain ⟨r, hr, rfl⟩ := mem_map.1 hb
    exact h.unmarked r hr
  · rw [flatMap_append, flatMap_singleton]
    exact h.content

theorem Broken.finish (h : Broken m bytes c) (hok : ∀ n, reply n = .ok) (fd : Option Nat) :
    ¬InParts m bytes (Extern.finish m reply fd c).2.stores := by
  intro hparts
  rw [(finish_spec hok fd c).2] at hparts
  rcases h with ⟨hcommitted, hlt⟩ | hskewed
  · rw [flush_committed hcommitted] at hparts
    rw [hparts.content] at hlt
    exact lt_irrefl _ hlt
  cases hc : c.txn.committed with
  | true =>
    rw [flush_committed hc] at hparts
    refine hskewed.elim (fun hne => hne hparts.numbered) fun hopen => ?_
    rw [hopen.1] at hc
    cases hc
  | false =>
    rw [flush_open hok hc] at hparts
    exact hskewed.snoc.elim (fun hne => hne hparts.numbered) fun hopen => nomatch hopen.1

theorem writes_cons {buf bufs results c''} : writes m reply (buf :: bufs) c = some (results, c'') ↔
      ∃ result c' rest, write m reply buf c = some (result, c') ∧
        writes m reply bufs c' = some (rest, c'') ∧ results = result :: rest := by
  simp only [writes, Option.bind_eq_bind, Option.bind_eq_some_iff, Option.pure_def,
    Option.some.injEq, Prod.exists, Prod.mk.injEq]
  constructor
  · rintro ⟨result, c', hwrite, rest, _, hwrites, rfl, rfl⟩
    exact ⟨result, c', rest, hwrite, hwrites, rfl⟩
  · rintro ⟨result, c', rest, hwrite, hwrites, rfl⟩
    exact ⟨result, c', hwrite, rest, c'', hwrites, rfl, rfl⟩

/-- Further calls of `Write` do not repair a transaction: they fail on the assertion, or the
numbers of the parts stay wrong. -/
theorem Broken.write (h : Broken m bytes c) (hok : ∀ n, reply n = .ok) {buf result c'}
    (hwrite : Extern.write m reply buf c = some (result, c')) : Skewed m c' := by
  cases hc : c.txn.committed with
  | true =>
    rw [Extern.write, if_pos hc] at hwrite
    cases hwrite
  | false =>
    have hskewed : Skewed m c := h.resolve_left fun hcut => by
      rw [hcut.1] at hc
      cases hc
    rw [Extern.write, if_neg (by rw [hc]; decide)] at hwrite
    split at hwrite
    · cases hwrite
      exact hskewed
    have hc' := congrArg Prod.snd (Option.some.inj hwrite)
    dsimp only at hc'
    rw [← hc']
    exact writeLoop_induct hok (Skewed m) (fun _ _ h => h.makeRoom hok) (fun _ _ h => h) _ _ _ _
      hskewed

/-- The calls and the end of the transaction from a state in between. -/
def Completes (m : Manager) (reply : Nat → Status) (expectedSize : Nat) (fd : Option Nat)
    (bytes : List UInt8) (bufs : List (List UInt8)) (c : Client Id Label) : Prop :=
  ∃ results c', writes m reply bufs c = some (results, c') ∧
    results = (intended expectedSize bytes bufs).1 ∧
    InParts m (intended expectedSize bytes bufs).2 (finish m reply fd c').2.stores

theorem Broken.not_completes (hok : ∀ n, reply n = .ok) (fd : Option Nat) :
    ∀ (bufs : List (List UInt8)) (bytes : List UInt8) (c : Client Id Label), Broken m bytes c →
      ¬Completes m reply expectedSize fd bytes bufs c
  | [], bytes, c, h => by
    rintro ⟨_, c', hwrites, -, hparts⟩
    cases hwrites
    exact h.finish hok fd hparts
  | buf :: bufs, bytes, c, h => by
    rintro ⟨_, c'', hwrites, hresults, hparts⟩
    obtain ⟨result, c', rest, hwrite, hrest, rfl⟩ := writes_cons.1 hwrites
    rw [intended_cons] at hresults hparts
    exact Broken.not_completes hok fd bufs _ c' (.inr (h.write hok hwrite))
      ⟨rest, c'', hrest, (cons.inj hresults).2, hparts⟩

theorem Filling.completes_iff (hok : ∀ n, reply n = .ok) (hrange : expectedSize < 2 ^ 64)
    (fd : Option Nat) : ∀ (bufs : List (List UInt8)) (bytes : List UInt8) (c : Client Id Label),
      Filling m expectedSize bytes c →
      (Completes m reply expectedSize fd bytes bufs c ↔ Careful m expectedSize bytes.length bufs)
  | [], bytes, c, h => iff_of_true ⟨[], c, rfl, rfl, h.finish hok fd⟩ trivial
  | buf :: bufs, bytes, c, h => by
    obtain ⟨result, c', hwrite, hcall⟩ := h.write hok hrange buf
    rw [careful_cons]
    rcases hcall with ⟨hcareful, hresult, hnext⟩ | ⟨hcareful, hfailed⟩
    · rw [← Filling.completes_iff hok hrange fd bufs _ c' hnext]
      constructor
      · rintro ⟨_, c'', hwrites, hresults, hparts⟩
        obtain ⟨_, _, rest, hwrite', hrest, rfl⟩ := writes_cons.1 hwrites
        cases hwrite.symm.trans hwrite'
        rw [intended_cons] at hresults hparts
        exact ⟨hcareful, rest, c'', hrest, (cons.inj hresults).2, hparts⟩
      · rintro ⟨-, rest, c'', hwrites, hresults, hparts⟩
        refine ⟨result :: rest, c'', writes_cons.2 ⟨_, _, _, hwrite, hwrites, rfl⟩, ?_, ?_⟩
        · rw [intended_cons, hresults, hresult]
        · rw [intended_cons]
          exact hparts
    refine iff_of_false ?_ fun hall => hcareful hall.1
    rintro ⟨_, c'', hwrites, hresults, hparts⟩
    obtain ⟨_, _, rest, hwrite', hrest, rfl⟩ := writes_cons.1 hwrites
    cases hwrite.symm.trans hwrite'
    rw [intended_cons] at hresults hparts
    rcases hfailed with hanswer | hbroken
    · exact hanswer (cons.inj hresults).1
    · exact hbroken.not_completes hok fd bufs _ c'
        ⟨rest, c'', hrest, (cons.inj hresults).2, hparts⟩

def started (Label : Type) (id : Id) (expectedSize nextRequestId : Nat) : Client Id Label where
  txn := {
    buffer := []
    size := 0
    expectedSize := expectedSize
    label := none
    openFds := 0
    flushed := false
    committed := false
    transactionId := nextRequestId
    id := id }
  sent := []

theorem filling_started (id : Id) (expectedSize nextRequestId : Nat) :
    Filling m expectedSize [] (started Label id expectedSize nextRequestId) where
  isOpen := rfl
  expected := rfl
  size := rfl
  numbered := rfl
  full := forall_mem_nil _
  unmarked := forall_mem_nil _
  content := rfl
  fits := zero_le _
  behind _ := rfl

theorem stored_iff_completes (hok : ∀ n, reply n = .ok) (hwrite : m.capWrite = true) (id : Id)
    (nextRequestId : Nat) (bufs : List (List UInt8)) (fd : Option Nat) :
    Stored Label m reply id expectedSize nextRequestId bufs fd ↔
      Completes m reply expectedSize fd [] bufs (started Label id expectedSize nextRequestId) := by
  have hstart : (startTxn m id expectedSize nextRequestId).toOption =
      some (started Label id expectedSize nextRequestId).txn := by
    rw [startTxn, if_pos hwrite]
    rfl
  simp only [Stored, store, hstart, Option.bind_eq_bind, Option.bind_some, Option.pure_def,
    Option.bind_eq_some_iff, Option.some.injEq, Prod.exists]
  constructor
  · rintro ⟨report, ⟨results, c, hwrites, rfl⟩, hresults, -, hparts⟩
    exact ⟨results, c, hwrites, hresults, hparts⟩
  · rintro ⟨results, c, hwrites, hresults, hparts⟩
    exact ⟨_, ⟨results, c, hwrites, rfl⟩, hresults, (finish_spec hok fd c).1, hparts⟩

/-- With good replies, the transaction does what it should exactly if all calls of `Write`
are careful. -/
theorem stored_iff_careful (hok : ∀ n, reply n = .ok) (hwrite : m.capWrite = true)
    (hrange : expectedSize < 2 ^ 64) (id : Id) (nextRequestId : Nat)
    (bufs : List (List UInt8)) (fd : Option Nat) :
    Stored Label m reply id expectedSize nextRequestId bufs fd ↔ Careful m expectedSize 0 bufs := by
  rw [stored_iff_completes hok hwrite]
  exact Filling.completes_iff hok hrange fd bufs [] _ (filling_started id expectedSize _)

end

/-! ## Runs -/

/-- The smallest object size that a manager accepts. -/
def smallParts : Manager where
  maxObjectSize := 4096
  capWrite := true
  minSupported := by decide
  maxSupported := by decide

theorem carefulWrite_of_le {m expectedSize total len} (hrange : expectedSize < 2 ^ 64)
    (hlen : len ≤ m.maxObjectSize) (hle : total + len ≤ expectedSize) :
    CarefulWrite m expectedSize total len := by
  rw [CarefulWrite, if_neg fun hexceeds => absurd hle (not_le.2 hexceeds.2)]
  rintro stop ⟨hdvd, hpos, hge, hlt⟩
  have hM := le_of_dvd hpos hdvd
  have hsum : stop - m.maxObjectSize + (stop - total) < expectedSize := by omega
  refine ⟨fun hlooks => ?_, (hlt.trans_le hle).trans hrange⟩
  have heq := hlooks.2
  rw [u64_of_lt (hsum.trans hrange)] at heq
  exact hsum.ne heq

/-- A part that ends inside of the second call, and a third call that is refused. -/
theorem stored_iff_careful_twoParts : Careful smallParts 5000 0
        [replicate 3000 0, replicate 2000 1, replicate 2000 2] ∧
      Stored Unit smallParts (fun _ => .ok) () 5000 1
        [replicate 3000 0, replicate 2000 1, replicate 2000 2] none := by
  have hcareful : Careful smallParts 5000 0
      [replicate 3000 0, replicate 2000 1, replicate 2000 2] := by
    simp only [Careful, length_replicate]
    refine ⟨carefulWrite_of_le (by decide) (by decide) (by decide),
      carefulWrite_of_le (by decide) (by decide) (by decide), ?_, trivial⟩
    rw [CarefulWrite, if_pos (by decide)]
    decide
  refine ⟨hcareful, ?_⟩
  exact (stored_iff_careful (fun _ => rfl) rfl (by decide) () 1 _ none).2 hcareful

/-- What a run looks like from outside: the results of the calls, and the number, the mark
and the length of the parts. -/
def outline {Id Label : Type} (report : Report Id Label) :
    List (Except Errno Nat) × Except Errno Unit × List (Nat × Bool × Nat) :=
  (report.writes, report.finish,
    report.client.stores.map fun r => (r.partNr, r.lastPart, r.attachment.length))

def sentBytes {Id Label : Type} (report : Report Id Label) : Nat :=
  (report.client.stores.map (·.attachment.length)).sum

theorem Stored.report {Id Label : Type} {m reply expectedSize nextRequestId bufs fd} {id : Id}
    (h : Stored Label m reply id expectedSize nextRequestId bufs fd) :
    (store m reply id expectedSize nextRequestId bufs fd : Option (Report Id Label)).map
        (fun r => (r.writes, sentBytes r)) =
      some ((intended expectedSize [] bufs).1, (intended expectedSize [] bufs).2.length) := by
  obtain ⟨report, hstore, hwrites, -, hparts⟩ := h
  rw [hstore, Option.map_some, hwrites, sentBytes, ← hparts.content, length_flatMap]

/-- Three parts in one call: after the second one the bytes flushed before it and the bytes
copied make three parts, so that it is sent as the last one. All calls succeed, the third
part is never sent. -/
theorem third_part_lost : (store smallParts (fun _ => .ok) () 12288 1 [replicate 12288 0] none
        : Option (Report Unit Unit)).map outline =
      some ([.ok 12288], .ok (), [(1, false, 4096), (2, true, 4096)]) ∧
    ¬Stored Unit smallParts (fun _ => .ok) () 12288 1 [replicate 12288 0] none := by
  refine ⟨by decide +kernel, fun h => ?_⟩
  have hsent : (store smallParts (fun _ => .ok) () 12288 1 [replicate 12288 0] none
      : Option (Report Unit Unit)).map (fun r => (r.writes, sentBytes r)) ≠
        some ((intended 12288 [] [replicate 12288 0]).1,
          (intended 12288 [] [replicate 12288 0]).2.length) := by decide +kernel
  exact hsent h.report

/-- The second call exceeds the expected size and is accepted: nothing is flushed yet. -/
theorem expected_size_exceeded :
    ¬Stored Unit smallParts (fun _ => .ok) () 5000 1 [replicate 3000 0, replicate 3000 0] none := by
  intro h
  have hsent : (store smallParts (fun _ => .ok) () 5000 1 [replicate 3000 0, replicate 3000 0] none
      : Option (Report Unit Unit)).map (fun r => (r.writes, sentBytes r)) ≠
        some ((intended 5000 [] [replicate 3000 0, replicate 3000 0]).1,
          (intended 5000 [] [replicate 3000 0, replicate 3000 0]).2.length) := by decide +kernel
  exact hsent h.report

end Cvmfs.Extern
