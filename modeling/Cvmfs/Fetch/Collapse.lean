import Cvmfs.Fetch.Fetcher

/-! # Concurrent downloads of an object are collapsed

The mutex, the queue of an object and the transaction of a thread belong to calls at
certain places; the lists and pipes connect a master with the calls that wait for it; the
open descriptors are those that callers and calls hold, one reference for each. -/

namespace Cvmfs.Fetch

open Lib (Table)
open Function List Option

variable {Id : Type}

/-! ## Places -/

/-- What a thread has to do with other threads: it waits for the master of an object, or it
is the master and has answered some of those who wait. -/
inductive Duty (Id : Type) where
  | idle
  | waits (master : Nat) (id : Id)
  | leads (passed : Nat) (id : Id)

/-- The number of threads that got their answer. -/
def Duty.passed : Duty Id → Nat
  | .leads passed _ => passed
  | _ => 0

namespace Pc

def locks : Pc → Bool
  | .find | .recheck | .dup .. | .write .. => true
  | _ => false

def inTxn : Pc → Bool
  | .download | .retryAbort | .downloadFull | .openFromTxn | .abort _ | .commitTxn _ => true
  | _ => false

def duty (id : Id) : Pc → Duty Id
  | .wait master => .waits master id
  | .startTxn | .download | .retryAbort | .retryStart | .downloadFull | .openFromTxn | .abort _
  | .commitTxn _ | .close .. | .signal _ => .leads 0 id
  | .dup _ i | .write _ i _ => .leads i id
  | _ => .idle

/-- The numbers a call has at hand; errors among them are no descriptors. -/
def fds : Pc → List Int
  | .abort result | .signal result | .dup result _ | .ret result => [result]
  | .commitTxn fd => [(fd : Int)]
  | .close fd result => [(fd : Int), result]
  | .write result _ fdDup => [fdDup, result]
  | _ => []

def Writes (waiting : List Nat) : Pc → Prop
  | .write _ i _ => i < waiting.length
  | _ => True

theorem Writes.mono {waiting waiting' : List Nat} {pc : Pc} (h : pc.Writes waiting)
    (hle : waiting.length ≤ waiting'.length) : pc.Writes waiting' := by
  cases pc with
  | write result i fdDup => exact Nat.lt_of_lt_of_le h hle
  | _ => trivial

/-- A bound on the steps that are left, without those for waiting threads. -/
def rank : Pc → Nat
  | .probe => 15
  | .lock => 14
  | .find => 13
  | .recheck => 12
  | .startTxn => 11
  | .download => 10
  | .retryAbort => 9
  | .retryStart => 8
  | .downloadFull => 7
  | .openFromTxn => 6
  | .commitTxn _ => 5
  | .abort _ | .close .. => 4
  | .signal _ => 3
  | .dup .. => 2
  | .wait _ => 2
  | .write .. => 1
  | .ret _ => 1

end Pc

/-- Places that differ in what a call has open only. -/
structure Alike (id : Id) (waiting : List Nat) (pc pc' : Pc) : Prop where
  locks : pc'.locks = pc.locks := by rfl
  duty : pc'.duty id = pc.duty id := by rfl
  miss : pc' ≠ .recheck := by simp
  writes : pc'.Writes waiting := by trivial
  rank : pc'.rank < pc.rank := by simp [Pc.rank]

variable [DecidableEq Id]

omit [DecidableEq Id] in
theorem refs_of_neg {fd} (h : fd < 0) (id : Id) (fds : List Int) :
    refs id (fd :: fds) = refs id fds := by
  rw [refs, filter_cons_of_neg (by simpa using h), refs]

/-! ## What an operation does -/

/-- The outcomes of the operations, by what they do to the shared state. -/
inductive Moves (s : State Id) (t : Nat) (c : Call Id) : State Id → Prop
  | goto {pc} : Alike c.object.id (s.waiting t) c.pc pc → pc.inTxn = c.pc.inTxn →
      refs c.object.id pc.fds = refs c.object.id c.pc.fds → Moves s t c (s.goto t c pc)
  | opens {pc fd} : Alike c.object.id (s.waiting t) c.pc pc → pc.inTxn = c.pc.inTxn →
      s.Valid fd c.object.id → pc.fds = fd :: c.pc.fds →
      Moves s t c ((s.opening fd c.object.id).goto t c pc)
  | closes {fd result} : c.pc = .close fd result →
      Moves s t c ({ s with opened := s.opened.erase ((fd : Int), c.object.id) }.goto t c
        (.signal result))
  | starts {pc} : Alike c.object.id (s.waiting t) c.pc pc → c.pc.inTxn = false → pc.inTxn = true →
      refs c.object.id pc.fds = refs c.object.id c.pc.fds →
      Moves s t c ({ s with txns := t :: s.txns }.goto t c pc)
  | stops {pc} : Alike c.object.id (s.waiting t) c.pc pc → c.pc.inTxn = true → pc.inTxn = false →
      refs c.object.id pc.fds = refs c.object.id c.pc.fds →
      Moves s t c ({ s with txns := s.txns.erase t }.goto t c pc)
  | locks {pc} : s.mutex = none → c.pc.locks = false → pc.locks = true →
      pc.duty c.object.id = c.pc.duty c.object.id → pc.inTxn = c.pc.inTxn →
      pc.fds = c.pc.fds → pc.rank < c.pc.rank → pc ≠ .recheck → pc.Writes (s.waiting t) →
      Moves s t c ({ s with mutex := some t }.goto t c pc)
  | misses : c.pc = .find → s.queues.find? c.object.id = none → Moves s t c (s.goto t c .recheck)
  | enqueues {master} : c.pc = .find → s.queues.find? c.object.id = some master →
      Moves s t c ({ s with
        waiting := update s.waiting master (s.waiting master ++ [t])
        mutex := none }.goto t c (.wait master))
  | reads {master reply rest} : c.pc = .wait master → s.pipes t = reply :: rest →
      Moves s t c ({ s with pipes := update s.pipes t rest }.goto t c (.ret reply.value))
  | hits {fd} : c.pc = .recheck → s.Valid fd c.object.id →
      Moves s t c ({ s.opening fd c.object.id with mutex := none }.goto t c (.ret fd))
  | leads : c.pc = .recheck →
      Moves s t c ({ s with queues := s.queues.put c.object.id t, mutex := none }.goto t c .startTxn)
  | writes {result i fdDup u} : c.pc = .write result i fdDup → (s.waiting t)[i]? = some u →
      Moves s t c ({ s with
        pipes := update s.pipes u
          (s.pipes u ++ [(⟨fdDup, t, c.object.id⟩ : Reply Id)]) }.goto t c (.dup result (i + 1)))
  | clears {result i} : c.pc = .dup result i → i = (s.waiting t).length →
      Moves s t c ({ s with
        waiting := update s.waiting t []
        queues := s.queues.erase c.object.id
        mutex := none }.goto t c (.ret result))
  | returns {result} : c.pc = .ret result →
      Moves s t c { s with
        calls := s.calls.erase t
        returned := ⟨c.number, c.object.id, result⟩ :: s.returned
        held := if 0 ≤ result then ⟨c.number, c.object.id, result⟩ :: s.held else s.held }

theorem moves_of_op {cfg : Config Id} {s s' : State Id} {t : Nat} {c : Call Id} {op : Op}
    (h : s.op cfg t c c.pc op = some s') : Moves s t c s' := by
  obtain ⟨number, object, pc⟩ := c
  dsimp only at h
  unfold State.op at h
  split at h
  · -- the first look into the cache
    obtain ⟨hvalid, h⟩ := ite_none_right_eq_some.1 h
    split at h
    · cases h
      exact .opens {} rfl hvalid.2 rfl
    split at h
    · cases h
      exact .goto {} rfl rfl
    · cases h
      exact .goto {} rfl rfl
  · obtain ⟨hmutex, ⟨⟩⟩ := ite_none_right_eq_some.1 h
    exact .locks hmutex rfl rfl rfl rfl rfl (by simp [Pc.rank]) (by simp) trivial
  · split at h
    next master hfind =>
      cases h
      exact .enqueues rfl hfind
    next hfind =>
      cases h
      exact .misses rfl hfind
  · split at h
    · cases h
    next reply rest hpipe =>
      cases h
      exact .reads rfl hpipe
  · obtain ⟨hvalid, h⟩ := ite_none_right_eq_some.1 h
    split at h
    · cases h
      exact .hits rfl hvalid.2
    · cases h
      exact .leads rfl
  · split at h
    next hneg =>
      cases h
      exact .goto {} rfl (refs_of_neg hneg _ _)
    · cases h
      exact .starts {} rfl rfl rfl
  · split at h
    · cases h
      exact .goto {} rfl rfl
    split at h
    · cases h
      exact .goto {} rfl rfl
    · cases h
      exact .goto {} rfl rfl
  · cases h
    exact .stops {} rfl rfl rfl
  · split at h
    next hneg =>
      cases h
      exact .goto {} rfl (refs_of_neg hneg _ _)
    · cases h
      exact .starts {} rfl rfl rfl
  · split at h
    · cases h
      exact .goto {} rfl rfl
    · cases h
      exact .goto {} rfl rfl
  · split at h
    next hneg =>
      cases h
      exact .goto {} rfl (refs_of_neg hneg _ _)
    next hneg =>
      obtain ⟨hvalid, ⟨⟩⟩ := ite_none_right_eq_some.1 h
      have hnat : ((Int.toNat _ : Nat) : Int) = _ := Int.toNat_of_nonneg (Int.not_lt.1 hneg)
      exact .opens {} rfl hvalid (congrArg (fun fd => [fd]) hnat)
  · cases h
    exact .stops {} rfl rfl rfl
  · split at h
    next hneg =>
      cases h
      refine .stops {} rfl rfl ?_
      simp [Pc.fds, refs, Int.not_le.2 hneg]
    · cases h
      exact .stops {} rfl rfl rfl
  · cases h
    exact .closes rfl
  · obtain ⟨hmutex, ⟨⟩⟩ := ite_none_right_eq_some.1 h
    exact .locks hmutex rfl rfl rfl rfl rfl (by simp [Pc.rank]) (by simp) trivial
  · obtain ⟨hi, h⟩ := ite_none_right_eq_some.1 h
    split at h
    · obtain ⟨hvalid, ⟨⟩⟩ := ite_none_right_eq_some.1 h
      exact .opens { writes := hi } rfl hvalid rfl
    next hneg =>
      cases h
      exact .goto { writes := hi } rfl (refs_of_neg (Int.not_le.1 hneg) _ _)
  · split at h
    · cases h
    next u hu =>
      cases h
      exact .writes rfl hu
  · obtain ⟨hi, ⟨⟩⟩ := ite_none_right_eq_some.1 h
    exact .clears rfl hi
  · cases h
    exact .returns rfl
  · cases h

/-! ## Ownership -/

/-- The mutex is held by the thread that is in a critical section. -/
def Exclusive (locked : Nat → Bool) (mutex : Option Nat) : Prop :=
  ∀ t, mutex = some t ↔ locked t = true

theorem Exclusive.acquire {locked} (h : Exclusive locked none) (t : Nat) :
    Exclusive (update locked t true) (some t) := by
  intro u
  by_cases hu : u = t
  · simp [hu]
  · rw [update_of_ne hu, ← h u]
    simp [Ne.symm hu]

theorem Exclusive.release {locked mutex t} (h : Exclusive locked mutex) (ht : locked t = true) :
    Exclusive (update locked t false) none := by
  intro u
  by_cases hu : u = t
  · simp [hu]
  · rw [update_of_ne hu, ← h u, (h t).2 ht]
    simp [Ne.symm hu]

/-- The queue of an object is the list of its master. -/
def Registered (duties : Nat → Duty Id) (queues : Table Id Nat) : Prop :=
  ∀ id t, queues.find? id = some t ↔ ∃ i, duties t = .leads i id

section Registered

variable {duties : Nat → Duty Id} {queues : Table Id Nat} {t : Nat}

section

variable (h : Registered duties queues)
include h

theorem Registered.relabel {d} (hd : ∀ id, (∃ i, d = .leads i id) ↔ ∃ i, duties t = .leads i id) :
    Registered (update duties t d) queues := by
  intro id u
  rw [h]
  by_cases hu : u = t
  · rw [hu, update_self, hd]
  · rw [update_of_ne hu]

theorem Registered.leads {id} (hnone : queues.find? id = none) (hidle : duties t = .idle) :
    Registered (update duties t (.leads 0 id)) (queues.put id t) := by
  intro id' u
  rw [Table.find?_put]
  by_cases hu : u = t
  · rw [hu, update_self]
    split
    next heq => simp [heq]
    next hne =>
      rw [h, hidle]
      simp [Ne.symm hne]
  · rw [update_of_ne hu, ← h id' u]
    split
    next heq => simp [heq, hnone, Ne.symm hu]
    · rfl

theorem Registered.clears {i id} (ht : duties t = .leads i id) :
    Registered (update duties t .idle) (queues.erase id) := by
  intro id' u
  rw [Table.find?_erase]
  by_cases hu : u = t
  · rw [hu, update_self]
    split
    · simp
    next hne =>
      rw [h, ht]
      simp [Ne.symm hne]
  · rw [update_of_ne hu, ← h id' u]
    split
    next heq =>
      have hq := (h id t).2 ⟨i, ht⟩
      simp [heq, hq, Ne.symm hu]
    · rfl

end

end Registered

structure Transacting (inTxn : Nat → Bool) (txns : List Nat) : Prop where
  nodup : txns.Nodup
  mem : ∀ t, t ∈ txns ↔ inTxn t = true

theorem Transacting.start {inTxn txns t} (h : Transacting inTxn txns) (ht : inTxn t = false) :
    Transacting (update inTxn t true) (t :: txns) := by
  refine ⟨nodup_cons.2 ⟨fun hmem => ?_, h.nodup⟩, fun u => ?_⟩
  · rw [h.mem, ht] at hmem
    cases hmem
  rw [mem_cons, h.mem]
  by_cases hu : u = t
  · simp [hu]
  · rw [update_of_ne hu]
    simp [hu]

theorem Transacting.stop {inTxn txns} (h : Transacting inTxn txns) (t : Nat) :
    Transacting (update inTxn t false) (txns.erase t) := by
  refine ⟨h.nodup.erase t, fun u => ?_⟩
  rw [h.nodup.mem_erase_iff, h.mem]
  by_cases hu : u = t
  · simp [hu]
  · rw [update_of_ne hu]
    simp [hu]

/-! ## Waiting threads -/

/-- Who is in the list of a master and not answered waits for it with an empty pipe; who
waits is in the list of its master or has its answer. -/
structure Waiters (duties : Nat → Duty Id) (waiting : Nat → List Nat)
    (pipes : Nat → List (Reply Id)) : Prop where
  idle : ∀ t, (∀ i id, duties t ≠ .leads i id) → waiting t = []
  bound : ∀ t i id, duties t = .leads i id → i ≤ (waiting t).length
  nodup : ∀ t i id, duties t = .leads i id → ((waiting t).drop i).Nodup
  pending : ∀ t i id, duties t = .leads i id → ∀ u ∈ (waiting t).drop i,
    duties u = .waits t id ∧ pipes u = []
  answered : ∀ u m id, duties u = .waits m id →
    (∃ i, duties m = .leads i id ∧ u ∈ (waiting m).drop i) ∨ ∃ v, pipes u = [⟨v, m, id⟩]
  silent : ∀ u, (∀ m id, duties u ≠ .waits m id) → pipes u = []

namespace Waiters

variable {duties : Nat → Duty Id} {waiting : Nat → List Nat} {pipes : Nat → List (Reply Id)}
  {t : Nat} {id : Id}
omit [DecidableEq Id]

section

variable (h : Waiters duties waiting pipes)
include h

theorem leads (ht : duties t = .idle) (id : Id) :
    Waiters (update duties t (.leads 0 id)) waiting pipes := by
  have hempty : waiting t = [] := h.idle t (by simp [ht])
  obtain ⟨h1, h2, h3, h4, h5, h6⟩ := h
  constructor <;> grind [update_apply]

theorem enqueues (ht : duties t = .idle) {m i} (hm : duties m = .leads i id) :
    Waiters (update duties t (.waits m id)) (update waiting m (waiting m ++ [t])) pipes := by
  have hne : m ≠ t := by
    rintro rfl
    rw [ht] at hm
    cases hm
  have hdrop : (waiting m ++ [t]).drop i = (waiting m).drop i ++ [t] :=
    drop_append_of_le_length (h.bound m i id hm)
  have hnd := h.nodup m i id hm
  have hnotMem : ∀ j id', duties m = .leads j id' → t ∉ (waiting m).drop j := by
    intro j id' hj hmem
    rw [(h.pending m j id' hj t hmem).1] at ht
    cases ht
  have hanswered : ∀ u m' id', update duties t (.waits m id) u = .waits m' id' →
      (∃ j, update duties t (.waits m id) m' = .leads j id' ∧
        u ∈ (update waiting m (waiting m ++ [t]) m').drop j) ∨
      ∃ v, pipes u = [⟨v, m', id'⟩] := by
    intro u m' id' hu
    by_cases hut : u = t
    · rw [hut, update_self] at hu
      cases hu
      refine .inl ⟨i, by rw [update_of_ne hne]; exact hm, ?_⟩
      rw [hut, update_self, hdrop]
      exact mem_append_right _ (.head _)
    rw [update_of_ne hut] at hu
    refine (h.answered u m' id' hu).imp_left fun ⟨j, hj, hmem⟩ => ⟨j, ?_, ?_⟩
    · rw [update_of_ne]
      · exact hj
      · rintro rfl
        rw [ht] at hj
        cases hj
    · by_cases hm' : m' = m
      · rw [hm', update_self, drop_append]
        exact mem_append_left _ (hm' ▸ hmem)
      · rwa [update_of_ne hm']
  obtain ⟨h1, h2, h3, h4, -, h6⟩ := h
  refine ⟨?_, ?_, ?_, ?_, hanswered, ?_⟩ <;> grind [update_apply]

theorem reads {m} (ht : duties t = .waits m id) {reply rest} (hp : pipes t = reply :: rest) :
    rest = [] ∧ reply.author = m ∧
      Waiters (update duties t .idle) waiting (update pipes t rest) := by
  have hone : pipes t = [⟨reply.value, m, id⟩] := by
    rcases h.answered t m id ht with ⟨i, hm, hmem⟩ | ⟨v, hv⟩
    · rw [(h.pending m i id hm t hmem).2] at hp
      cases hp
    · rw [hv] at hp ⊢
      cases hp
      rfl
  rw [hone] at hp
  obtain ⟨hreply, hrest⟩ := cons.inj hp
  obtain ⟨h1, h2, h3, h4, h5, h6⟩ := h
  refine ⟨hrest.symm, by rw [← hreply], ?_⟩
  constructor <;> grind [update_apply]

end

theorem drop_eq {i u} (hu : (waiting t)[i]? = some u) :
    (waiting t).drop i = u :: (waiting t).drop (i + 1) := by
  obtain ⟨hlt, hget⟩ := List.getElem?_eq_some_iff.1 hu
  rw [drop_eq_getElem_cons hlt, hget]

section

variable {i : Nat} (h : Waiters duties waiting pipes) (ht : duties t = .leads i id)
include h ht

theorem next {u} (hu : (waiting t)[i]? = some u) : duties u = .waits t id ∧ pipes u = [] :=
  h.pending t i id ht u (drop_eq hu ▸ mem_cons_self)

theorem writes {u} (hu : (waiting t)[i]? = some u) (v : Int) :
    Waiters (update duties t (.leads (i + 1) id)) waiting
      (update pipes u (pipes u ++ [⟨v, t, id⟩])) := by
  have hdrop := drop_eq hu
  have hlt := (List.getElem?_eq_some_iff.1 hu).1
  have hnd := h.nodup t i id ht
  obtain ⟨hwaits, hempty⟩ := h.next ht hu
  have hanswered : ∀ u' m id', update duties t (.leads (i + 1) id) u' = .waits m id' →
      (∃ j, update duties t (.leads (i + 1) id) m = .leads j id' ∧ u' ∈ (waiting m).drop j) ∨
      ∃ v', update pipes u (pipes u ++ [⟨v, t, id⟩]) u' = [⟨v', m, id'⟩] := by
    intro u' m id' hu'
    by_cases hut : u' = t
    · rw [hut, update_self] at hu'
      cases hu'
    rw [update_of_ne hut] at hu'
    rcases h.answered u' m id' hu' with ⟨j, hj, hmem⟩ | ⟨v', hv'⟩
    · by_cases hmt : m = t
      · rw [hmt, ht] at hj
        cases hj
        rw [hmt, hdrop] at hmem
        rcases mem_cons.1 hmem with heq | hmem
        · refine .inr ⟨v, ?_⟩
          rw [heq, hmt, update_self, hempty]
          rfl
        · exact .inl ⟨i + 1, by rw [hmt, update_self], hmt ▸ hmem⟩
      · exact .inl ⟨j, by rw [update_of_ne hmt]; exact hj, hmem⟩
    · refine .inr ⟨v', ?_⟩
      rw [update_of_ne]
      · exact hv'
      · rintro rfl
        rw [hempty] at hv'
        cases hv'
  obtain ⟨h1, h2, h3, h4, -, h6⟩ := h
  refine ⟨?_, ?_, ?_, ?_, hanswered, ?_⟩ <;> grind [update_apply]

theorem clears (hi : i = (waiting t).length) :
    Waiters (update duties t .idle) (update waiting t []) pipes := by
  obtain ⟨h1, h2, h3, h4, h5, h6⟩ := h
  constructor <;> grind [update_apply]

end

end Waiters

end Cvmfs.Fetch
