import Cvmfs.Fetch.Soundness

/-! # Every call is answered

One thread downloads an object at a time, each call returns once and gets a descriptor of
its own, and nothing is left open when all calls have returned. No call waits for a thread
that cannot go on, and the number of steps is bounded by the number of calls. -/

namespace Cvmfs.Fetch

open Lib (Table System)
open Function Lib.Table List State Pc

variable {Id : Type} [DecidableEq Id]

/-! ## No deadlock -/

def Pc.enters : Pc → Bool
  | .lock | .signal _ => true
  | _ => false

theorem Pc.locks_of_enters {pc : Pc} (h : pc.enters = true) : pc.locks = false := by
  cases pc with
  | lock | signal => rfl
  | _ => cases h

namespace State

/-- The operations that may come next in a call, with every outcome that they can have. New
descriptors are valid. -/
inductive Outcome (s : State Id) (t : Nat) (object : LabeledObject Id) : Pc → Op → Prop
  | probe {fd} : s.Valid fd object.id → Outcome s t object .probe (.openSelect (openSelect object) fd)
  | lock : Outcome s t object .lock .lock
  | find : Outcome s t object .find .find
  | wait {master} : Outcome s t object (.wait master) .readPipe
  | recheck {fd} : s.Valid fd object.id →
      Outcome s t object .recheck (.openSelect (openSelect object) fd)
  | startTxn {retval} : Outcome s t object .startTxn (.startTxn retval)
  | download {error httpCode} : Outcome s t object .download (.fetch error httpCode)
  | retryAbort : Outcome s t object .retryAbort .abortTxn
  | retryStart {retval} : Outcome s t object .retryStart (.startTxn retval)
  | downloadFull {error httpCode} : Outcome s t object .downloadFull (.fetch error httpCode)
  | openFromTxn {fd} : s.Valid fd object.id → Outcome s t object .openFromTxn (.openFromTxn fd)
  | abort {result} : Outcome s t object (.abort result) .abortTxn
  | commitTxn {fd retval} : Outcome s t object (.commitTxn fd) (.commitTxn retval)
  | close {fd result} : Outcome s t object (.close fd result) .close
  | signal {result} : Outcome s t object (.signal result) .lock
  | dup {result i fd} : i < (s.waiting t).length → s.Valid fd object.id →
      Outcome s t object (.dup result i) (.dup fd)
  | clear {result i} : ¬i < (s.waiting t).length → Outcome s t object (.dup result i) .clear
  | write {result i fdDup} : Outcome s t object (.write result i fdDup) .writePipe
  | ret {result} : Outcome s t object (.ret result) .ret

/-- A thread has a next operation, and whatever its outcome is, the thread goes on. -/
def Enabled (cfg : Config Id) (s : State Id) (t : Nat) : Prop :=
  ∃ c, s.calls.find? t = some c ∧ (∃ op, s.Outcome t c.object c.pc op) ∧
    ∀ op, s.Outcome t c.object c.pc op → ∃ s', s.step cfg (.op t op) = some s'

/-- A thread waits for the mutex or for an answer. -/
inductive WaitsFor (s : State Id) : Nat → Nat → Prop
  | mutex {t u c} : s.calls.find? t = some c → c.pc.enters = true → s.mutex = some u →
      WaitsFor s t u
  | answer {t m c} : s.calls.find? t = some c → c.pc = .wait m → s.pipes t = [] → WaitsFor s t m

variable {cfg : Config Id} {s s' : State Id} {t u : Nat} {c : Call Id}

omit [DecidableEq Id] in
theorem valid_of_neg (s : State Id) (id : Id) : s.Valid (-1) id := fun h => absurd h (by decide)

omit [DecidableEq Id] in
theorem exists_outcome (s : State Id) (t : Nat) (object : LabeledObject Id) (pc : Pc) :
    ∃ op, s.Outcome t object pc op := by
  have hvalid := s.valid_of_neg object.id
  cases pc with
  | probe => exact ⟨_, .probe hvalid⟩
  | lock => exact ⟨_, .lock⟩
  | find => exact ⟨_, .find⟩
  | wait => exact ⟨_, .wait⟩
  | recheck => exact ⟨_, .recheck hvalid⟩
  | startTxn => exact ⟨.startTxn 0, .startTxn⟩
  | download => exact ⟨.fetch .ok 200, .download⟩
  | retryAbort => exact ⟨_, .retryAbort⟩
  | retryStart => exact ⟨.startTxn 0, .retryStart⟩
  | downloadFull => exact ⟨.fetch .ok 200, .downloadFull⟩
  | openFromTxn => exact ⟨_, .openFromTxn hvalid⟩
  | abort => exact ⟨_, .abort⟩
  | commitTxn => exact ⟨.commitTxn 0, .commitTxn⟩
  | close => exact ⟨_, .close⟩
  | signal => exact ⟨_, .signal⟩
  | dup result i =>
    by_cases hlt : i < (s.waiting t).length
    · exact ⟨_, .dup hlt hvalid⟩
    · exact ⟨_, .clear hlt⟩
  | write => exact ⟨_, .write⟩
  | ret => exact ⟨_, .ret⟩

theorem Sound.op_done (h : s.Sound) (cfg : Config Id) (hc : s.calls.find? t = some c) {op}
    (hop : s.Outcome t c.object c.pc op) :
    (∃ s', s.op cfg t c c.pc op = some s') ∨ ∃ u, s.WaitsFor t u := by
  have hmutex (henters : c.pc.enters = true) : s.mutex = none ∨ ∃ u, s.WaitsFor t u := by
    cases hm : s.mutex with
    | none => exact .inl rfl
    | some u => exact .inr ⟨u, .mutex hc henters hm⟩
  generalize hpc : c.pc = pc at hop
  cases hop with
  | lock | signal =>
    refine (hmutex (by rw [hpc]; rfl)).imp_left fun hfree => ?_
    rw [State.op, if_pos hfree]
    exact ⟨_, rfl⟩
  | @wait master =>
    cases hpipe : s.pipes t with
    | nil => exact .inr ⟨master, .answer hc hpc hpipe⟩
    | cons reply rest =>
      rw [State.op, hpipe]
      exact .inl ⟨_, rfl⟩
  | probe hvalid | recheck hvalid =>
    rw [State.op, if_pos ⟨rfl, hvalid⟩]
    refine .inl ?_
    repeat' split
    all_goals exact ⟨_, rfl⟩
  | find | startTxn | download | retryStart | downloadFull =>
    rw [State.op]
    refine .inl ?_
    repeat' split
    all_goals exact ⟨_, rfl⟩
  | retryAbort | abort | close | ret => exact .inl ⟨_, rfl⟩
  | commitTxn =>
    simp only [State.op]
    refine .inl ?_
    split <;> exact ⟨_, rfl⟩
  | openFromTxn hvalid =>
    rw [State.op, if_pos hvalid]
    refine .inl ?_
    split <;> exact ⟨_, rfl⟩
  | dup hlt hvalid =>
    rw [State.op, if_pos hlt, if_pos hvalid]
    refine .inl ?_
    split <;> exact ⟨_, rfl⟩
  | @clear result i hge =>
    have hself : s.duties t = .leads i c.object.id := by
      rw [duties, view_of_find? hc, hpc]
      rfl
    have hle := h.waiters.bound t i _ hself
    rw [State.op, if_pos (by omega)]
    exact .inl ⟨_, rfl⟩
  | write =>
    have hlt := h.writes t c hc
    rw [hpc] at hlt
    rw [State.op, getElem?_eq_getElem hlt]
    exact .inl ⟨_, rfl⟩

theorem Sound.enabled_or_waits (h : s.Sound) (cfg : Config Id) (hc : s.calls.find? t = some c) :
    s.Enabled cfg t ∨ ∃ u, s.WaitsFor t u := by
  by_cases hwaits : ∃ u, s.WaitsFor t u
  · exact .inr hwaits
  refine .inl ⟨c, hc, s.exists_outcome t c.object c.pc, fun op hop => ?_⟩
  simp only [State.step, hc]
  exact (h.op_done cfg hc hop).resolve_right hwaits

theorem Sound.enabled_of_mutex (h : s.Sound) (cfg : Config Id) (hu : s.mutex = some u) :
    s.Enabled cfg u := by
  have hlocked : s.locked u = true := (h.exclusive u).1 hu
  cases hd : s.calls.find? u with
  | none =>
    rw [locked, view_of_none hd] at hlocked
    cases hlocked
  | some d =>
    rw [locked, view_of_find? hd] at hlocked
    refine (h.enabled_or_waits cfg hd).resolve_right fun hwaits => ?_
    obtain ⟨v, hv⟩ := hwaits
    cases hv with
    | mutex hd' henters =>
      cases hd.symm.trans hd'
      rw [locks_of_enters henters] at hlocked
      cases hlocked
    | answer hd' hpc =>
      cases hd.symm.trans hd'
      rw [hpc] at hlocked
      cases hlocked

/-- Every call can go on, or waits for a thread that can. -/
theorem Sound.not_stuck (h : s.Sound) (cfg : Config Id) (hc : s.calls.find? t = some c) :
    ∃ u, Relation.ReflTransGen s.WaitsFor t u ∧ s.Enabled cfg u := by
  have hmutex : ∀ {t u}, s.WaitsFor t u → s.mutex = some u →
      ∃ u, Relation.ReflTransGen s.WaitsFor t u ∧ s.Enabled cfg u :=
    fun hw hu => ⟨_, .single hw, h.enabled_of_mutex cfg hu⟩
  rcases h.enabled_or_waits cfg hc with henabled | ⟨u, hw⟩
  · exact ⟨t, .refl, henabled⟩
  cases hw with
  | mutex hc' henters hu => exact hmutex (.mutex hc' henters hu) hu
  | answer hc' hpc hpipe =>
    have hwaits : s.duties t = .waits u c.object.id := by
      cases hc.symm.trans hc'
      rw [duties, view_of_find? hc, hpc]
      rfl
    rcases h.waiters.answered t u _ hwaits with ⟨i, hleads, -⟩ | ⟨v, hv⟩
    · cases hd : s.calls.find? u with
      | none =>
        rw [duties, view_of_none hd] at hleads
        cases hleads
      | some d =>
        rcases h.enabled_or_waits cfg hd with henabled | ⟨v, hw⟩
        · exact ⟨u, .single (.answer hc' hpc hpipe), henabled⟩
        cases hw with
        | mutex hd' henters hv =>
          exact ⟨v, .tail (.single (.answer hc' hpc hpipe)) (.mutex hd' henters hv),
            h.enabled_of_mutex cfg hv⟩
        | answer hd' hpc' =>
          -- a master does not wait
          rw [duties, view_of_find? hd'] at hleads
          rw [hpc'] at hleads
          cases hleads
    · rw [hpipe] at hv
      cases hv

/-! ## Number of steps -/

/-- The steps a call can make: its own and two for each thread that waits for it. -/
def left (waiting : Nat → List Nat) (t : Nat) (c : Call Id) : Nat :=
  c.pc.rank + 2 * ((waiting t).length - (c.pc.duty c.object.id).passed)

def work (s : State Id) : Nat := s.calls.sum (left s.waiting)

omit [DecidableEq Id] in
theorem work_put {calls : Table Nat (Call Id)} {waiting : Nat → List Nat}
    (hc : calls.find? t = some c) {pc : Pc}
    (h : left waiting t { c with pc } < left waiting t c) :
    (calls.put t { c with pc }).sum (left waiting) < calls.sum (left waiting) := by
  have := sum_put (left waiting) (u := { c with pc }) hc
  omega

theorem work_lt (h : Moves s t c s') (hc : s.calls.find? t = some c) (hs : s.Sound) :
    s'.work < s.work := by
  have hstays : ∀ {pc : Pc}, pc.duty c.object.id = c.pc.duty c.object.id → pc.rank < c.pc.rank →
      (s.calls.put t { c with pc }).sum (left s.waiting) < s.calls.sum (left s.waiting) := by
    intro pc hduty hrank
    refine work_put hc ?_
    simp only [left, hduty]
    omega
  cases h with
  | goto ha | opens ha | starts ha | stops ha => exact hstays ha.duty ha.rank
  | locks _ _ _ hduty _ _ hrank => exact hstays hduty hrank
  | closes hpc | misses hpc | hits hpc => exact hstays (by rw [hpc]; rfl) (by simp [hpc, rank])
  | reads hpc | leads hpc =>
    exact work_put hc (by simp [left, hpc, rank, duty, Duty.passed])
  | @writes result i fdDup u hpc hu =>
    have hlt := (List.getElem?_eq_some_iff.1 hu).1
    have hless : left s.waiting t { c with pc := .dup result (i + 1) } < left s.waiting t c := by
      simp only [left, hpc, rank, duty, Duty.passed]
      omega
    exact work_put hc hless
  | @enqueues master hpc hqueue =>
    obtain ⟨i, hm⟩ := (hs.registered _ _).1 hqueue
    obtain ⟨d, hd, -⟩ := of_leads hm
    have hne : t ≠ master := by
      rintro rfl
      rw [duties, view_of_find? hc, hpc] at hm
      cases hm
    generalize hw : update s.waiting master (s.waiting master ++ [t]) = waiting
    have hput := sum_put (left waiting) (u := { c with pc := .wait master }) hc
    have hmaster := sum_reweigh (w := left s.waiting) (u := left waiting) hd fun u e _ hu => by
      rw [left, left, ← hw, update_of_ne hu]
    have hsame : waiting t = s.waiting t := by rw [← hw, update_of_ne hne]
    have hmore : left waiting master d ≤ left s.waiting master d + 2 := by
      rw [left, left, ← hw, update_self, length_append, length_singleton]
      omega
    have hwork : (s.calls.put t { c with pc := .wait master }).sum (left waiting) <
        s.calls.sum (left s.waiting) := by
      simp only [left, hsame, hpc, rank, duty, Duty.passed] at hput
      omega
    exact hwork
  | @clears result i hpc hi =>
    generalize hw : update s.waiting t [] = waiting
    have hput := sum_put (left waiting) (u := { c with pc := .ret result }) hc
    have hself := sum_reweigh (w := left s.waiting) (u := left waiting) hc fun u e _ hu => by
      rw [left, left, ← hw, update_of_ne hu]
    have hmine : left waiting t { c with pc := .ret result } = 1 := by
      simp [left, ← hw, rank]
    have hold : 2 ≤ left s.waiting t c := by
      simp only [left, hpc, rank]
      omega
    have hwork : (s.calls.put t { c with pc := .ret result }).sum (left waiting) <
        s.calls.sum (left s.waiting) := by omega
    exact hwork
  | returns hpc =>
    have herase := sum_erase (left s.waiting) hc
    have hpos : 0 < left s.waiting t c := by
      simp only [left, hpc, rank]
      omega
    have hwork : (s.calls.erase t).sum (left s.waiting) < s.calls.sum (left s.waiting) := by omega
    exact hwork

/-! ## Guarantees -/

def Downloads (s : State Id) (t : Nat) (id : Id) : Prop :=
  ∃ c, s.calls.find? t = some c ∧ c.object.id = id ∧ (c.pc = .download ∨ c.pc = .downloadFull)

/-- A thread that waits is in the list of the master for its object, or the master has sent
the answer. -/
def Answered (s : State Id) (t m : Nat) (id : Id) : Prop :=
  (∃ i, s.duties m = .leads i id ∧ t ∈ (s.waiting m).drop i ∧ s.pipes t = []) ∨
    ∃ v, s.pipes t = [⟨v, m, id⟩]

/-- Nothing is left behind: the open descriptors are those that callers hold. -/
structure Clean (s : State Id) : Prop where
  queues : s.queues.entries = []
  waiting : ∀ t, s.waiting t = []
  pipes : ∀ t, s.pipes t = []
  txns : s.txns = []
  opened : s.opened.Perm (s.held.map Answer.ref)

structure Served (s : State Id) : Prop where
  single : ∀ t u id, s.Downloads t id → s.Downloads u id → t = u
  once : Numbered s.calls s.returned s.numCalls
  answered : ∀ t m c, s.calls.find? t = some c → c.pc = .wait m → s.Answered t m c.object.id
  own : Accounted (fun r => s.opened.count r) s.held s.calls s.pipes
  unambiguous : Unambiguous s.opened
  delivered : Delivered s.returned s.held s.closed
  clean : s.calls.entries = [] → s.Clean

omit [DecidableEq Id] in
theorem Downloads.leads {id} (h : s.Downloads t id) : s.duties t = .leads 0 id := by
  obtain ⟨c, hc, rfl, hpc⟩ := h
  rw [duties, view_of_find? hc]
  rcases hpc with hpc | hpc <;> rw [hpc] <;> rfl

theorem Sound.clean (h : s.Sound) (hidle : s.calls.entries = []) : s.Clean := by
  have hcalls : s.calls = .empty := by
    obtain ⟨⟨entries, nodup⟩⟩ := s
    cases hidle
    rfl
  have hduties : ∀ t, s.duties t = .idle := by
    intro t
    rw [duties, hcalls]
    rfl
  constructor
  · refine eq_nil_iff_forall_not_mem.2 fun e he => ?_
    obtain ⟨i, hi⟩ := (h.registered e.1 e.2).1 (find?_of_mem he)
    rw [hduties] at hi
    cases hi
  · exact fun t => h.waiters.idle t (by simp [hduties])
  · exact fun t => h.waiters.silent t (by simp [hduties])
  · refine eq_nil_iff_forall_not_mem.2 fun t ht => ?_
    have := (h.transactions.mem t).1 ht
    rw [transacting, hcalls] at this
    cases this
  · refine perm_iff_count.2 fun r => ?_
    have := h.accounted r
    rw [hcalls] at this
    simpa [atHand, inPipes] using this

theorem Sound.served (h : s.Sound) : s.Served := by
  refine ⟨fun t u id ht hu => ?_, h.numbered, fun t m c hc hpc => ?_, h.accounted, h.unambiguous,
    h.delivered, h.clean⟩
  · have ht := (h.registered id t).2 ⟨0, ht.leads⟩
    have hu := (h.registered id u).2 ⟨0, hu.leads⟩
    exact Option.some.inj (ht.symm.trans hu)
  have hwaits : s.duties t = .waits m c.object.id := by
    rw [duties, view_of_find? hc, hpc]
    rfl
  refine (h.waiters.answered t m _ hwaits).imp_left fun hpending => ?_
  obtain ⟨i, hm, hmem⟩ := hpending
  refine ⟨i, hm, hmem, ?_⟩
  exact (h.waiters.pending m i _ hm t hmem).2

/-- What the next event does to the number of steps that are left. -/
def Bounded (s s' : State Id) : Event Id → Prop
  | .fetch .. => s'.work ≤ s.work + probe.rank
  | .op .. => s'.work < s.work
  | .release _ => s'.work = s.work

theorem Sound.bounded (h : s.Sound) {e} (hstep : s.step cfg e = some s') : s.Bounded s' e := by
  cases e with
  | fetch t object =>
    obtain ⟨ht, ⟨⟩⟩ := Option.ite_none_right_eq_some.1 hstep
    have hidle : s.waiting t = [] := h.waiters.idle t fun i id hi => by
      rw [duties, view_of_none ht] at hi
      cases hi
    have hput := sum_put_of_none (v := ⟨s.numCalls, object, .probe⟩) (left s.waiting) ht
    have hmine : left s.waiting t ⟨s.numCalls, object, .probe⟩ = probe.rank := by
      simp [left, hidle]
    have hwork : (s.calls.put t ⟨s.numCalls, object, .probe⟩).sum (left s.waiting) ≤
        s.calls.sum (left s.waiting) + probe.rank := by omega
    exact hwork
  | op t op =>
    simp only [State.step] at hstep
    split at hstep
    · cases hstep
    next c hc => exact work_lt (moves_of_op hstep) hc h
  | release i =>
    simp only [State.step] at hstep
    split at hstep
    · cases hstep
    · cases hstep
      exact rfl

end State

/-- In every interleaving, with any outcome of the cache and of downloads: what callers get
and what is left open, and each running call can go on or waits for a thread that can, where
a call brings at most fifteen steps and each operation uses one of them up. -/
theorem fetch_served {cfg : Config Id} {s : State Id} (h : (fetcher cfg).Reach System.anyStep s) :
    s.Served ∧ (∀ t c, s.calls.find? t = some c →
        ∃ u, Relation.ReflTransGen s.WaitsFor t u ∧ s.Enabled cfg u) ∧
      ∀ e s', s.step cfg e = some s' → s.Bounded s' e :=
  have hs := sound_of_reach h
  ⟨hs.served, fun _ _ hc => hs.not_stuck cfg hc, fun _ _ hstep => hs.bounded hstep⟩

def sharedDownload : List (Event Nat) :=
  [.fetch 0 { id := 7 }, .op 0 (.openSelect .open (-2)), .op 0 .lock, .op 0 .find,
    .op 0 (.openSelect .open (-2)), .fetch 1 { id := 7 }, .op 1 (.openSelect .open (-2)),
    .op 1 .lock, .op 1 .find, .op 0 (.startTxn 0), .op 0 (.fetch .ok 200),
    .op 0 (.openFromTxn 3), .op 0 (.commitTxn 0), .op 0 .lock, .op 0 (.dup 4), .op 0 .writePipe,
    .op 0 .clear, .op 1 .readPipe, .op 0 .ret, .op 1 .ret]

theorem fetch_served_sharedDownload : ∃ s, (fetcher ⟨(· == 0), false⟩).Reach System.anyStep s ∧
      s.returned = [⟨1, 7, 4⟩, ⟨0, 7, 3⟩] ∧ s.Clean := by
  have hrun : sharedDownload.foldlM (step ⟨(· == 0), false⟩) {} = some _ := rfl
  have hreach := System.Reach.follow (S := fetcher ⟨(· == 0), false⟩) (fun _ _ _ h => h)
    (.init rfl) hrun
  exact ⟨_, hreach, rfl, (fetch_served hreach).1.clean rfl⟩

end Cvmfs.Fetch
