import Cvmfs.Fetch.Descriptors

/-! # The invariant of the fetcher

Every operation keeps what the mutex, the queues, the lists and the descriptors mean. -/

namespace Cvmfs.Fetch

open Lib (System)
open Function Lib.Table List State

variable {Id : Type} [DecidableEq Id]

namespace State

def locked (s : State Id) : Nat → Bool := s.calls.view (·.pc.locks) false

def duties (s : State Id) : Nat → Duty Id := s.calls.view (fun c => c.pc.duty c.object.id) .idle

def transacting (s : State Id) : Nat → Bool := s.calls.view (·.pc.inTxn) false

section

omit [DecidableEq Id]
variable (s : State Id) (t : Nat) (c : Call Id) (pc : Pc)

theorem locked_goto : (s.goto t c pc).locked = update s.locked t pc.locks := view_put ..

theorem duties_goto : (s.goto t c pc).duties = update s.duties t (pc.duty c.object.id) :=
  view_put ..

theorem transacting_goto : (s.goto t c pc).transacting = update s.transacting t pc.inTxn :=
  view_put ..

variable {s} {m u : Nat} {id : Id}

theorem of_waits (h : s.duties u = .waits m id) :
    ∃ d, s.calls.find? u = some d ∧ d.object.id = id ∧ d.pc = .wait m := by
  cases hd : s.calls.find? u with
  | none =>
    rw [duties, view_of_none hd] at h
    cases h
  | some d =>
    have hduty : s.duties u = d.pc.duty d.object.id := view_of_find? hd
    rw [hduty] at h
    cases hpc : d.pc with
    | wait master =>
      rw [hpc] at h
      cases h
      exact ⟨d, rfl, rfl, hpc⟩
    | _ =>
      rw [hpc] at h
      cases h

theorem of_leads (h : s.duties u = .leads m id) :
    ∃ d, s.calls.find? u = some d ∧ d.pc.duty d.object.id = .leads m id := by
  cases hd : s.calls.find? u with
  | none =>
    rw [duties, view_of_none hd] at h
    cases h
  | some d => exact ⟨d, rfl, (view_of_find? hd).symm.trans h⟩

end

structure Sound (s : State Id) : Prop where
  exclusive : Exclusive s.locked s.mutex
  registered : Registered s.duties s.queues
  missed : ∀ t c, s.calls.find? t = some c → c.pc = .recheck → s.queues.find? c.object.id = none
  transactions : Transacting s.transacting s.txns
  waiters : Waiters s.duties s.waiting s.pipes
  writes : ∀ t c, s.calls.find? t = some c → c.pc.Writes (s.waiting t)
  accounted : Accounted (fun r => s.opened.count r) s.held s.calls s.pipes
  unambiguous : Unambiguous s.opened
  numbered : Numbered s.calls s.returned s.numCalls
  delivered : Delivered s.returned s.held s.closed

end State

/-! ## Steps -/

namespace Moves

variable {s s' : State Id} {t : Nat} {c : Call Id}

section

variable (h : Moves s t c s') (hc : s.calls.find? t = some c)
include h hc

theorem exclusive (hs : Exclusive s.locked s.mutex) : Exclusive s'.locked s'.mutex := by
  have hself : s.locked t = c.pc.locks := view_of_find? hc
  have hkeep : ∀ {pc : Pc}, pc.locks = c.pc.locks →
      Exclusive (update s.locked t pc.locks) s.mutex := by
    intro pc hpc
    rwa [hpc, ← hself, update_eq_self]
  cases h with
  | goto ha | opens ha | starts ha | stops ha =>
    rw [locked_goto]
    exact hkeep ha.locks
  | closes hpc | misses hpc | reads hpc | writes hpc =>
    rw [locked_goto]
    exact hkeep (by rw [hpc]; rfl)
  | enqueues hpc | hits hpc | leads hpc | clears hpc =>
    rw [locked_goto]
    exact hs.release (by rw [hself, hpc]; rfl)
  | locks hnone _ hlocks =>
    rw [locked_goto, hlocks]
    exact (hnone ▸ hs).acquire t
  | returns hpc =>
    rw [locked, view_erase_same hc (by rw [hpc]; rfl)]
    exact hs

theorem registered (hs : Registered s.duties s.queues)
    (hmissed : c.pc = .recheck → s.queues.find? c.object.id = none) :
    Registered s'.duties s'.queues := by
  have hself : s.duties t = c.pc.duty c.object.id := view_of_find? hc
  have hkeep : ∀ {pc : Pc}, (∀ id, (∃ i, pc.duty c.object.id = .leads i id) ↔
      ∃ i, c.pc.duty c.object.id = .leads i id) →
      Registered (update s.duties t (pc.duty c.object.id)) s.queues :=
    fun hpc => hs.relabel (hself ▸ hpc)
  cases h with
  | goto ha | opens ha | starts ha | stops ha =>
    rw [duties_goto]
    exact hkeep (by simp [ha.duty])
  | locks _ _ _ hduty =>
    rw [duties_goto]
    exact hkeep (by simp [hduty])
  | closes hpc | misses hpc | enqueues hpc | reads hpc | hits hpc | writes hpc =>
    rw [duties_goto]
    exact hkeep (by simp [hpc, Pc.duty])
  | leads hpc =>
    rw [duties_goto]
    exact hs.leads (hmissed hpc) (by rw [hself, hpc]; rfl)
  | @clears result i hpc =>
    rw [duties_goto]
    exact hs.clears (i := i) (by rw [hself, hpc]; rfl)
  | returns hpc =>
    rw [duties, view_erase_same hc (by rw [hpc]; rfl)]
    exact hs

theorem waiters (hr : Registered s.duties s.queues) (hs : Waiters s.duties s.waiting s.pipes) :
    Waiters s'.duties s'.waiting s'.pipes := by
  have hself : s.duties t = c.pc.duty c.object.id := view_of_find? hc
  have hkeep : ∀ {pc : Pc}, pc.duty c.object.id = c.pc.duty c.object.id →
      Waiters (update s.duties t (pc.duty c.object.id)) s.waiting s.pipes := by
    intro pc hpc
    rwa [hpc, ← hself, update_eq_self]
  cases h with
  | goto ha | opens ha | starts ha | stops ha =>
    rw [duties_goto]
    exact hkeep ha.duty
  | locks _ _ _ hduty =>
    rw [duties_goto]
    exact hkeep hduty
  | closes hpc | misses hpc | hits hpc =>
    rw [duties_goto]
    exact hkeep (by rw [hpc]; rfl)
  | enqueues hpc hqueue =>
    obtain ⟨i, hm⟩ := (hr _ _).1 hqueue
    rw [duties_goto]
    exact hs.enqueues (by rw [hself, hpc]; rfl) hm
  | reads hpc hpipe =>
    rw [hpc] at hself
    rw [duties_goto]
    exact (hs.reads hself hpipe).2.2
  | leads hpc =>
    rw [duties_goto]
    exact hs.leads (by rw [hself, hpc]; rfl) c.object.id
  | writes hpc hu =>
    rw [hpc] at hself
    rw [duties_goto]
    exact hs.writes hself hu _
  | clears hpc hi =>
    rw [hpc] at hself
    rw [duties_goto]
    exact hs.clears hself hi
  | returns hpc =>
    rw [duties, view_erase_same hc (by rw [hpc]; rfl)]
    exact hs

end

section

variable (h : Moves s t c s')
include h

theorem writable (hs : ∀ t c, s.calls.find? t = some c → c.pc.Writes (s.waiting t)) :
    ∀ u d, s'.calls.find? u = some d → d.pc.Writes (s'.waiting u) := by
  have hput : ∀ {pc : Pc} {waiting : Nat → List Nat}, pc.Writes (waiting t) →
      (∀ u, u ≠ t → (s.waiting u).length ≤ (waiting u).length) → ∀ u d,
      (s.calls.put t { c with pc }).find? u = some d → d.pc.Writes (waiting u) := by
    intro pc waiting hpc hle u d hu
    rcases of_put hu with ⟨rfl, rfl⟩ | ⟨hne, hu⟩
    · exact hpc
    · exact (hs u d hu).mono (hle u hne)
  have hkeep : ∀ {pc : Pc}, pc.Writes (s.waiting t) → ∀ u d,
      (s.calls.put t { c with pc }).find? u = some d → d.pc.Writes (s.waiting u) :=
    fun hpc => hput hpc fun _ _ => Nat.le_refl _
  cases h with
  | goto ha | opens ha | starts ha | stops ha => exact hkeep ha.writes
  | locks _ _ _ _ _ _ _ _ hpc => exact hkeep hpc
  | closes | misses | reads | hits | leads | writes => exact hkeep trivial
  | @enqueues master hpc =>
    have hle : ∀ u, (s.waiting u).length ≤
        (update s.waiting master (s.waiting master ++ [t]) u).length := by
      intro u
      by_cases hu : u = master
      · rw [hu, update_self, length_append]
        exact Nat.le_add_right _ _
      · rw [update_of_ne hu]
    exact hput trivial fun u _ => hle u
  | clears hpc =>
    have hle : ∀ u, u ≠ t → (s.waiting u).length ≤ (update s.waiting t [] u).length := by
      intro u hu
      rw [update_of_ne hu]
    exact hput trivial hle
  | returns => exact fun u d hu => hs u d (of_erase hu).2

section

variable (hc : s.calls.find? t = some c)
include hc

theorem missed (he : Exclusive s.locked s.mutex)
    (hs : ∀ t c, s.calls.find? t = some c → c.pc = .recheck → s.queues.find? c.object.id = none) :
    ∀ u d, s'.calls.find? u = some d → d.pc = .recheck → s'.queues.find? d.object.id = none := by
  have hkeep : ∀ {pc : Pc}, pc ≠ .recheck → ∀ u d,
      (s.calls.put t { c with pc }).find? u = some d → d.pc = .recheck →
        s.queues.find? d.object.id = none := by
    intro pc hpc u d hu hd
    rcases of_put hu with ⟨-, rfl⟩ | ⟨-, hu⟩
    · exact absurd hd hpc
    · exact hs u d hu hd
  cases h with
  | goto ha | opens ha | starts ha | stops ha => exact hkeep ha.miss
  | locks _ _ _ _ _ _ _ hmiss _ => exact hkeep hmiss
  | closes | enqueues | reads | hits | writes => exact hkeep (by simp)
  | misses _ hnone =>
    intro u d hu hd
    rcases of_put hu with ⟨-, rfl⟩ | ⟨-, hu⟩
    · exact hnone
    · exact hs u d hu hd
  | leads hpc =>
    intro u d hu hd
    rcases of_put hu with ⟨-, rfl⟩ | ⟨hne, hu⟩
    · cases hd
    -- two threads would be in the critical section
    have ht : s.mutex = some t := (he t).2 ((view_of_find? hc).trans (by rw [hpc]; rfl))
    have hu : s.mutex = some u := (he u).2 ((view_of_find? hu).trans (by rw [hd]; rfl))
    exact absurd (Option.some.inj (hu.symm.trans ht)) hne
  | clears =>
    intro u d hu hd
    have := hkeep (by simp) u d hu hd
    rw [State.goto, find?_erase]
    split
    · rfl
    · exact this
  | returns =>
    intro u d hu hd
    exact hs u d (of_erase hu).2 hd

theorem transactions (hs : Transacting s.transacting s.txns) :
    Transacting s'.transacting s'.txns := by
  have hself : s.transacting t = c.pc.inTxn := view_of_find? hc
  have hkeep : ∀ {pc : Pc}, pc.inTxn = c.pc.inTxn →
      Transacting (update s.transacting t pc.inTxn) s.txns := by
    intro pc hpc
    rwa [hpc, ← hself, update_eq_self]
  cases h with
  | goto _ htxn | opens _ htxn | locks _ _ _ _ htxn =>
    rw [transacting_goto]
    exact hkeep htxn
  | closes hpc | misses hpc | enqueues hpc | reads hpc | hits hpc | leads hpc | writes hpc
  | clears hpc =>
    rw [transacting_goto]
    exact hkeep (by rw [hpc]; rfl)
  | starts _ hout hin =>
    rw [transacting_goto, hin]
    exact hs.start (hself.trans hout)
  | stops _ hin hout =>
    rw [transacting_goto, hout]
    exact hs.stop t
  | returns hpc =>
    rw [transacting, view_erase_same hc (by rw [hpc]; rfl)]
    exact hs

theorem accounted (hw : Waiters s.duties s.waiting s.pipes)
    (hs : Accounted (fun r => s.opened.count r) s.held s.calls s.pipes) :
    Accounted (fun r => s'.opened.count r) s'.held s'.calls s'.pipes := by
  have hself : s.duties t = c.pc.duty c.object.id := view_of_find? hc
  have hkeep : ∀ {pc : Pc}, refs c.object.id pc.fds = refs c.object.id c.pc.fds →
      Accounted (fun r => s.opened.count r) s.held (s.calls.put t { c with pc }) s.pipes :=
    fun hpc => hs.put hc fun r => by rw [hpc]
  have hopen : ∀ {pc : Pc} {fd : Int}, pc.fds = fd :: c.pc.fds →
      Accounted (fun r => (refs c.object.id [fd] ++ s.opened).count r) s.held
        (s.calls.put t { c with pc }) s.pipes := by
    intro pc fd hpc
    refine hs.put hc fun r => ?_
    rw [hpc, refs_cons _ fd c.pc.fds, count_append, count_append]
    omega
  cases h with
  | goto _ _ hfds | starts _ _ _ hfds | stops _ _ _ hfds => exact hkeep hfds
  | locks _ _ _ _ _ hfds => exact hkeep (by rw [hfds])
  | misses hpc | enqueues hpc | leads hpc | clears hpc => exact hkeep (by rw [hpc]; rfl)
  | opens _ _ _ hfds => exact hopen hfds
  | hits hpc => exact hopen (by rw [hpc]; rfl)
  | @closes fd result hpc =>
    have hfds : refs c.object.id c.pc.fds =
        ((fd : Int), c.object.id) :: refs c.object.id [result] := by
      rw [hpc]
      simp [Pc.fds, refs, filter_cons]
    have hclosed : Accounted (fun r => (s.opened.erase ((fd : Int), c.object.id)).count r) s.held
        (s.calls.put t { c with pc := .signal result }) s.pipes := by
      refine hs.put hc fun r => ?_
      have hle := hs.le hc r
      rw [hfds, count_cons] at hle ⊢
      rw [count_erase, Pc.fds]
      omega
    exact hclosed
  | @reads master reply rest hpc hpipe =>
    rw [hpc] at hself
    obtain ⟨rfl, -, -⟩ := hw.reads hself hpipe
    have hle := hs.pipe_le hc
    rw [hpipe] at hle
    have htaken : Accounted (fun r => s.opened.count r - (refs c.object.id [reply.value]).count r)
        s.held s.calls (update s.pipes t []) := by
      refine hs.pipe hc fun r => ?_
      rw [hpipe]
      exact Nat.sub_add_cancel (hle r)
    refine htaken.put hc fun r => ?_
    rw [hpc]
    exact (Nat.sub_add_cancel (hle r)).symm
  | @writes result i fdDup u hpc hu =>
    rw [hpc] at hself
    obtain ⟨hwaits, hempty⟩ := hw.next hself hu
    obtain ⟨d, hd, hid, -⟩ := of_waits hwaits
    have hne : u ≠ t := by
      rintro rfl
      rw [hself] at hwaits
      cases hwaits
    have hd' : (s.calls.put t { c with pc := .dup result (i + 1) }).find? u = some d := by
      rw [find?_put, if_neg hne, hd]
    have hfds : refs c.object.id c.pc.fds = refs c.object.id [fdDup] ++ refs c.object.id [result] := by
      rw [hpc]
      exact refs_cons _ _ _
    have hle : ∀ r, (refs c.object.id [fdDup]).count r ≤ s.opened.count r := by
      intro r
      have := hs.le hc r
      rw [hfds, count_append] at this
      omega
    have hgiven : Accounted (fun r => s.opened.count r - (refs c.object.id [fdDup]).count r)
        s.held (s.calls.put t { c with pc := .dup result (i + 1) }) s.pipes := by
      refine hs.put hc fun r => ?_
      have := hle r
      rw [hfds, count_append]
      simp only [Pc.fds]
      omega
    refine hgiven.pipe hd' fun r => ?_
    rw [hempty, hid]
    exact (Nat.sub_add_cancel (hle r)).symm
  | returns hpc =>
    have hpipe : s.pipes t = [] := hw.silent t (by simp [hself, hpc, Pc.duty])
    refine hs.erase hc hpipe fun r => ?_
    rw [hpc]
    split
    next hpos => simp [Pc.fds, refs, hpos, Answer.ref, count_cons]
    next hneg => simp [Pc.fds, refs, hneg]

omit hc in
theorem unambiguous (hs : Unambiguous s.opened) : Unambiguous s'.opened := by
  cases h with
  | opens _ _ hvalid | hits _ hvalid => exact hs.opening hvalid
  | closes => exact hs.erase _
  | _ => exact hs

theorem numbered (hs : Numbered s.calls s.returned s.numCalls) :
    Numbered s'.calls s'.returned s'.numCalls := by
  cases h with
  | returns => exact hs.returns hc _ _
  | _ => exact hs.put hc _

end

theorem delivered (hs : Delivered s.returned s.held s.closed) :
    Delivered s'.returned s'.held s'.closed := by
  cases h with
  | returns => exact hs.returns ⟨c.number, c.object.id, _⟩
  | _ => exact hs

theorem sound (hc : s.calls.find? t = some c) (hs : s.Sound) : s'.Sound where
  exclusive := h.exclusive hc hs.exclusive
  registered := h.registered hc hs.registered (hs.missed t c hc)
  missed := h.missed hc hs.exclusive hs.missed
  transactions := h.transactions hc hs.transactions
  waiters := h.waiters hc hs.registered hs.waiters
  writes := h.writable hs.writes
  accounted := h.accounted hc hs.waiters hs.accounted
  unambiguous := h.unambiguous hs.unambiguous
  numbered := h.numbered hc hs.numbered
  delivered := h.delivered hs.delivered

end

end Moves

namespace State

variable {s : State Id}

def begun (s : State Id) (t : Nat) (object : LabeledObject Id) : State Id := { s with
  calls := s.calls.put t ⟨s.numCalls, object, .probe⟩
  numCalls := s.numCalls + 1 }

theorem Sound.begun (h : s.Sound) {t} (ht : s.calls.find? t = none) (object : LabeledObject Id) :
    (s.begun t object).Sound := by
  have hlocked : (s.begun t object).locked = s.locked := view_put_new ht rfl
  have hduties : (s.begun t object).duties = s.duties := view_put_new ht rfl
  have htxns : (s.begun t object).transacting = s.transacting := view_put_new ht rfl
  have hpipe : s.pipes t = [] := by
    refine h.waiters.silent t fun m id hduty => ?_
    rw [duties, view_of_none ht] at hduty
    cases hduty
  constructor
  · rw [hlocked]
    exact h.exclusive
  · rw [hduties]
    exact h.registered
  · intro u d hu hd
    rcases of_put hu with ⟨-, rfl⟩ | ⟨-, hu⟩
    · cases hd
    · exact h.missed u d hu hd
  · rw [htxns]
    exact h.transactions
  · rw [hduties]
    exact h.waiters
  · intro u d hu
    rcases of_put hu with ⟨-, rfl⟩ | ⟨-, hu⟩
    · trivial
    · exact h.writes u d hu
  · exact h.accounted.new ht hpipe rfl
  · exact h.unambiguous
  · exact h.numbered.new ht rfl
  · exact h.delivered

theorem Sound.release (h : s.Sound) {i a} (ha : s.held[i]? = some a) :
    Sound { s with
      held := s.held.eraseIdx i
      closed := a :: s.closed
      opened := s.opened.erase (a.result, a.id) } := by
  refine { h with
    accounted := fun r => ?_
    unambiguous := h.unambiguous.erase _
    delivered := h.delivered.release ha }
  obtain ⟨hi, rfl⟩ := List.getElem?_eq_some_iff.1 ha
  have hheld := ((getElem_cons_eraseIdx_perm hi).map Answer.ref).count_eq r
  have hopened : s.opened.count r = _ := h.accounted r
  rw [map_cons, count_cons] at hheld
  have hclosed : (s.opened.erase s.held[i].ref).count r =
      ((s.held.eraseIdx i).map Answer.ref).count r + atHand s.calls r +
        inPipes s.calls s.pipes r := by
    rw [count_erase]
    omega
  exact hclosed

theorem Sound.init : Sound ({} : State Id) := by
  refine ⟨?_, ?_, ?_, ?_, ?_, ?_, ?_, ?_, ?_, ?_⟩
  · intro t
    simp [locked, view]
  · intro id t
    simp [duties, view]
  · intro t c h
    simp at h
  · exact ⟨nodup_nil, by simp [transacting, view]⟩
  · constructor <;> simp [duties, view]
  · intro t c h
    simp at h
  · intro r
    simp [atHand, inPipes]
  · intro r hr
    cases hr
  · intro n
    simp [running]
  · exact Perm.refl _

theorem Sound.step (h : s.Sound) {cfg e s'} (hstep : s.step cfg e = some s') : s'.Sound := by
  cases e with
  | fetch t object =>
    obtain ⟨ht, ⟨⟩⟩ := Option.ite_none_right_eq_some.1 hstep
    exact h.begun ht object
  | op t op =>
    simp only [State.step] at hstep
    split at hstep
    · cases hstep
    next c hc => exact (moves_of_op hstep).sound hc h
  | release i =>
    simp only [State.step] at hstep
    split at hstep
    · cases hstep
    next a ha =>
      cases hstep
      exact h.release ha

theorem sound_of_reach {cfg} (h : (fetcher cfg).Reach System.anyStep s) : s.Sound :=
  h.invariant (fun _ hinit => hinit ▸ Sound.init) fun _ _ _ hs _ hstep => hs.step hstep

end State

end Cvmfs.Fetch
