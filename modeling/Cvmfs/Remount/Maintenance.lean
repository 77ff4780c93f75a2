import Cvmfs.Remount.Fences

/-! # Counters and the maintenance mode

What a step keeps of the counters and of the maintenance mode, if no thread enters a fence
that was closed after its test and the maintenance fence is not closed while `ChangeRoot`
may enter it a second time. -/

namespace Cvmfs.Remount

open Nat Pc
open Lib.Table

variable {Hash : Type}

/-! ## First places -/

namespace Method

variable (m : Method Hash)

theorem begin_counts : m.begin.inMaintenance = 0 ∧ m.begin.inFence = 0 ∧
    m.begin.inCritical = 0 ∧ m.begin.closes = 0 ∧ m.begin.starts = 0 := by
  cases m with
  | callback tryFinish => cases tryFinish <;> exact ⟨rfl, rfl, rfl, rfl, rfl⟩
  | _ => exact ⟨rfl, rfl, rfl, rfl, rfl⟩

theorem begin_flags : m.begin.finishes = false ∧ m.begin.evicted = false ∧
    m.begin.deep = false ∧ m.begin.nests = false := by
  cases m with
  | callback tryFinish => cases tryFinish <;> exact ⟨rfl, rfl, rfl, rfl⟩
  | _ => exact ⟨rfl, rfl, rfl, rfl⟩

theorem begin_maintain {m : Method Hash} {p} (h : m.begin = .maintain p) : p = .close := by
  cases m with
  | callback tryFinish => cases tryFinish <;> cases h
  | enterMaintenanceMode => exact (maintain.inj h).symm
  | _ => cases h

theorem begin_ne (u : Updater Hash) : .update u .reset ≠ m.begin ∧
    .update u .request ≠ m.begin ∧ .update u .advance ≠ m.begin := by
  cases m with
  | callback tryFinish => cases tryFinish <;> simp [begin]
  | _ => simp [begin]

end Method

variable {sh sh' : Shared Hash} {pc d : Pc Hash} {pc' : Option (Pc Hash)}

theorem Runs.drainout_cases (h : Runs sh pc sh' pc') :
    sh'.drainout = sh.drainout ∨ (sh.drainout = 0 ∧ sh'.drainout = 1) ∨
      (0 < pc.starts ∧ sh'.drainout = sh.drainout + 1) ∨
      (pc.finishes = true ∧ sh'.drainout = sh.drainout - 2) := by
  cases h with
  | start hzero => exact .inr (.inl ⟨hzero, rfl⟩)
  | checkAdvance | rootAdvance => exact .inr (.inr (.inl ⟨zero_lt_one, rfl⟩))
  | endDrainout => exact .inr (.inr (.inr ⟨rfl, rfl⟩))
  | _ => exact .inl rfl

theorem Runs.finishes (h : Runs sh pc sh' pc') (hd : holds finishes pc' = true) :
    sh'.drainout = sh.drainout ∧ (pc.finishes = true ∨ sh.drainout = 2) := by
  cases h with
  | draining htwo => exact ⟨rfl, .inr htwo⟩
  | done | close | undrained | drained | replace | reopen => exact ⟨rfl, .inl rfl⟩
  | @leave k => cases k <;> cases hd
  | updateLeave => rw [holds_afterLeave rfl] at hd; cases hd
  | _ => cases hd

namespace State

variable {s : State Hash} {t u : Nat}

/-! ## Threads -/

def total (s : State Hash) (f : Pc Hash → Nat) : Nat := s.calls.sum fun _ pc => f pc

theorem of_move (h : (s.move t sh' pc').calls.find? u = some d) :
    (u = t ∧ pc' = some d) ∨ (u ≠ t ∧ s.calls.find? u = some d) := by
  cases pc' with
  | none => exact .inr (of_erase h)
  | some pc' =>
    rcases of_put h with ⟨hu, rfl⟩ | h
    · exact .inl ⟨hu, rfl⟩
    · exact .inr h

theorem find?_move (hu : s.calls.find? u = some d) (hne : u ≠ t) :
    (s.move t sh' pc').calls.find? u = some d := by
  cases pc' with
  | none => exact (find?_erase ..).trans ((if_neg hne).trans hu)
  | some pc' => exact (find?_put_of_ne hne).trans hu

theorem find?_move_self : (s.move t sh' (some d)).calls.find? t = some d :=
  find?_put_self

@[simp] theorem shared_move : (s.move t sh' pc').shared = sh' := by
  cases pc' <;> rfl

section

variable (h : s.calls.find? t = some pc)
include h

theorem total_move (sh' : Shared Hash) (pc' : Option (Pc Hash)) (f : Pc Hash → Nat) :
    (s.move t sh' pc').total f + f pc = s.total f + weigh f pc' := by
  cases pc' with
  | none =>
    have := sum_erase (fun _ pc => f pc) h
    exact (add_comm _ _).trans this
  | some pc' =>
    have := sum_put (fun _ pc => f pc) (u := pc') h
    exact (add_comm _ _).trans (this.trans (add_comm _ _))

theorem le_total (f : Pc Hash → Nat) : f pc ≤ s.total f := by
  have := sum_erase (fun _ pc => f pc) h
  simp only [total]
  omega

theorem add_le_total (hu : s.calls.find? u = some d)
    (hne : u ≠ t) (f : Pc Hash → Nat) : f pc + f d ≤ s.total f := by
  have hsum := sum_erase (fun _ pc => f pc) h
  have hd : (s.calls.erase t).find? u = some d := by
    rw [find?_erase, if_neg hne, hu]
  have hle := sum_erase (fun _ pc => f pc) hd
  simp only [total]
  omega

end

theorem exists_of_total_pos {f} (h : 0 < s.total f) :
    ∃ t pc, s.calls.find? t = some pc ∧ 0 < f pc := by
  by_contra hnone
  have hzero : s.total f = s.calls.sum fun _ _ => 0 := by
    refine sum_congr fun t pc hpc => ?_
    by_contra hne
    exact hnone ⟨t, pc, hpc, pos_of_ne_zero hne⟩
  have : (s.calls.sum fun _ _ => 0) = 0 := by simp [sum]
  omega

/-! ## Counters -/

/-- The counters and flags count threads. -/
structure Counts (s : State Hash) : Prop where
  maintenance : s.shared.fenceMaintenance.counter = s.total inMaintenance
  fence : s.shared.fence.counter = s.total inFence
  critical : s.shared.critical = s.total inCritical
  one : s.shared.critical ≤ 1
  closed : s.shared.fence.blocking.toNat = s.total closes
  starts : (if s.shared.drainout = 1 then 1 else 0) = s.total starts
  finishes : ∀ t pc, s.calls.find? t = some pc → pc.finishes = true → s.shared.drainout = 2
  drainout : s.shared.drainout ≤ 2

namespace Counts

section

variable (h : s.Counts) (ht : s.calls.find? t = some pc)
include h ht

theorem alone (hu : s.calls.find? u = some d) (hpc : pc.inCritical = 1) (hd : d.inCritical = 1) :
    u = t := by
  by_contra hne
  have := add_le_total ht hu hne inCritical
  have := h.critical
  have := h.one
  omega

theorem drainout_of_starts (hpc : 0 < pc.starts) : s.shared.drainout = 1 := by
  have := le_total ht Pc.starts
  have := h.starts
  by_contra hne
  rw [if_neg hne] at this
  omega

theorem blocking_of_closes (hpc : 0 < pc.closes) : s.shared.fence.blocking = true := by
  have := le_total ht closes
  have := h.closed
  cases hb : s.shared.fence.blocking with
  | true => rfl
  | false =>
    rw [hb] at this
    simp only [Bool.toNat_false] at this
    omega

end

theorem open_of_close (h : s.Counts) {k} (ht : s.calls.find? t = some (.finish k .close)) :
    s.shared.fence.blocking = false := by
  cases hb : s.shared.fence.blocking with
  | false => rfl
  | true =>
    have hclosed := h.closed
    rw [hb] at hclosed
    obtain ⟨u, d, hu, hd⟩ := exists_of_total_pos (f := closes) (s := s) (by
      rw [← hclosed]
      exact zero_lt_one)
    have hcrit : d.inCritical = 1 := by
      cases d with
      | finish k f => cases f <;> first | rfl | cases hd
      | _ => cases hd
    have := h.alone ht hu rfl hcrit
    subst this
    rw [ht] at hu
    cases hu
    cases hd

end Counts

theorem Counts.move (h : s.Counts) (ht : s.calls.find? t = some pc)
    (hr : Runs s.shared pc sh' pc') : (s.move t sh' pc').Counts := by
  have hstarts : 0 < pc.starts → s.shared.drainout = 1 := h.drainout_of_starts ht
  have hfinishes := h.finishes t pc ht
  constructor
  · have := hr.counterMaintenance (h.maintenance ▸ le_total ht _)
    have := total_move ht sh' pc' inMaintenance
    have := h.maintenance
    rw [shared_move]
    omega
  · have := hr.counterFence (h.fence ▸ le_total ht _)
    have := total_move ht sh' pc' inFence
    have := h.fence
    rw [shared_move]
    omega
  · have := hr.counterCritical (h.critical ▸ le_total ht _)
    have := total_move ht sh' pc' inCritical
    have := h.critical
    rw [shared_move]
    omega
  · have := h.one
    rw [shared_move]
    cases hr with
    | acquire => exact le_refl _
    | release => exact le_trans (sub_le _ _) this
    | _ => exact this
  · have hopen : (∃ k, pc = .finish k .close) → s.shared.fence.blocking = false := by
      rintro ⟨k, rfl⟩
      exact h.open_of_close ht
    have := hr.counterClosed hopen (h.blocking_of_closes ht)
    have := total_move ht sh' pc' closes
    have := h.closed
    rw [shared_move]
    omega
  · have := hr.counterStarts hstarts hfinishes
    have := total_move ht sh' pc' Pc.starts
    have := h.starts
    rw [shared_move]
    omega
  · intro u d hu hd
    rw [shared_move]
    rcases of_move hu with ⟨-, rfl⟩ | ⟨hne, hu⟩
    · obtain ⟨hsame, hcase⟩ := hr.finishes hd
      exact hsame.trans (hcase.elim hfinishes id)
    have htwo := h.finishes u d hu hd
    rcases hr.drainout_cases with heq | ⟨hzero, -⟩ | ⟨hpos, -⟩ | ⟨hfin, -⟩
    · exact heq.trans htwo
    · omega
    · have := hstarts hpos
      omega
    · exact absurd (h.alone ht hu (inCritical_of_finishes hfin) (inCritical_of_finishes hd)) hne
  rw [shared_move]
  have := h.drainout
  rcases hr.drainout_cases with heq | ⟨-, hone⟩ | ⟨hpos, hsucc⟩ | ⟨-, hsub⟩
  · omega
  · omega
  · have := hstarts hpos
    omega
  · omega

theorem total_call (h : s.calls.find? t = none) (sh : Shared Hash) (pc : Pc Hash)
    (f : Pc Hash → Nat) : (s.move t sh (some pc)).total f = f pc + s.total f :=
  sum_put_of_none (fun _ pc => f pc) h

theorem of_call {m : Method Hash}
    (hu : (s.move t s.shared (some m.begin)).calls.find? u = some d) (hne : d ≠ m.begin) :
    s.calls.find? u = some d := by
  rcases of_move hu with ⟨-, hd⟩ | ⟨-, hu⟩
  · exact absurd (Option.some.inj hd).symm hne
  · exact hu

theorem Counts.call (h : s.Counts) (ht : s.calls.find? t = none) (m : Method Hash) :
    (s.move t s.shared (some m.begin)).Counts := by
  obtain ⟨hmaintenance, hfence, hcritical, hcloses, hstarts⟩ := m.begin_counts
  have hcount : ∀ f : Pc Hash → Nat, f m.begin = 0 →
      (s.move t s.shared (some m.begin)).total f = s.total f := by
    intro f hf
    rw [total_call ht, hf, zero_add]
  refine ⟨?_, ?_, ?_, h.one, ?_, ?_, ?_, h.drainout⟩
  · rw [hcount _ hmaintenance]
    exact h.maintenance
  · rw [hcount _ hfence]
    exact h.fence
  · rw [hcount _ hcritical]
    exact h.critical
  · rw [hcount _ hcloses]
    exact h.closed
  · rw [hcount _ hstarts]
    exact h.starts
  intro u d hu hd
  refine h.finishes u d (of_call hu ?_) hd
  rintro rfl
  cases hd.symm.trans m.begin_flags.1

end State

/-! ## Maintenance mode -/

/-- What a thread in `EnterMaintenanceMode` relies on. -/
def Maintain.Fits (sh : Shared Hash) : Maintain → Prop
  | .close => True
  | .drain => sh.fenceMaintenance.blocking = true ∨ sh.maintenance = true
  | .set => (sh.fenceMaintenance.blocking = true ∧ sh.fenceMaintenance.counter = 0) ∨
      sh.maintenance = true
  | _ => sh.maintenance = true

/-- The thread holds the maintenance fence closed. -/
def Pc.blocks : Pc Hash → Bool
  | .maintain m =>
    match m with
    | .drain | .set | .open => true
    | _ => false
  | _ => false

namespace Runs

section

variable (h : Runs sh pc sh' pc')
include h

theorem maintenance_cases :
    sh'.maintenance = sh.maintenance ∨ (pc = .maintain .set ∧ sh'.maintenance = true) := by
  cases h with
  | set => exact .inr ⟨rfl, rfl⟩
  | _ => exact .inl rfl

theorem blocking_cases : sh'.fenceMaintenance.blocking = sh.fenceMaintenance.blocking ∨
      (pc = .maintain .close ∧ sh'.fenceMaintenance.blocking = true) ∨
      (pc = .maintain .open ∧ sh'.fenceMaintenance.blocking = false) := by
  cases h with
  | block => exact .inr (.inl ⟨rfl, rfl⟩)
  | unblock => exact .inr (.inr ⟨rfl, rfl⟩)
  | _ => exact .inl rfl

theorem counterMaintenance_cases : sh'.fenceMaintenance.counter ≤ sh.fenceMaintenance.counter ∨
      (∃ k, pc = .finish k .add) ∨ ∃ u, pc = .update u .add := by
  cases h with
  | enter => exact .inr (.inl ⟨_, rfl⟩)
  | updateEnter => exact .inr (.inr ⟨_, rfl⟩)
  | leave | updateLeave => exact .inl (sub_le _ _)
  | _ => exact .inl (le_refl _)

theorem not_deep (hm : sh.maintenance = true) (hpc : pc.deep = false) : holds deep pc' = false := by
  cases h with
  | @spin k | @pass k | @enter k | @maintained k | @leave k =>
    cases k with
    | root => cases hpc
    | _ => rfl
  | unmaintained hn | checkUnmaintained hn | rootUnmaintained hn =>
    rw [hn] at hm
    cases hm
  | updateLeave => exact holds_afterLeave rfl _ _
  | @acquire k | @busy k | @draining k | @undraining k | @done k | @undone k | @close k
  | @undrained k | @drained k | @replace k | @reopen k | @endDrainout k | @release k =>
    cases k <;> cases hpc
  | _ => first | rfl | cases hpc

theorem nests_cases (hd : holds nests pc' = true) : pc.nests = true ∨ ∃ u, pc = .update u .add := by
  cases h with
  | updateEnter => exact .inr ⟨_, rfl⟩
  | @leave k => cases k <;> first | exact .inl rfl | cases hd
  | updateLeave =>
    rw [holds_afterLeave rfl] at hd
    cases hd
  | @updateSpin u | @updatePass u | @updateMaintained u | @dryrun u load =>
    cases u <;> first | exact .inl rfl | cases hd
  | @start u | @already u | @reset u | @request u =>
    cases u <;> first | exact .inl rfl | cases hd
  | @spin k | @pass k | @enter k | @maintained k | @unmaintained k | @acquire k | @busy k
  | @draining k | @undraining k | @done k | @undone k | @close k | @undrained k | @drained k
  | @replace k | @reopen k | @endDrainout k | @release k =>
    cases k <;> first | exact .inl rfl | cases hd
  | _ => first | exact .inl rfl | cases hd

theorem blocks (hpc : pc.blocks = true) (hb : sh'.fenceMaintenance.blocking = true) :
    ∃ d, pc' = some d ∧ d.blocks = true := by
  cases h with
  | unblocked | blocked | set => exact ⟨_, rfl, rfl⟩
  | unblock => cases hb
  | _ => cases hpc

theorem fits_maintain {m} (hd : pc' = some (.maintain m))
    (hpc : ∀ m', pc = .maintain m' → m'.Fits sh) : m.Fits sh' := by
  cases h with
  | block =>
    cases hd
    exact .inl rfl
  | unblocked =>
    cases hd
    exact hpc .drain rfl
  | blocked hzero =>
    cases hd
    exact (hpc .drain rfl).imp_left fun hb => ⟨hb, hzero⟩
  | set =>
    cases hd
    rfl
  | unblock =>
    cases hd
    exact hpc .open rfl
  | flush =>
    cases hd
    exact hpc .reset rfl
  | flushRequest =>
    cases hd
    exact hpc .request rfl
  | flushing =>
    cases hd
    exact hpc .wait rfl
  | @leave k => cases k <;> cases hd
  | updateLeave => cases afterLeave_eq_some hd
  | _ => cases hd

end

end Runs

theorem Maintain.Fits.mono {m : Maintain} (h : m.Fits sh)
    (hm : sh.maintenance = true → sh'.maintenance = true)
    (hb : sh.fenceMaintenance.blocking = true →
      sh'.fenceMaintenance.blocking = true ∨ sh'.maintenance = true)
    (hc : sh.fenceMaintenance.blocking = true → sh.fenceMaintenance.counter = 0 →
      sh'.fenceMaintenance.counter = 0) : m.Fits sh' := by
  cases m with
  | close => trivial
  | drain => exact h.elim hb fun h => .inr (hm h)
  | set =>
    rcases h with ⟨hblocking, hzero⟩ | h
    · exact (hb hblocking).imp_left fun hb' => ⟨hb', hc hblocking hzero⟩
    · exact .inr (hm h)
  | _ => exact hm h

namespace State

variable {s : State Hash} {t : Nat}

/-- The steps after which the remount is orderly: a fence is entered while it is open, and the
maintenance fence is closed while `ChangeRoot` cannot enter it again. -/
def Allowed (s : State Hash) : Pc Hash → Prop
  | .finish _ .add | .update _ .add => s.shared.fenceMaintenance.blocking = false
  | .fenceAdd => s.shared.fence.blocking = false
  | .maintain .close => ∀ u d, s.calls.find? u = some d → d.nests = false
  | _ => True

structure Maintained (s : State Hash) : Prop where
  shallow : s.shared.maintenance = true → ∀ t pc, s.calls.find? t = some pc → pc.deep = false
  fits : ∀ t m, s.calls.find? t = some (.maintain m) → m.Fits s.shared
  blocked : s.shared.fenceMaintenance.blocking = true →
    ∃ t pc, s.calls.find? t = some pc ∧ pc.blocks = true
  nests : ∀ t pc, s.calls.find? t = some pc → pc.nests = true →
    s.shared.fenceMaintenance.blocking = false
  returned : s.shared.maintained = true → s.shared.maintenance = true

theorem Maintained.move (h : s.Maintained) (hc : s.Counts) (ht : s.calls.find? t = some pc)
    (hallowed : s.Allowed pc) (hr : Runs s.shared pc sh' pc') : (s.move t sh' pc').Maintained := by
  have hmono : s.shared.maintenance = true → sh'.maintenance = true := by
    intro hm
    rcases hr.maintenance_cases with heq | ⟨-, htrue⟩
    · exact heq.trans hm
    · exact htrue
  constructor <;> rw [shared_move]
  · intro hm u d hu
    rcases hr.maintenance_cases with heq | ⟨hset, -⟩
    · rw [heq] at hm
      rcases of_move hu with ⟨-, rfl⟩ | ⟨-, hu⟩
      · exact hr.not_deep hm (h.shallow hm t pc ht)
      · exact h.shallow hm u d hu
    -- the fence is closed and left by everybody
    subst hset
    rcases of_move hu with ⟨-, hd⟩ | ⟨-, hu⟩
    · cases hr
      cases hd
      rfl
    rcases h.fits t .set ht with ⟨-, hzero⟩ | hm
    · by_contra hdeep
      have hpos := inMaintenance_of_deep (Bool.eq_true_of_not_eq_false hdeep)
      have := le_total hu inMaintenance
      have := hc.maintenance
      omega
    · exact h.shallow hm u d hu
  · intro u m hu
    rcases of_move hu with ⟨-, hd⟩ | ⟨-, hu⟩
    · exact hr.fits_maintain hd fun m' hm' => h.fits t m' (hm' ▸ ht)
    refine (h.fits u m hu).mono hmono (fun hb => ?_) fun hb hzero => ?_
    · rcases hr.blocking_cases with heq | ⟨-, htrue⟩ | ⟨hopen, -⟩
      · exact .inl (heq.trans hb)
      · exact .inl htrue
      · exact .inr (hmono (h.fits t .open (hopen ▸ ht)))
    · rcases hr.counterMaintenance_cases with hle | ⟨k, rfl⟩ | ⟨u', rfl⟩
      · omega
      · cases hb.symm.trans hallowed
      · cases hb.symm.trans hallowed
  · intro hb
    rcases hr.blocking_cases with heq | ⟨rfl, -⟩ | ⟨-, hfalse⟩
    · obtain ⟨u, d, hu, hd⟩ := h.blocked (heq ▸ hb)
      by_cases hne : u = t
      · subst hne
        cases ht.symm.trans hu
        obtain ⟨d', rfl, hd'⟩ := hr.blocks hd hb
        exact ⟨u, d', find?_move_self, hd'⟩
      · exact ⟨u, d, find?_move hu hne, hd⟩
    · cases hr
      exact ⟨t, .maintain .drain, find?_move_self, rfl⟩
    · cases hb.symm.trans hfalse
  · intro u d hu hd
    have hclose : pc = .maintain .close → False := by
      rintro rfl
      cases hr
      rcases of_move hu with ⟨-, hsome⟩ | ⟨-, hu⟩
      · cases hsome
        cases hd
      · cases hd.symm.trans (hallowed u d hu)
    have hbefore : s.shared.fenceMaintenance.blocking = false := by
      rcases of_move hu with ⟨-, rfl⟩ | ⟨-, hu⟩
      · rcases hr.nests_cases hd with hpc | ⟨u', rfl⟩
        · exact h.nests t pc ht hpc
        · exact hallowed
      · exact h.nests u d hu hd
    rcases hr.blocking_cases with heq | ⟨hpc, -⟩ | ⟨-, hfalse⟩
    · exact heq.trans hbefore
    · exact (hclose hpc).elim
    · exact hfalse
  · intro hret
    cases hr with
    | flushed => exact h.fits t .wait ht
    | _ => exact hmono (h.returned hret)

end State

end Cvmfs.Remount
