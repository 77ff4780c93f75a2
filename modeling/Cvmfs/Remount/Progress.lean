import Cvmfs.Remount.Invalidation
import Mathlib.Data.Prod.Lex

/-! # Every call can return

From a state that satisfies the invariant the threads that run and the invalidator have a
continuation after which no call is unfinished. The steps of the continuation make a pair of
totals smaller: what lies before the first step into drainout mode, then everything else. -/

namespace Cvmfs.Remount

open Shared Nat Pc
open Lib (Table)

variable {Hash : Type}

/-! ## Distances -/

/-- Steps to the end of `TryFinish`. -/
def Finish.distance : Finish → Nat
  | .test => 13
  | .add => 12
  | .maintenance => 11
  | .critical => 10
  | .drainout => 9
  | .done => 8
  | .close => 7
  | .drain => 6
  | .replace => 5
  | .open => 4
  | .endDrainout => 3
  | .leaveCritical => 2
  | .leave => 1

/-- In a drainout, `ChangeRoot` leaves `TryFinish` to call it again. -/
def Finish.again : Finish → Bool → Nat
  | .leaveCritical, false => 14
  | .leave, false => 14
  | _, _ => 0

def Maintain.distance : Maintain → Nat
  | .close => 9
  | .drain => 8
  | .set => 7
  | .open => 6
  | .reset => 5
  | .request => 4
  | .wait => 1

namespace Pc

/-- Steps before the first step into drainout mode. -/
def prelude : Pc Hash → Nat
  | .compare _ => 5
  | .update (.root _) .test => 4
  | .update (.root _) .add => 3
  | .update (.root _) .maintenance => 2
  | .update _ .cas => 1
  | _ => 0

/-- Distance from the end of the call; `calm` says that there is no drainout. -/
def distance (calm : Bool) : Pc Hash → Nat
  | .inside => 1
  | .fenceAdd => 2
  | .fenceTest => 3
  | .finish .callback f => 3 + f.distance
  | .finish .sync f => 5 + f.distance
  | .finish (.root _) f => 3 + f.distance + f.again calm
  | .poll _ => if calm then 3 else 17
  | .compareAgain _ => 2
  | .compare _ => 1
  | .update _ p =>
    match p with
    | .test => 5
    | .add => 4
    | .maintenance => 3
    | .dryrun => 2
    | .cas => 25
    | .reset => 24
    | .request => 23
    | .advance => 20
    | .leave .draining => 19
    | .leave _ => 1
  | .maintain m => m.distance

theorem distance_mono (pc : Pc Hash) : pc.distance true ≤ pc.distance false := by
  cases pc with
  | finish k f =>
    cases k with
    | root => cases f <;> exact le_add_right _ _
    | _ => exact le_refl _
  | poll => exact (by decide : 3 ≤ 17)
  | _ => exact le_refl _

end Pc

namespace Shared

def calm (sh : Shared Hash) : Bool := decide (sh.drainout = 0)

/-- Steps of the invalidator. -/
def backlog (sh : Shared Hash) : Nat := 2 * sh.channel.length + sh.working.toList.length

theorem backlog_push (sh : Shared Hash) : sh.push.backlog = sh.backlog + 2 := by
  simp only [backlog, push, List.length_append, List.length_cons, List.length_nil]
  omega

end Shared

/-! ## Threads that get on -/

/-- The thread is not before a wait, nor on the way to call `TryFinish` in vain. -/
def State.Ready (s : State Hash) : Pc Hash → Prop
  | .finish k f =>
    match f with
    | .test | .add => s.shared.fenceMaintenance.blocking = false
    | .maintenance => k.depth = 1 → s.shared.maintenance = false
    | .critical => k.depth = 1 → s.shared.critical = 0
    | .drainout => k.depth = 1 → s.shared.drainout ≠ 1
    | .done => k.depth = 1 → s.shared.handleDone = true
    | .drain => s.shared.fence.counter = 0
    | _ => True
  | .fenceTest | .fenceAdd => s.shared.fence.blocking = false
  | .update _ p =>
    match p with
    | .test | .add => s.shared.fenceMaintenance.blocking = false
    | _ => True
  | .maintain m =>
    match m with
    | .close => ∀ u d, s.calls.find? u = some d → d.nests = false
    | .drain => s.shared.fenceMaintenance.counter = 0
    | .wait => s.shared.handleDone = true
    | _ => True
  | _ => True

theorem State.Ready.allowed {s : State Hash} {pc : Pc Hash} (h : s.Ready pc) : s.Allowed pc := by
  cases pc with
  | finish k f => cases f <;> first | exact h | exact trivial
  | update u p => cases p <;> first | exact h | exact trivial
  | maintain m => cases m <;> first | exact h | exact trivial
  | fenceAdd => exact h
  | _ => exact trivial

/-- A step brings a thread nearer to its end, and others no farther. -/
def Nearer (sh : Shared Hash) (pc : Pc Hash) (sh' : Shared Hash) (pc' : Option (Pc Hash)) : Prop :=
  weigh prelude pc' < pc.prelude ∨
    (weigh prelude pc' ≤ pc.prelude ∧ (sh.calm = true → sh'.calm = true) ∧
      weigh (distance sh'.calm) pc' + sh'.backlog < pc.distance sh.calm + sh.backlog)

variable {sh sh' : Shared Hash}

theorem Nearer.of_same {pc : Pc Hash} {pc' : Option (Pc Hash)}
    (hlt : weigh (distance sh.calm) pc' < pc.distance sh.calm)
    (hpre : weigh prelude pc' ≤ pc.prelude := by exact le_refl _)
    (hcalm : sh'.calm = sh.calm := by rfl) (hbacklog : sh'.backlog = sh.backlog := by rfl) :
    Nearer sh pc sh' pc' := by
  refine .inr ⟨hpre, fun h => hcalm.trans h, ?_⟩
  rw [hcalm, hbacklog]
  exact Nat.add_lt_add_right hlt _

theorem Nearer.finish {k : Caller Hash} {f f' : Finish}
    (hlt : f'.distance < f.distance)
    (hagain : k.depth = 1 → f'.again sh.calm ≤ f.again sh.calm := by exact fun _ => le_refl _)
    (hcalm : sh'.calm = sh.calm := by rfl) (hbacklog : sh'.backlog = sh.backlog := by rfl) :
    Nearer sh (.finish k f) sh' (some (.finish k f')) := by
  refine .of_same ?_ (Nat.le_refl _) hcalm hbacklog
  cases k with
  | root => exact Nat.add_lt_add_of_lt_of_le (Nat.add_lt_add_left hlt 3) (hagain rfl)
  | _ => exact Nat.add_lt_add_left hlt _

section

variable {s : State Hash} {t : Nat}

theorem ready_finish [DecidableEq Hash] (null : Hash) {k : Caller Hash} {f : Finish} (h : s.Sound)
    (ht : s.calls.find? t = some (.finish k f)) (hr : s.Ready (.finish k f)) :
    ∃ sh' pc', s.shared.execFinish null k none f = some (sh', pc') ∧
      Nearer s.shared (.finish k f) sh' (some pc') := by
  cases f with
  | test =>
    refine ⟨s.shared, .finish k .add, ?_, .finish (by decide)⟩
    simp only [execFinish, show s.shared.fenceMaintenance.blocking = false from hr]
    rfl
  | add | close | «open» => exact ⟨_, _, rfl, .finish (by decide)⟩
  | maintenance =>
    refine ⟨_, _, rfl, ?_⟩
    split
    next hm =>
      refine .finish (by decide) fun hroot => ?_
      rw [hr hroot] at hm
      cases hm
    · exact .finish (by decide)
  | critical =>
    by_cases hc : s.shared.critical = 0
    · exact ⟨_, _, if_pos hc, .finish (by decide)⟩
    · exact ⟨_, _, if_neg hc, .finish (by decide) fun hroot => absurd (hr hroot) hc⟩
  | drainout =>
    refine ⟨_, _, rfl, ?_⟩
    split
    · exact .finish (by decide)
    next htwo =>
      refine .finish (by decide) fun hroot => ?_
      have := h.counts.drainout
      have hzero : s.shared.drainout = 0 := by
        have : s.shared.drainout ≠ 1 := hr hroot
        omega
      rw [show s.shared.calm = true from decide_eq_true hzero]
      exact le_refl _
  | done =>
    refine ⟨_, _, rfl, ?_⟩
    split
    · exact .finish (by decide)
    next hdone => exact .finish (by decide) fun hroot => absurd (hr hroot) hdone
  | drain =>
    refine ⟨s.shared, .finish k .replace, ?_, .finish (by decide)⟩
    simp only [execFinish, show s.shared.fence.counter = 0 from hr]
    rfl
  | replace =>
    refine ⟨s.shared, .finish k .open, ?_, .finish (by decide)⟩
    cases k <;> rfl
  | endDrainout =>
    have htwo := h.counts.finishes t _ ht rfl
    have hcalm : calm { s.shared with drainout := s.shared.drainout - 2 } = true := by
      simp [calm, htwo]
    refine ⟨_, _, rfl, .inr ⟨Nat.le_refl _, fun _ => hcalm, Nat.add_lt_add_right ?_ _⟩⟩
    rw [hcalm]
    cases k <;> exact Nat.add_lt_add_left (by decide : 2 < 3) _
  | leaveCritical =>
    refine ⟨_, _, rfl, .finish (by decide) fun _ => ?_⟩
    cases s.shared.calm <;> exact le_refl _
  | leave =>
    refine ⟨_, _, rfl, .of_same ?_ (by cases k <;> exact le_refl _)⟩
    cases k with
    | root =>
      cases hc : s.shared.calm with
      | false => exact (by decide : 17 < 18)
      | true => exact (by decide : 3 < 4)
    | callback => exact (by decide : 3 < 4)
    | sync => exact (by decide : 5 < 6)

theorem ready_update {u : Updater Hash} {p : Update} (h : s.Sound)
    (ht : s.calls.find? t = some (.update u p)) (hr : s.Ready (.update u p)) :
    Nearer s.shared (.update u p) (s.shared.execUpdate u .up2Date p).1
      (s.shared.execUpdate u .up2Date p).2 := by
  cases p with
  | test =>
    simp only [execUpdate, show s.shared.fenceMaintenance.blocking = false from hr]
    cases u with
    | check => exact .of_same (by decide : 4 < 5)
    | root => exact .inl (by decide : 3 < 4)
  | add =>
    cases u with
    | check => exact .of_same (by decide : 3 < 4)
    | root => exact .inl (by decide : 2 < 3)
  | maintenance =>
    cases u with
    | check =>
      simp only [execUpdate]
      split
      · exact .of_same (by decide : 1 < 3)
      · exact .of_same (by decide : 2 < 3)
    | root =>
      simp only [execUpdate]
      split
      · exact .inl (by decide : 0 < 2)
      · exact .inl (by decide : 1 < 2)
  | dryrun => exact .of_same (by decide : 1 < 2) (by cases u <;> exact le_refl _)
  | cas =>
    simp only [execUpdate]
    split
    · exact .inl (by cases u <;> exact zero_lt_one)
    · exact .inl (by cases u <;> exact zero_lt_one)
  | reset => exact .of_same (by decide : 23 < 24) (by cases u <;> exact le_refl _)
  | request =>
    refine .inr ⟨by cases u <;> exact le_refl _, id, ?_⟩
    have := s.shared.backlog_push
    show 20 + s.shared.push.backlog < 23 + s.shared.backlog
    omega
  | advance =>
    have hone := h.counts.drainout_of_starts ht zero_lt_one
    have hcalm : s.shared.calm = false := by simp [calm, hone]
    have hcalm' : calm { s.shared with drainout := s.shared.drainout + 1 } = false := by
      simp [calm]
    cases u with
    | check => exact .of_same (by decide : 19 < 20) (le_refl _) (hcalm'.trans hcalm.symm)
    | root => exact .of_same (by decide : 16 < 20) (le_refl _) (hcalm'.trans hcalm.symm)
  | leave status =>
    simp only [execUpdate, afterLeave]
    split
    · exact .of_same (by decide : 18 < 19)
    · refine .of_same ?_ (zero_le _)
      cases status <;> exact succ_pos _

theorem ready_maintain {m : Maintain} (hr : s.Ready (.maintain m)) :
    Nearer s.shared (.maintain m) (s.shared.execMaintain m).1 (s.shared.execMaintain m).2 := by
  cases m with
  | close => exact .of_same (by decide : 8 < 9)
  | drain =>
    simp only [execMaintain, show s.shared.fenceMaintenance.counter = 0 from hr]
    exact .of_same (by decide : 7 < 8)
  | set => exact .of_same (by decide : 6 < 7)
  | «open» => exact .of_same (by decide : 5 < 6)
  | reset => exact .of_same (by decide : 4 < 5)
  | request =>
    refine .inr ⟨le_refl _, id, ?_⟩
    have := s.shared.backlog_push
    show 1 + s.shared.push.backlog < 4 + s.shared.backlog
    omega
  | wait =>
    simp only [execMaintain, show s.shared.handleDone = true from hr]
    exact .of_same (by decide : 0 < 1)

theorem ready_exec [DecidableEq Hash] (null : Hash) {pc : Pc Hash} (h : s.Sound)
    (ht : s.calls.find? t = some pc) (hr : s.Ready pc) :
    ∃ r, s.shared.exec null .up2Date none pc = some r ∧ Nearer s.shared pc r.1 r.2 := by
  cases pc with
  | finish k f =>
    obtain ⟨sh', pc', hexec, hnear⟩ := ready_finish null h ht hr
    exact ⟨(sh', some pc'), by simp only [exec, hexec, Option.map_some], hnear⟩
  | fenceTest =>
    refine ⟨(s.shared, some .fenceAdd), ?_, .of_same (by decide : 2 < 3)⟩
    simp only [exec, show s.shared.fence.blocking = false from hr]
    rfl
  | fenceAdd => exact ⟨_, rfl, .of_same (by decide : 1 < 2)⟩
  | inside => exact ⟨_, rfl, .of_same (by decide : 0 < 1)⟩
  | compare h =>
    by_cases hroot : s.shared.root = h
    · exact ⟨_, if_pos hroot, .inl (by decide : 0 < 5)⟩
    · exact ⟨_, if_neg hroot, .inl (by decide : 4 < 5)⟩
  | update u p => exact ⟨_, rfl, ready_update h ht hr⟩
  | poll h =>
    refine ⟨_, rfl, ?_⟩
    split
    next hzero =>
      refine .of_same ?_
      rw [show s.shared.calm = true from decide_eq_true hzero]
      exact (by decide : 2 < 3)
    next hne =>
      refine .of_same ?_
      rw [show s.shared.calm = false from decide_eq_false hne]
      exact (by decide : 16 < 17)
  | compareAgain h =>
    by_cases hroot : s.shared.root = h
    · exact ⟨_, if_pos hroot, .of_same (by decide : 1 < 2)⟩
    · exact ⟨_, if_neg hroot, .of_same (by decide : 1 < 2)⟩
  | maintain m => exact ⟨_, rfl, ready_maintain hr⟩

end

/-! ## Some thread gets on -/

namespace State

variable {s : State Hash}

/-- A thread that is ready, or work for the invalidator. -/
def Live (s : State Hash) : Prop :=
  s.shared.pending ≠ [] ∨ ∃ t pc, s.calls.find? t = some pc ∧ s.Ready pc

variable {t : Nat} {pc : Pc Hash}

theorem Sound.not_maintenance (h : s.Sound) (ht : s.calls.find? t = some pc)
    (hdeep : pc.deep = true) : s.shared.maintenance = false := by
  by_contra hmode
  cases hdeep.symm.trans (h.maintained.shallow (by simpa using hmode) t pc ht)

theorem Sound.handleDone (h : s.Sound) (hnil : s.shared.pending = [])
    (ht : s.calls.find? t = some pc) (hdeep : pc.deep = true) (htwo : s.shared.drainout = 2) :
    s.shared.handleDone = true := by
  rcases (h.handle.asked (h.not_maintenance ht hdeep) htwo).2 with ⟨hone, -⟩ | ⟨-, hdone⟩
  · rw [hnil] at hone
    cases hone
  · exact hdone

/-- Nobody is in the fence, on the way into drainout mode or in the critical section. -/
structure Quiet (s : State Hash) : Prop where
  drainout : s.shared.drainout ≠ 1
  critical : s.shared.critical = 0
  fence : s.shared.fence.blocking = false

theorem live_or_quiet (h : s.Sound) : s.Live ∨ s.Quiet := by
  by_cases hnil : s.shared.pending = []
  swap
  · exact .inl (.inl hnil)
  by_cases hin : 0 < s.total inFence
  · obtain ⟨t, pc, ht, hpc⟩ := exists_of_total_pos hin
    cases pc with
    | inside => exact .inl (.inr ⟨t, _, ht, trivial⟩)
    | _ => cases hpc
  have hcounter : s.shared.fence.counter = 0 := by
    have := h.counts.fence
    omega
  by_cases hstarts : 0 < s.total starts
  · obtain ⟨t, pc, ht, hpc⟩ := exists_of_total_pos hstarts
    cases pc with
    | update u p => cases p <;> first | exact .inl (.inr ⟨t, _, ht, trivial⟩) | cases hpc
    | _ => cases hpc
  have hdrainout : s.shared.drainout ≠ 1 := by
    intro hone
    have := h.counts.starts
    rw [if_pos hone] at this
    omega
  by_cases hcrit : 0 < s.total inCritical
  · obtain ⟨t, pc, ht, hpc⟩ := exists_of_total_pos hcrit
    refine .inl (.inr ⟨t, pc, ht, ?_⟩)
    cases pc with
    | finish k f =>
      cases f with
      | drainout => exact fun _ => hdrainout
      | done =>
        intro _
        exact h.handleDone hnil ht (deep_of_inCritical hpc) (h.counts.finishes t _ ht rfl)
      | drain => exact hcounter
      | close | replace | «open» | endDrainout | leaveCritical => exact trivial
      | _ => cases hpc
    | _ => cases hpc
  have hcritical : s.shared.critical = 0 := by
    have := h.counts.critical
    omega
  refine .inr ⟨hdrainout, hcritical, ?_⟩
  by_contra hb
  have hclosed := h.counts.closed
  rw [Bool.eq_true_of_not_eq_false hb] at hclosed
  obtain ⟨t, pc, ht, hpc⟩ := exists_of_total_pos (f := closes) (s := s) (by
    rw [← hclosed]
    exact zero_lt_one)
  have hle := le_total ht inCritical
  cases pc with
  | finish k f =>
    cases f with
    | drain | replace | «open» => exact hcrit (lt_of_lt_of_le zero_lt_one hle)
    | _ => cases hpc
  | _ => cases hpc

theorem Quiet.inCritical (hq : s.Quiet) (h : s.Sound) (ht : s.calls.find? t = some pc) :
    pc.inCritical = 0 := by
  have hle := le_total ht Pc.inCritical
  rw [← h.counts.critical, hq.critical] at hle
  exact le_zero.mp hle

theorem Quiet.ready (hq : s.Quiet) (h : s.Sound) (ht : s.calls.find? t = some pc)
    (hpc : pc.nests = true ∨ 0 < pc.inMaintenance) : s.Ready pc := by
  have hopen := h.maintained.nests t pc ht
  have hzero := hq.inCritical h ht
  cases pc with
  | finish k f =>
    cases f with
    | test | add =>
      cases k with
      | root => exact hopen rfl
      | _ => rcases hpc with hpc | hpc <;> cases hpc
    | maintenance =>
      cases k with
      | root => exact fun _ => h.not_maintenance ht rfl
      | _ => exact nofun
    | critical => exact fun _ => hq.critical
    | leave => exact trivial
    | _ => cases hzero
  | update u p =>
    cases p with
    | test | add => rcases hpc with hpc | hpc <;> cases u <;> cases hpc
    | _ => exact trivial
  | compareAgain | poll => exact trivial
  | _ => rcases hpc with hpc | hpc <;> cases hpc

theorem Sound.live_of_maintain (h : s.Sound)
    (hnests : ∀ u d, s.calls.find? u = some d → d.nests = false) {m}
    (ht : s.calls.find? t = some (.maintain m)) : s.Live ∨ m = .drain := by
  cases m with
  | close => exact .inl (.inr ⟨t, _, ht, hnests⟩)
  | drain => exact .inr rfl
  | wait =>
    rcases h.handle.waits t ht with hdone | hpending | ⟨u, hu⟩
    · exact .inl (.inr ⟨t, _, ht, hdone⟩)
    · exact .inl (.inl hpending)
    · exact .inl (.inr ⟨u, _, hu, trivial⟩)
  | _ => exact .inl (.inr ⟨t, _, ht, trivial⟩)

/-- While a call is unfinished, a thread or the invalidator gets on. -/
theorem Sound.live (h : s.Sound) (ht : s.calls.find? t = some pc) : s.Live := by
  rcases live_or_quiet h with hlive | hq
  · exact hlive
  by_contra hdead
  have hnests : ∀ u d, s.calls.find? u = some d → d.nests = false := by
    intro u d hu
    by_contra hd
    exact hdead (.inr ⟨u, d, hu, hq.ready h hu (.inl (Bool.eq_true_of_not_eq_false hd))⟩)
  have hcounter : s.shared.fenceMaintenance.counter = 0 := by
    by_contra hne
    obtain ⟨u, d, hu, hd⟩ := exists_of_total_pos (f := inMaintenance) (s := s) (by
      rw [← h.counts.maintenance]
      exact pos_of_ne_zero hne)
    exact hdead (.inr ⟨u, d, hu, hq.ready h hu (.inr hd)⟩)
  have hmaintain : ∀ u m, s.calls.find? u ≠ some (.maintain m) := by
    intro u m hu
    rcases h.live_of_maintain hnests hu with hlive | rfl
    · exact hdead hlive
    · exact hdead (.inr ⟨u, _, hu, hcounter⟩)
  have hopen : s.shared.fenceMaintenance.blocking = false := by
    by_contra hb
    obtain ⟨u, d, hu, hd⟩ := h.maintained.blocked (Bool.eq_true_of_not_eq_false hb)
    cases d with
    | maintain m => exact hmaintain u m hu
    | _ => cases hd
  refine hdead (.inr ⟨t, pc, ht, ?_⟩)
  by_cases hpos : 0 < pc.inMaintenance
  · exact hq.ready h ht (.inr hpos)
  cases pc with
  | finish k f =>
    cases f with
    | test | add => exact hopen
    | _ => exact absurd (lt_of_lt_of_le zero_lt_one (le_add_left _ _)) hpos
  | fenceTest | fenceAdd => exact hq.fence
  | update u p =>
    cases p with
    | test | add => exact hopen
    | _ => exact trivial
  | maintain m => exact absurd ht (hmaintain t m)
  | _ => exact trivial

end State

/-! ## Continuations -/

/-- The state has a continuation, without new calls and with steps that keep the invariant,
after which every call has returned. -/
inductive State.Settles [DecidableEq Hash] (null : Hash) : State Hash → Prop
  | done {s} : (∀ t, s.calls.find? t = none) → Settles null s
  | step {s e s'} : (∀ t m, e ≠ .call t m) → s.Benign e → s.step null e = some s' →
      Settles null s' → Settles null s

namespace State

variable {s : State Hash}

/-- What is left to do; the first number goes before the second. -/
def remaining (s : State Hash) : Nat ×ₗ Nat :=
  toLex (s.total prelude, s.total (distance s.shared.calm) + s.shared.backlog)

theorem remaining_move {t pc sh' pc'} (ht : s.calls.find? t = some pc)
    (h : Nearer s.shared pc sh' pc') : (s.move t sh' pc').remaining < s.remaining := by
  have hpre := total_move ht sh' pc' prelude
  rw [remaining, remaining, Prod.Lex.toLex_lt_toLex]
  rcases h with hlt | ⟨hle, hcalm, hlt⟩
  · exact .inl (by omega)
  rcases lt_or_ge (weigh prelude pc') pc.prelude with hlt' | hge
  · exact .inl (by omega)
  refine .inr ⟨by omega, ?_⟩
  rw [shared_move]
  have hnew := total_move ht sh' pc' (distance sh'.calm)
  have hold := Table.sum_erase (fun _ pc => pc.distance s.shared.calm) ht
  have hold' := Table.sum_erase (fun _ pc => pc.distance sh'.calm) ht
  have hothers : ((s.calls.erase t).sum fun _ pc => pc.distance sh'.calm) ≤
      (s.calls.erase t).sum fun _ pc => pc.distance s.shared.calm := by
    refine Table.sum_le_sum fun _ pc _ => ?_
    cases hc : s.shared.calm with
    | true => rw [hcalm hc]
    | false =>
      cases sh'.calm with
      | true => exact pc.distance_mono
      | false => exact le_refl _
  simp only [total] at hnew ⊢
  omega

theorem remaining_step [DecidableEq Hash] (null : Hash) (h : s.Sound) {t pc}
    (ht : s.calls.find? t = some pc) :
    ∃ e s', (∀ t m, e ≠ .call t m) ∧ s.Benign e ∧ s.step null e = some s' ∧
      s'.remaining < s.remaining := by
  rcases h.live ht with hpending | ⟨u, d, hu, hready⟩
  · cases hw : s.shared.working with
    | some r =>
      refine ⟨.evicted, _, by simp, trivial, by simp only [State.step, hw]; rfl, ?_⟩
      rw [remaining, remaining, Prod.Lex.toLex_lt_toLex]
      refine .inr ⟨rfl, Nat.add_lt_add_left ?_ _⟩
      simp [backlog, hw]
    | none =>
      cases hch : s.shared.channel with
      | nil =>
        rw [pending, hw, hch] at hpending
        exact absurd rfl hpending
      | cons r rest =>
        refine ⟨.take, _, by simp, trivial, by simp only [State.step, hw, hch]; rfl, ?_⟩
        rw [remaining, remaining, Prod.Lex.toLex_lt_toLex]
        refine .inr ⟨rfl, Nat.add_lt_add_left ?_ _⟩
        simp [backlog, hw, hch]
        omega
  · obtain ⟨r, hexec, hnear⟩ := ready_exec null h hu hready
    refine ⟨.step u .up2Date none, s.move u r.1 r.2, by simp, ?_, ?_, remaining_move hu hnear⟩
    · intro pc' hpc'
      cases hu.symm.trans hpc'
      exact hready.allowed
    · simp only [State.step, hu, hexec, Option.map_some]

theorem Sound.settles [DecidableEq Hash] (null : Hash) (h : s.Sound) : s.Settles null := by
  induction hn : s.remaining using WellFoundedLT.induction generalizing s with
  | ind n ih =>
    subst hn
    by_cases hrun : ∃ t pc, s.calls.find? t = some pc
    · obtain ⟨t, pc, ht⟩ := hrun
      obtain ⟨e, s', hcall, hb, hs, hlt⟩ := remaining_step null h ht
      exact .step hcall hb hs (ih _ hlt (h.step hb hs) rfl)
    refine .done fun t => ?_
    cases hc : s.calls.find? t with
    | none => rfl
    | some pc => exact absurd ⟨t, pc, hc⟩ hrun

end State

end Cvmfs.Remount
