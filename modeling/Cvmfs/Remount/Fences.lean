import Cvmfs.Remount.Remounter

/-! # What the fences count

Every step of a thread as a case of one relation, and the quantities that the counters and
flags stand for: the threads in each fence, in the critical section, between closing and
opening the fence, and between the first and the second step into drainout mode. -/

namespace Cvmfs.Remount

open Shared Nat

variable {Hash : Type}

/-! ## Steps -/

/-- The steps of a thread: from a place, with the shared variables before and after, to the
next place or to the end of the call. -/
inductive Runs (sh : Shared Hash) : Pc Hash → Shared Hash → Option (Pc Hash) → Prop
  | spin {k} : sh.fenceMaintenance.blocking = true →
      Runs sh (.finish k .test) sh (some (.finish k .test))
  | pass {k} : sh.fenceMaintenance.blocking = false →
      Runs sh (.finish k .test) sh (some (.finish k .add))
  | enter {k} : Runs sh (.finish k .add)
      { sh with fenceMaintenance := sh.fenceMaintenance.enter } (some (.finish k .maintenance))
  | maintained {k} : sh.maintenance = true →
      Runs sh (.finish k .maintenance) sh (some (.finish k .leave))
  | unmaintained {k} : sh.maintenance = false →
      Runs sh (.finish k .maintenance) sh (some (.finish k .critical))
  | acquire {k} : sh.critical = 0 →
      Runs sh (.finish k .critical) { sh with critical := 1 } (some (.finish k .drainout))
  | busy {k} : sh.critical ≠ 0 → Runs sh (.finish k .critical) sh (some (.finish k .leave))
  | draining {k} : sh.drainout = 2 → Runs sh (.finish k .drainout) sh (some (.finish k .done))
  | undraining {k} : sh.drainout ≠ 2 →
      Runs sh (.finish k .drainout) sh (some (.finish k .leaveCritical))
  | done {k} : sh.handleDone = true → Runs sh (.finish k .done) sh (some (.finish k .close))
  | undone {k} : sh.handleDone = false →
      Runs sh (.finish k .done) sh (some (.finish k .leaveCritical))
  | close {k} : Runs sh (.finish k .close) { sh with fence := sh.fence.close }
      (some (.finish k .drain))
  | undrained {k} : 0 < sh.fence.counter → Runs sh (.finish k .drain) sh (some (.finish k .drain))
  | drained {k} : sh.fence.counter = 0 → Runs sh (.finish k .drain) sh (some (.finish k .replace))
  | replace {k root} : Runs sh (.finish k .replace) { sh with root } (some (.finish k .open))
  | reopen {k} : Runs sh (.finish k .open) { sh with fence := sh.fence.open }
      (some (.finish k .endDrainout))
  | endDrainout {k} : Runs sh (.finish k .endDrainout) { sh with drainout := sh.drainout - 2 }
      (some (.finish k .leaveCritical))
  | release {k} : Runs sh (.finish k .leaveCritical) { sh with critical := sh.critical - 1 }
      (some (.finish k .leave))
  | leave {k} : Runs sh (.finish k .leave)
      { sh with fenceMaintenance := sh.fenceMaintenance.leave } (some (afterFinish k))
  | fenceSpin : sh.fence.blocking = true → Runs sh .fenceTest sh (some .fenceTest)
  | fencePass : sh.fence.blocking = false → Runs sh .fenceTest sh (some .fenceAdd)
  | fenceEnter : Runs sh .fenceAdd { sh with fence := sh.fence.enter } (some .inside)
  | fenceLeave : Runs sh .inside { sh with fence := sh.fence.leave } none
  | same {h} : sh.root = h →
      Runs sh (.compare h) { sh with answers := (h, sh.root) :: sh.answers } none
  | other {h} : sh.root ≠ h → Runs sh (.compare h) sh (some (.update (.root h) .test))
  | updateSpin {u} : sh.fenceMaintenance.blocking = true →
      Runs sh (.update u .test) sh (some (.update u .test))
  | updatePass {u} : sh.fenceMaintenance.blocking = false →
      Runs sh (.update u .test) sh (some (.update u .add))
  | updateEnter {u} : Runs sh (.update u .add)
      { sh with fenceMaintenance := sh.fenceMaintenance.enter } (some (.update u .maintenance))
  | updateMaintained {u} : sh.maintenance = true →
      Runs sh (.update u .maintenance) sh (some (.update u (.leave .maintenance)))
  | checkUnmaintained {sync} : sh.maintenance = false →
      Runs sh (.update (.check sync) .maintenance) sh (some (.update (.check sync) .dryrun))
  | rootUnmaintained {h} : sh.maintenance = false →
      Runs sh (.update (.root h) .maintenance) sh (some (.update (.root h) .cas))
  | dryrun {u} (load) :
      Runs sh (.update u .dryrun) sh (some (.update u (afterDryrun load)))
  | start {u} : sh.drainout = 0 →
      Runs sh (.update u .cas) { sh with drainout := 1 } (some (.update u .reset))
  | already {u} : sh.drainout ≠ 0 →
      Runs sh (.update u .cas) sh (some (.update u (.leave .draining)))
  | reset {u} : Runs sh (.update u .reset) { sh with handleDone := false }
      (some (.update u .request))
  | request {u} : Runs sh (.update u .request) { sh.push with asked := sh.requests }
      (some (.update u .advance))
  | checkAdvance {sync} : Runs sh (.update (.check sync) .advance)
      { sh with drainout := sh.drainout + 1 } (some (.update (.check sync) (.leave .draining)))
  | rootAdvance {h} : Runs sh (.update (.root h) .advance)
      { sh with drainout := sh.drainout + 1 } (some (.finish (.root h) .test))
  | updateLeave {u status} : Runs sh (.update u (.leave status))
      { sh with fenceMaintenance := sh.fenceMaintenance.leave } (afterLeave u status)
  | over {h} : sh.drainout = 0 → Runs sh (.poll h) sh (some (.compareAgain h))
  | again {h} : sh.drainout ≠ 0 → Runs sh (.poll h) sh (some (.finish (.root h) .test))
  | sameAgain {h} : sh.root = h →
      Runs sh (.compareAgain h) { sh with answers := (h, sh.root) :: sh.answers }
        (some (.update (.root h) (.leave .up2Date)))
  | otherAgain {h} : sh.root ≠ h →
      Runs sh (.compareAgain h) sh (some (.update (.root h) (.leave .failGeneral)))
  | block : Runs sh (.maintain .close)
      { sh with fenceMaintenance := sh.fenceMaintenance.close } (some (.maintain .drain))
  | unblocked : 0 < sh.fenceMaintenance.counter →
      Runs sh (.maintain .drain) sh (some (.maintain .drain))
  | blocked : sh.fenceMaintenance.counter = 0 →
      Runs sh (.maintain .drain) sh (some (.maintain .set))
  | set : Runs sh (.maintain .set) { sh with maintenance := true } (some (.maintain .open))
  | unblock : Runs sh (.maintain .open)
      { sh with fenceMaintenance := sh.fenceMaintenance.open } (some (.maintain .reset))
  | flush : Runs sh (.maintain .reset) { sh with handleDone := false }
      (some (.maintain .request))
  | flushRequest : Runs sh (.maintain .request) sh.push (some (.maintain .wait))
  | flushing : sh.handleDone = false → Runs sh (.maintain .wait) sh (some (.maintain .wait))
  | flushed : sh.handleDone = true → Runs sh (.maintain .wait) { sh with maintained := true } none

section

variable [DecidableEq Hash] {sh sh' : Shared Hash} {null : Hash} {load : LoadReturn}
  {loaded : Option Hash}

theorem runs_of_execFinish {k f pc'} (h : sh.execFinish null k loaded f = some (sh', pc')) :
    Runs sh (.finish k f) sh' (some pc') := by
  unfold execFinish at h
  split at h
  · cases h
    split
    next hb => exact .spin hb
    next hb => exact .pass (by simpa using hb)
  · cases h
    exact .enter
  · cases h
    split
    next hm => exact .maintained hm
    next hm => exact .unmaintained (by simpa using hm)
  · split at h
    next hc =>
      cases h
      exact .acquire hc
    next hc =>
      cases h
      exact .busy hc
  · cases h
    split
    next hd => exact .draining hd
    next hd => exact .undraining hd
  · cases h
    split
    next hd => exact .done hd
    next hd => exact .undone (by simpa using hd)
  · cases h
    exact .close
  · cases h
    split
    next hc => exact .undrained hc
    next hc => exact .drained (by omega)
  · split at h
    · cases h
      exact (show Runs sh _ { sh with root := sh.root } _ from .replace)
    · split at h
      · cases h
        exact .replace
      · cases h
    · cases h
      exact .replace
  · cases h
    exact .reopen
  · cases h
    exact .endDrainout
  · cases h
    exact .release
  · cases h
    exact .leave

omit [DecidableEq Hash] in
theorem runs_of_execUpdate (u : Updater Hash) (p : Update) :
    Runs sh (.update u p) (sh.execUpdate u load p).1 (sh.execUpdate u load p).2 := by
  unfold execUpdate
  split
  · split
    next hb => exact .updateSpin hb
    next hb => exact .updatePass (by simpa using hb)
  · exact .updateEnter
  · split
    next hm => exact .updateMaintained hm
    next hm =>
      split
      · exact .checkUnmaintained (by simpa using hm)
      · exact .rootUnmaintained (by simpa using hm)
  · exact .dryrun load
  · split
    next hd => exact .start hd
    next hd => exact .already hd
  · exact .reset
  · exact .request
  · split
    · exact .checkAdvance
    · exact .rootAdvance
  · exact .updateLeave

omit [DecidableEq Hash] in
theorem runs_of_execMaintain (m : Maintain) :
    Runs sh (.maintain m) (sh.execMaintain m).1 (sh.execMaintain m).2 := by
  unfold execMaintain
  split
  · exact .block
  · split
    next hc => exact .unblocked hc
    next hc => exact .blocked (by omega)
  · exact .set
  · exact .unblock
  · exact .flush
  · exact .flushRequest
  · split
    next hd => exact .flushed hd
    next hd => exact .flushing (by simpa using hd)

theorem runs_of_exec {pc r} (h : sh.exec null load loaded pc = some r) : Runs sh pc r.1 r.2 := by
  unfold exec at h
  split at h
  · obtain ⟨⟨sh', pc'⟩, hr, rfl⟩ := Option.map_eq_some_iff.1 h
    exact runs_of_execFinish hr
  · cases h
    split
    next hb => exact .fenceSpin hb
    next hb => exact .fencePass (by simpa using hb)
  · cases h
    exact .fenceEnter
  · cases h
    exact .fenceLeave
  · split at h
    next hr =>
      cases h
      exact .same hr
    next hr =>
      cases h
      exact .other hr
  · cases h
    exact runs_of_execUpdate _ _
  · cases h
    split
    next hd => exact .over hd
    next hd => exact .again hd
  · split at h
    next hr =>
      cases h
      exact .sameAgain hr
    next hr =>
      cases h
      exact .otherAgain hr
  · cases h
    exact runs_of_execMaintain _

end

/-! ## Places -/

def Caller.depth : Caller Hash → Nat
  | .root _ => 1
  | _ => 0

def Finish.entered : Finish → Nat
  | .test | .add => 0
  | _ => 1

def Update.entered : Update → Nat
  | .test | .add => 0
  | _ => 1

namespace Pc

/-- How often the thread has entered the maintenance fence. -/
def inMaintenance : Pc Hash → Nat
  | .finish k f => k.depth + f.entered
  | .update _ p => p.entered
  | .poll _ | .compareAgain _ => 1
  | _ => 0

def inFence : Pc Hash → Nat
  | .inside => 1
  | _ => 0

def inCritical : Pc Hash → Nat
  | .finish _ f =>
    match f with
    | .drainout | .done | .close | .drain | .replace | .open | .endDrainout | .leaveCritical => 1
    | _ => 0
  | _ => 0

/-- The thread has closed the fence. -/
def closes : Pc Hash → Nat
  | .finish _ f =>
    match f with
    | .drain | .replace | .open => 1
    | _ => 0
  | _ => 0

/-- The thread is on the way into drainout mode. -/
def starts : Pc Hash → Nat
  | .update _ p =>
    match p with
    | .reset | .request | .advance => 1
    | _ => 0
  | _ => 0

/-- The thread ends the drainout mode. -/
def finishes : Pc Hash → Bool
  | .finish _ f =>
    match f with
    | .done | .close | .drain | .replace | .open | .endDrainout => true
    | _ => false
  | _ => false

/-- The thread has seen that the caches are evicted. -/
def evicted : Pc Hash → Bool
  | .finish _ f =>
    match f with
    | .close | .drain | .replace | .open | .endDrainout => true
    | _ => false
  | _ => false

/-- The thread has seen that it is not in maintenance mode, and acts on it. -/
def deep : Pc Hash → Bool
  | .finish (.root _) _ => true
  | .finish _ f =>
    match f with
    | .test | .add | .maintenance | .leave => false
    | _ => true
  | .update _ p =>
    match p with
    | .dryrun | .cas | .reset | .request | .advance => true
    | _ => false
  | .poll _ | .compareAgain _ => true
  | _ => false

/-- `ChangeRoot` has entered the maintenance fence and may enter it again. -/
def nests : Pc Hash → Bool
  | .finish (.root _) _ => true
  | .update (.root _) p =>
    match p with
    | .maintenance | .dryrun | .cas | .reset | .request | .advance => true
    | _ => false
  | .poll _ => true
  | _ => false

theorem inMaintenance_of_deep {pc : Pc Hash} (h : pc.deep = true) : 0 < pc.inMaintenance := by
  cases pc with
  | finish k f =>
    cases k with
    | root => exact lt_of_lt_of_le zero_lt_one (le_add_right _ _)
    | _ => cases f <;> first | exact zero_lt_one | cases h
  | update u p => cases p <;> first | exact zero_lt_one | cases h
  | poll | compareAgain => exact zero_lt_one
  | _ => cases h

theorem inCritical_of_finishes {pc : Pc Hash} (h : pc.finishes = true) : pc.inCritical = 1 := by
  cases pc with
  | finish k f => cases f <;> first | rfl | cases h
  | _ => cases h

theorem finishes_of_evicted {pc : Pc Hash} (h : pc.evicted = true) : pc.finishes = true := by
  cases pc with
  | finish k f => cases f <;> first | rfl | cases h
  | _ => cases h

theorem deep_of_inCritical {pc : Pc Hash} (h : 0 < pc.inCritical) : pc.deep = true := by
  cases pc with
  | finish k f => cases k <;> cases f <;> first | rfl | cases h
  | _ => cases h

end Pc

/-! ## Conservation -/

/-- The weight of the place after a step. -/
def weigh (f : Pc Hash → Nat) (pc : Option (Pc Hash)) : Nat := (pc.map f).getD 0

/-- The place after a step has a property. -/
def holds (f : Pc Hash → Bool) (pc : Option (Pc Hash)) : Bool := (pc.map f).getD false

theorem afterLeave_eq_some {u status} {pc : Pc Hash} (h : afterLeave u status = some pc) :
    pc = .finish .sync .test := by
  unfold afterLeave at h
  split at h <;> cases h
  rfl

theorem holds_afterLeave {f} (hf : f (.finish .sync .test) = false) (u : Updater Hash)
    (status : Status) : holds f (afterLeave u status) = false := by
  unfold afterLeave
  split
  · exact hf
  · rfl

namespace Runs

variable {sh sh' : Shared Hash} {pc : Pc Hash} {pc' : Option (Pc Hash)}

theorem weigh_afterLeave {f} (hf : f (.finish .sync .test) = 0) (u : Updater Hash) (status : Status) :
    weigh f (afterLeave u status) = 0 := by
  unfold afterLeave
  split
  · exact hf
  · rfl

section

variable (h : Runs sh pc sh' pc')
include h

theorem counterMaintenance (hle : pc.inMaintenance ≤ sh.fenceMaintenance.counter) :
    sh'.fenceMaintenance.counter + pc.inMaintenance =
      sh.fenceMaintenance.counter + weigh Pc.inMaintenance pc' := by
  cases h with
  | @leave k =>
    cases k with
    | root => exact congrArg (· + 1) (Nat.sub_add_cancel (Nat.le_of_succ_le hle))
    | _ => exact Nat.sub_add_cancel hle
  | updateLeave =>
    rw [weigh_afterLeave rfl]
    exact Nat.sub_add_cancel hle
  | dryrun load => cases load <;> rfl
  | enter | updateEnter => exact Nat.add_right_comm _ _ _
  | _ => rfl

theorem counterFence (hle : pc.inFence ≤ sh.fence.counter) :
    sh'.fence.counter + pc.inFence = sh.fence.counter + weigh Pc.inFence pc' := by
  cases h with
  | @leave k => cases k <;> rfl
  | updateLeave =>
    rw [weigh_afterLeave rfl]
    rfl
  | fenceEnter => exact Nat.add_right_comm _ _ _
  | fenceLeave => exact Nat.sub_add_cancel hle
  | _ => rfl

theorem counterCritical (hle : pc.inCritical ≤ sh.critical) :
    sh'.critical + pc.inCritical = sh.critical + weigh Pc.inCritical pc' := by
  cases h with
  | @leave k => cases k <;> rfl
  | updateLeave =>
    rw [weigh_afterLeave rfl]
    rfl
  | acquire hzero =>
    rw [hzero]
    rfl
  | release => exact Nat.sub_add_cancel hle
  | _ => rfl

theorem counterClosed (hopen : (∃ k, pc = .finish k .close) → sh.fence.blocking = false)
    (hclosed : 0 < pc.closes → sh.fence.blocking = true) :
    sh'.fence.blocking.toNat + pc.closes = sh.fence.blocking.toNat + weigh Pc.closes pc' := by
  cases h with
  | @leave k => cases k <;> rfl
  | updateLeave =>
    rw [weigh_afterLeave rfl]
    rfl
  | close =>
    rw [hopen ⟨_, rfl⟩]
    rfl
  | reopen =>
    rw [hclosed zero_lt_one]
    rfl
  | _ => rfl

theorem counterStarts (hone : 0 < pc.starts → sh.drainout = 1)
    (htwo : pc.finishes = true → sh.drainout = 2) :
    (if sh'.drainout = 1 then 1 else 0) + pc.starts =
      (if sh.drainout = 1 then 1 else 0) + weigh Pc.starts pc' := by
  cases h with
  | @leave k => cases k <;> rfl
  | updateLeave =>
    rw [weigh_afterLeave rfl]
    rfl
  | dryrun load => cases load <;> rfl
  | start hzero =>
    rw [hzero]
    rfl
  | checkAdvance | rootAdvance =>
    rw [hone zero_lt_one]
    rfl
  | endDrainout =>
    rw [htwo rfl]
    rfl
  | _ => rfl

end

end Runs

end Cvmfs.Remount
