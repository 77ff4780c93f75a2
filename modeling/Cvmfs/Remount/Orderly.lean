import Cvmfs.Remount.Progress

/-! # Orderly remounts

In every run whose steps are benign the root is replaced behind closed fences and after the
eviction of the caches, never after `EnterMaintenanceMode` has returned, and every call can
return. The conditions on the steps are there because a fence is tested and entered in two steps,
and `ChangeRoot` enters the maintenance fence twice. -/

namespace Cvmfs.Remount

open Lib (System)

variable {Hash : Type}

/-- A thread is in `Remount` or `ChangeRoot` of the catalog manager. -/
def State.Replacing (s : State Hash) : Prop := ∃ t k, s.calls.find? t = some (.finish k .replace)

/-- The kernel caches are evicted for the current drainout. -/
def Shared.Evicted (sh : Shared Hash) : Prop := sh.asked < sh.requests ∧ sh.asked ∉ sh.pending

structure State.Orderly [DecidableEq Hash] (null : Hash) (s : State Hash) : Prop where
  replaced : ∀ e s', s.step null e = some s' → s'.shared.root ≠ s.shared.root → s.Replacing
  apart : s.Replacing → (∀ t, s.calls.find? t ≠ some .inside) ∧ s.shared.fence.blocking = true ∧
    s.shared.Evicted
  maintained : s.shared.maintained = true → ¬ s.Replacing
  answers : ∀ a ∈ s.shared.answers, a.2 = a.1
  settles : s.Settles null

theorem Runs.root_cases {sh sh' : Shared Hash} {pc : Pc Hash} {pc' : Option (Pc Hash)}
    (h : Runs sh pc sh' pc') : sh'.root = sh.root ∨ ∃ k, pc = .finish k .replace := by
  cases h with
  | replace => exact .inr ⟨_, rfl⟩
  | _ => exact .inl rfl

variable [DecidableEq Hash] {null : Hash} {s s' : State Hash}

theorem replacing_of_step {e : Event Hash} (h : s.step null e = some s')
    (hroot : s'.shared.root ≠ s.shared.root) : s.Replacing := by
  rcases State.step_cases h with ⟨t, m, -, -, rfl⟩ | ⟨t, _, _, pc, sh', pc', -, hpc, hr, rfl⟩ |
    ⟨r, rest, -, -, -, rfl⟩ | ⟨r, -, -, rfl⟩
  · exact absurd rfl hroot
  · rw [State.shared_move] at hroot
    rcases hr.root_cases with heq | ⟨k, rfl⟩
    · exact absurd heq hroot
    · exact ⟨t, k, hpc⟩
  · exact absurd rfl hroot
  · exact absurd rfl hroot

omit [DecidableEq Hash] in
theorem State.Sound.apart (h : s.Sound) (hr : s.Replacing) :
    (∀ t, s.calls.find? t ≠ some .inside) ∧ s.shared.fence.blocking = true ∧ s.shared.Evicted := by
  obtain ⟨t, k, ht⟩ := hr
  refine ⟨fun u hu => ?_, h.counts.blocking_of_closes ht Nat.zero_lt_one, ?_⟩
  · have hle : 1 ≤ s.total Pc.inFence := le_total hu Pc.inFence
    have hzero := h.replaces t k ht
    have hcount := h.counts.fence
    omega
  · have hmode := h.not_maintenance ht (Pc.deep_of_inCritical Nat.zero_lt_one)
    obtain ⟨hlt, ⟨-, hundone⟩ | ⟨hnil, -⟩⟩ := h.handle.asked hmode (h.counts.finishes t _ ht rfl)
    · cases hundone.symm.trans (h.handle.evicted t _ ht rfl)
    · exact ⟨hlt, hnil ▸ List.not_mem_nil⟩

omit [DecidableEq Hash] in
theorem State.Sound.maintained_replacing (h : s.Sound) (hm : s.shared.maintained = true) :
    ¬ s.Replacing := by
  rintro ⟨t, k, ht⟩
  have hmode := h.not_maintenance ht (Pc.deep_of_inCritical Nat.zero_lt_one)
  cases (h.maintained.returned hm).symm.trans hmode

/-- Remounts are orderly in every run that enters open fences only and does not close the
maintenance fence on a `ChangeRoot` that is about to enter it again. -/
theorem orderly_of_benign (h : (remounter null).Reach State.Benign s) : s.Orderly null := by
  have hs := sound_of_reach h
  exact ⟨fun _ _ => replacing_of_step, hs.apart, hs.maintained_replacing, hs.answers,
    hs.settles null⟩

/-! ## Runs -/

def steps (t n : Nat) (load : LoadReturn) : List (Event Nat) :=
  List.replicate n (.step t load none)

/-- `Check` finds a new catalog and the invalidator evicts the caches. -/
def drainout (t : Nat) : List (Event Nat) :=
  [.call t .check] ++ steps t 9 .new ++ [.take, .evicted]

/-- Threads that enter fences while they are open. -/
def carefully (s : State Nat) (e : Event Nat) : Option (State Nat) :=
  match e with
  | .step t _ _ =>
    match s.calls.find? t with
    | some (.finish _ .add) | some (.update _ .add) =>
      if s.shared.fenceMaintenance.blocking then none else s.step 0 e
    | some .fenceAdd => if s.shared.fence.blocking then none else s.step 0 e
    | some (.maintain .close) => none
    | _ => s.step 0 e
  | _ => s.step 0 e

theorem benign_of_carefully {s s' e} (h : carefully s e = some s') :
    s.Benign e ∧ s.step 0 e = some s' := by
  cases e with
  | step t load loaded =>
    have hguard : ∀ {p b}, s.calls.find? t = some p → (b = false → s.Allowed p) →
        (if b = true then none else s.step 0 (.step t load loaded)) = some s' →
        s.Benign (.step t load loaded) ∧ s.step 0 (.step t load loaded) = some s' := by
      intro p b hp hb h
      obtain ⟨hopen, h⟩ := Option.ite_none_left_eq_some.1 h
      refine ⟨fun pc ht => ?_, h⟩
      cases hp.symm.trans ht
      exact hb (Bool.eq_false_of_not_eq_true hopen)
    unfold carefully at h
    dsimp only at h
    split at h
    next hpc => exact hguard hpc id h
    next hpc => exact hguard hpc id h
    next hpc => exact hguard hpc id h
    · cases h
    next hfinish hupdate hfence hclose =>
      refine ⟨fun pc ht => ?_, h⟩
      cases pc with
      | finish k f =>
        cases f with
        | add => exact absurd ht (hfinish k)
        | _ => exact trivial
      | update u p =>
        cases p with
        | add => exact absurd ht (hupdate u)
        | _ => exact trivial
      | maintain m =>
        cases m with
        | close => exact absurd ht hclose
        | _ => exact trivial
      | fenceAdd => exact absurd ht hfence
      | _ => exact trivial
  | _ => exact ⟨trivial, h⟩

/-- A callback gets to the replacement of the root. -/
def plainRemount : List (Event Nat) := drainout 0 ++ [.call 1 (.callback true)] ++ steps 1 8 .new

theorem orderly_of_benign_plainRemount :
    ∃ s, (remounter 0).Reach State.Benign s ∧ s.Replacing ∧ s.Orderly 0 := by
  have hrun : plainRemount.foldlM carefully { shared := { root := 5 } } = some _ := rfl
  have hreach := System.Reach.followIf (S := remounter 0)
    (fun _ _ _ h => benign_of_carefully h) (.init ⟨5, rfl⟩) hrun
  exact ⟨_, hreach, ⟨1, .callback, rfl⟩, orderly_of_benign hreach⟩

theorem reach_of_steps (es : List (Event Nat)) {s}
    (h : es.foldlM (State.step 0) { shared := { root := 5 } } = some s) :
    (remounter 0).Reach System.anyStep s :=
  System.Reach.follow (S := remounter 0) (fun _ _ _ h => h) (.init ⟨5, rfl⟩) h

/-- A callback tests the fence before it is closed and enters it after it is drained: it
queries the catalogs while the root is replaced. -/
theorem replacing_beside_callback : ∃ s, (remounter 0).Reach System.anyStep s ∧ s.Replacing ∧
      ∃ t, s.calls.find? t = some .inside := by
  refine ⟨_, reach_of_steps ([.call 2 (.callback false)] ++ steps 2 1 .new ++ plainRemount ++
    steps 2 1 .new) rfl, ⟨1, .callback, rfl⟩, 2, rfl⟩

/-- The same with the maintenance fence: the root is replaced after `EnterMaintenanceMode` has
returned. -/
theorem replacing_after_maintenance :
    ∃ s, (remounter 0).Reach System.anyStep s ∧ s.shared.maintained = true ∧ s.Replacing := by
  refine ⟨_, reach_of_steps (drainout 0 ++ [.call 1 (.callback true)] ++ steps 1 1 .new ++
    [.call 2 .enterMaintenanceMode] ++ steps 2 2 .new ++ steps 1 2 .new ++ steps 2 4 .new ++
    [.take, .evicted] ++ steps 2 1 .new ++ steps 1 5 .new) rfl, rfl, 1, .callback, rfl⟩

end Cvmfs.Remount
