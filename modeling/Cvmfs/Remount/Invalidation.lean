import Cvmfs.Remount.Maintenance

/-! # The invalidation of kernel caches

Outside of maintenance mode there is one request for each drainout, and the handle says
whether it is done. With the counters and the maintenance mode this is the invariant of the
remounter. -/

namespace Cvmfs.Remount

open Shared Nat Pc

variable {Hash : Type}

/-- Requests that are not done. -/
def Shared.pending (sh : Shared Hash) : List Nat := sh.working.toList ++ sh.channel

/-- The request for the current drainout is made, and the handle tells its state. -/
def Shared.Requested (sh : Shared Hash) : Prop :=
  sh.asked < sh.requests ∧ ((sh.pending = [sh.asked] ∧ sh.handleDone = false) ∨
    (sh.pending = [] ∧ sh.handleDone = true))

/-- The variables of the invalidator are the same. -/
structure SameHandle (sh sh' : Shared Hash) : Prop where
  channel : sh'.channel = sh.channel := by rfl
  working : sh'.working = sh.working := by rfl
  done : sh'.handleDone = sh.handleDone := by rfl
  requests : sh'.requests = sh.requests := by rfl
  asked : sh'.asked = sh.asked := by rfl

variable {sh sh' : Shared Hash}

theorem SameHandle.pending (h : SameHandle sh sh') : sh'.pending = sh.pending := by
  rw [Shared.pending, Shared.pending, h.channel, h.working]

theorem SameHandle.requested (h : SameHandle sh sh') (hr : sh.Requested) : sh'.Requested := by
  unfold Requested at *
  rwa [h.pending, h.done, h.requests, h.asked]

theorem Shared.Requested.evicted {r : Nat} (h : sh.Requested)
    (hr : sh.working = some r) :
    Requested { sh with working := none, handleDone := true } := by
  obtain ⟨hlt, ⟨hpending, -⟩ | ⟨hnil, -⟩⟩ := h
  · rw [pending, hr] at hpending
    exact ⟨hlt, .inr ⟨(List.cons.inj hpending).2, rfl⟩⟩
  · rw [pending, hr] at hnil
    cases hnil

namespace Runs

variable {sh sh' : Shared Hash} {pc : Pc Hash} {pc' : Option (Pc Hash)}

section

variable (h : Runs sh pc sh' pc')
include h

theorem handle_cases :
    (SameHandle sh sh' ∧ pc ≠ .maintain .request ∧ ∀ u, pc ≠ .update u .reset ∧
        pc ≠ .update u .request) ∨
      (∃ u, pc = .update u .reset ∧ sh' = { sh with handleDone := false } ∧
        pc' = some (.update u .request)) ∨
      (∃ u, pc = .update u .request ∧ sh' = { sh.push with asked := sh.requests } ∧
        pc' = some (.update u .advance)) ∨
      (pc = .maintain .reset ∧ sh' = { sh with handleDone := false } ∧
        pc' = some (.maintain .request)) ∨
      (pc = .maintain .request ∧ sh' = sh.push ∧ pc' = some (.maintain .wait)) := by
  cases h with
  | reset => exact .inr (.inl ⟨_, rfl, rfl, rfl⟩)
  | request => exact .inr (.inr (.inl ⟨_, rfl, rfl, rfl⟩))
  | flush => exact .inr (.inr (.inr (.inl ⟨rfl, rfl, rfl⟩)))
  | flushRequest => exact .inr (.inr (.inr (.inr ⟨rfl, rfl, rfl⟩)))
  | _ => exact .inl ⟨{}, by simp, by simp⟩

theorem evicted (hd : holds evicted pc' = true) :
    sh'.handleDone = sh.handleDone ∧ (pc.evicted = true ∨ sh.handleDone = true) := by
  cases h with
  | done hdone => exact ⟨rfl, .inr hdone⟩
  | close | undrained | drained | replace | reopen => exact ⟨rfl, .inl rfl⟩
  | @leave k => cases k <;> cases hd
  | updateLeave =>
    rw [holds_afterLeave rfl] at hd
    cases hd
  | _ => cases hd

theorem into {d} (hd : pc' = some d) : match d with
    | .update _ .reset => sh.drainout = 0
    | .update u .request => pc = .update u .reset
    | .update u .advance => pc = .update u .request
    | .finish _ .replace => sh'.fence.counter = 0
    | .maintain .wait => pc = .maintain .request ∨ pc = .maintain .wait
    | _ => True := by
  cases h with
  | start hzero | drained hzero =>
    cases hd
    exact hzero
  | reset | request =>
    cases hd
    rfl
  | flushRequest =>
    cases hd
    exact .inl rfl
  | flushing =>
    cases hd
    exact .inr rfl
  | @leave k => cases k <;> cases hd <;> trivial
  | updateLeave =>
    cases afterLeave_eq_some hd
    trivial
  | dryrun load => cases load <;> cases hd <;> trivial
  | _ => cases hd <;> trivial

theorem drainout_changed :
    sh'.drainout = sh.drainout ∨ sh'.drainout = 1 ∨ (∃ u, pc = .update u .advance) ∨
      pc.evicted = true := by
  cases h with
  | start => exact .inr (.inl rfl)
  | checkAdvance | rootAdvance => exact .inr (.inr (.inl ⟨_, rfl⟩))
  | endDrainout => exact .inr (.inr (.inr rfl))
  | _ => exact .inl rfl

end

end Runs

namespace State

variable {s : State Hash} {t u : Nat} {sh' : Shared Hash} {pc d : Pc Hash} {pc' : Option (Pc Hash)}

structure Handle (s : State Hash) : Prop where
  calm : s.shared.maintenance = false → s.shared.drainout = 0 → s.shared.pending = []
  reset : s.shared.maintenance = false → ∀ t u, s.calls.find? t = some (.update u .reset) →
    s.shared.pending = []
  request : s.shared.maintenance = false → ∀ t u, s.calls.find? t = some (.update u .request) →
    s.shared.pending = [] ∧ s.shared.handleDone = false
  advance : s.shared.maintenance = false → ∀ t u, s.calls.find? t = some (.update u .advance) →
    s.shared.Requested
  asked : s.shared.maintenance = false → s.shared.drainout = 2 → s.shared.Requested
  evicted : ∀ t pc, s.calls.find? t = some pc → pc.evicted = true → s.shared.handleDone = true
  waits : ∀ t, s.calls.find? t = some (.maintain .wait) → s.shared.handleDone = true ∨
    s.shared.pending ≠ [] ∨ ∃ u, s.calls.find? u = some (.maintain .request)

theorem Counts.alone_starts (h : s.Counts) (ht : s.calls.find? t = some pc)
    (hu : s.calls.find? u = some d) (hpc : pc.starts = 1) (hd : d.starts = 1) : u = t := by
  by_contra hne
  have := add_le_total ht hu hne Pc.starts
  have := h.starts
  split at this <;> omega

theorem Handle.move_same (h : s.Handle) (hc : s.Counts)
    (ht : s.calls.find? t = some pc) (hr : Runs s.shared pc sh' pc')
    (hsame : SameHandle s.shared sh') (hpc : pc ≠ .maintain .request)
    (hupdate : ∀ u, pc ≠ .update u .reset ∧ pc ≠ .update u .request)
    (hmode : sh'.maintenance = false → s.shared.maintenance = false) :
    (s.move t sh' pc').Handle := by
  constructor
  · rw [shared_move, hsame.pending]
    intro hmaint hzero
    rcases hr.drainout_changed with heq | hone | ⟨u, rfl⟩ | hev
    · exact h.calm (hmode hmaint) (heq ▸ hzero)
    · omega
    · have := hc.drainout_of_starts ht zero_lt_one
      cases hr <;> dsimp only at hzero <;> omega
    have htwo := hc.finishes t pc ht (finishes_of_evicted hev)
    have hdone := h.evicted t pc ht hev
    rcases (h.asked (hmode hmaint) htwo).2 with ⟨-, hfalse⟩ | ⟨hnil, -⟩
    · cases hdone.symm.trans hfalse
    · exact hnil
  · rw [shared_move, hsame.pending]
    intro hmaint u up hu
    rcases of_move hu with ⟨-, hd⟩ | ⟨-, hu⟩
    · exact h.calm (hmode hmaint) (hr.into hd)
    · exact h.reset (hmode hmaint) u up hu
  · rw [shared_move, hsame.pending, hsame.done]
    intro hmaint u up hu
    rcases of_move hu with ⟨-, hd⟩ | ⟨-, hu⟩
    · exact absurd (hr.into hd) (hupdate up).1
    · exact h.request (hmode hmaint) u up hu
  · rw [shared_move]
    intro hmaint u up hu
    rcases of_move hu with ⟨-, hd⟩ | ⟨-, hu⟩
    · exact absurd (hr.into hd) (hupdate up).2
    · exact hsame.requested (h.advance (hmode hmaint) u up hu)
  · rw [shared_move]
    intro hmaint htwo
    refine hsame.requested ?_
    rcases hr.drainout_changed with heq | hone | ⟨u, rfl⟩ | hev
    · exact h.asked (hmode hmaint) (heq ▸ htwo)
    · omega
    · exact h.advance (hmode hmaint) t u ht
    · exact h.asked (hmode hmaint) (hc.finishes t pc ht (finishes_of_evicted hev))
  · rw [shared_move]
    intro u d hu hd
    rcases of_move hu with ⟨-, rfl⟩ | ⟨-, hu⟩
    · obtain ⟨heq, hcase⟩ := hr.evicted hd
      exact heq.trans (hcase.elim (h.evicted t pc ht) id)
    · exact hsame.done.trans (h.evicted u d hu hd)
  rw [shared_move, hsame.pending, hsame.done]
  intro u hu
  have hstays : (∃ v, s.calls.find? v = some (.maintain .request)) →
      ∃ v, (s.move t sh' pc').calls.find? v = some (.maintain .request) := by
    rintro ⟨v, hv⟩
    refine ⟨v, find?_move hv ?_⟩
    rintro rfl
    exact hpc (Option.some.inj (ht.symm.trans hv))
  have hbefore : ∃ v, s.calls.find? v = some (.maintain .wait) := by
    rcases of_move hu with ⟨-, hd⟩ | ⟨-, hu⟩
    · exact ⟨t, (hr.into hd).resolve_left hpc ▸ ht⟩
    · exact ⟨u, hu⟩
  obtain ⟨v, hv⟩ := hbefore
  exact (h.waits v hv).imp_right fun h => h.imp_right hstays

theorem Counts.quiet (h : s.Counts) (hm : s.Maintained) {up p}
    (ht : s.calls.find? t = some (.update up p)) (hp : (update up p).starts = 1) :
    s.shared.maintenance = false ∧ s.shared.drainout = 1 ∧ ∀ u d, u ≠ t → s.calls.find? u = some d →
        d.starts ≠ 1 ∧ d.evicted = false ∧ d ≠ .maintain .wait := by
  have hdeep : (update up p).deep = true := by
    cases p <;> first | rfl | cases hp
  have hmode : s.shared.maintenance = false := by
    cases hmt : s.shared.maintenance with
    | false => rfl
    | true => cases hdeep.symm.trans (hm.shallow hmt t _ ht)
  have hone := h.drainout_of_starts ht (hp ▸ zero_lt_one)
  refine ⟨hmode, hone, fun u d hne hu => ⟨fun hd => hne (h.alone_starts ht hu hp hd), ?_, ?_⟩⟩
  · by_contra hev
    have := h.finishes u d hu (finishes_of_evicted (Bool.eq_true_of_not_eq_false hev))
    omega
  · rintro rfl
    cases hmode.symm.trans (hm.fits u .wait hu)

theorem Handle.starts_move (hc : s.Counts) (hm : s.Maintained) {up p q}
    (ht : s.calls.find? t = some (.update up p)) (hp : (update up p).starts = 1)
    (hdrain : sh'.drainout = s.shared.drainout) (hq : q ≠ .reset)
    (hevicted : (update up q).evicted = false)
    (hrequest : q = .request → sh'.pending = [] ∧ sh'.handleDone = false)
    (hadvance : q = .advance → sh'.Requested) : (s.move t sh' (some (.update up q))).Handle := by
  obtain ⟨-, hone, hquiet⟩ := hc.quiet hm ht hp
  rw [← hdrain] at hone
  have hself : ∀ {u up' q'}, (update up' q').starts = 1 →
      (s.move t sh' (some (.update up q))).calls.find? u = some (.update up' q') → q = q' := by
    intro u up' q' hstarts hu
    rcases of_move hu with ⟨-, hd⟩ | ⟨hne, hu⟩
    · cases hd
      rfl
    · exact absurd hstarts (hquiet u _ hne hu).1
  refine ⟨fun _ (hzero : sh'.drainout = 0) => by omega, fun _ u up' hu => absurd (hself rfl hu) hq,
    fun _ u up' hu => hrequest (hself rfl hu), fun _ u up' hu => hadvance (hself rfl hu),
    fun _ (htwo : sh'.drainout = 2) => by omega, fun u d hu hd => ?_, fun u hu => ?_⟩
  · rcases of_move hu with ⟨-, hd'⟩ | ⟨hne, hu⟩
    · cases hd'
      cases hd.symm.trans hevicted
    · exact absurd (hd.symm.trans (hquiet u d hne hu).2.1) (by simp)
  · rcases of_move hu with ⟨-, hd⟩ | ⟨hne, hu⟩
    · cases hd
    · exact absurd rfl (hquiet u _ hne hu).2.2

theorem Handle.reset_move (h : s.Handle) (hc : s.Counts) (hm : s.Maintained) {up}
    (ht : s.calls.find? t = some (.update up .reset)) :
    (s.move t { s.shared with handleDone := false } (some (.update up .request))).Handle := by
  obtain ⟨hmode, -⟩ := hc.quiet hm ht rfl
  exact .starts_move hc hm ht rfl rfl nofun rfl (fun _ => ⟨h.reset hmode t up ht, rfl⟩) nofun

theorem Handle.request_move (h : s.Handle) (hc : s.Counts) (hm : s.Maintained) {up}
    (ht : s.calls.find? t = some (.update up .request)) :
    (s.move t { s.shared.push with asked := s.shared.requests }
      (some (.update up .advance))).Handle := by
  obtain ⟨hmode, -⟩ := hc.quiet hm ht rfl
  obtain ⟨hnil, hundone⟩ := h.request hmode t up ht
  refine .starts_move hc hm ht rfl rfl nofun rfl nofun fun _ =>
    ⟨lt_succ_self _, .inl ⟨?_, hundone⟩⟩
  have : s.shared.working.toList ++ (s.shared.channel ++ [s.shared.requests]) =
      [s.shared.requests] := by
    rw [← List.append_assoc]
    exact congrArg (· ++ [s.shared.requests]) hnil
  exact this

theorem Handle.maintain_move (hm : s.Maintained) {m} (hmode : sh'.maintenance = true)
    (hbefore : s.shared.maintenance = true)
    (hwaits : ∀ u, (s.move t sh' (some (.maintain m))).calls.find? u = some (.maintain .wait) →
      sh'.handleDone = true ∨ sh'.pending ≠ [] ∨
        ∃ v, (s.move t sh' (some (.maintain m))).calls.find? v = some (.maintain .request)) :
    (s.move t sh' (some (.maintain m))).Handle := by
  have hno : sh'.maintenance = false → False := fun h => absurd (hmode.symm.trans h) (by simp)
  refine ⟨fun h => (hno h).elim, fun h => (hno h).elim, fun h => (hno h).elim,
    fun h => (hno h).elim, fun h => (hno h).elim, fun u d hu hd => ?_, hwaits⟩
  rcases of_move hu with ⟨-, hd'⟩ | ⟨-, hu⟩
  · cases hd'
    cases hd
  · have hdeep := deep_of_inCritical
      (lt_of_lt_of_eq zero_lt_one (inCritical_of_finishes (finishes_of_evicted hd)).symm)
    cases hdeep.symm.trans (hm.shallow hbefore u d hu)

theorem Handle.move (h : s.Handle) (hc : s.Counts) (hm : s.Maintained)
    (ht : s.calls.find? t = some pc) (hr : Runs s.shared pc sh' pc') :
    (s.move t sh' pc').Handle := by
  rcases hr.handle_cases with ⟨hsame, hpc, hupdate⟩ | ⟨up, rfl, rfl, rfl⟩ | ⟨up, rfl, rfl, rfl⟩ |
    ⟨rfl, rfl, rfl⟩ | ⟨rfl, rfl, rfl⟩
  · refine h.move_same hc ht hr hsame hpc hupdate fun hfalse => ?_
    rcases hr.maintenance_cases with heq | ⟨-, htrue⟩
    · exact heq ▸ hfalse
    · cases htrue.symm.trans hfalse
  · exact h.reset_move hc hm ht
  · exact h.request_move hc hm ht
  · have hmode : s.shared.maintenance = true := hm.fits t .reset ht
    exact Handle.maintain_move hm hmode hmode fun u _ => .inr (.inr ⟨t, find?_move_self⟩)
  · have hmode : s.shared.maintenance = true := hm.fits t .request ht
    refine Handle.maintain_move hm hmode hmode fun u _ => .inr (.inl ?_)
    simp [pending, push]

/-! ## Invariant -/

structure Sound (s : State Hash) : Prop where
  counts : s.Counts
  maintained : s.Maintained
  handle : s.Handle
  replaces : ∀ t k, s.calls.find? t = some (.finish k .replace) → s.shared.fence.counter = 0
  answers : ∀ a ∈ s.shared.answers, a.2 = a.1

theorem Sound.move (h : s.Sound) (ht : s.calls.find? t = some pc) (hallowed : s.Allowed pc)
    (hr : Runs s.shared pc sh' pc') : (s.move t sh' pc').Sound := by
  refine ⟨h.counts.move ht hr, h.maintained.move h.counts ht hallowed hr,
    h.handle.move h.counts h.maintained ht hr, fun u k hu => ?_, ?_⟩
  · rw [shared_move]
    rcases of_move hu with ⟨-, hd⟩ | ⟨-, hu⟩
    · exact hr.into hd
    have hzero := h.replaces u k hu
    have hblocking := h.counts.blocking_of_closes hu zero_lt_one
    cases hr with
    | fenceEnter => cases hblocking.symm.trans hallowed
    | fenceLeave =>
      simp only [Fence.leave]
      omega
    | _ => exact hzero
  rw [shared_move]
  have hold := h.answers
  cases hr with
  | same heq | sameAgain heq =>
    intro a ha
    rcases List.mem_cons.1 ha with rfl | ha
    · exact heq
    · exact hold a ha
  | _ => exact hold

/-! ## Calls and the invalidator -/

theorem Sound.call (h : s.Sound) (ht : s.calls.find? t = none) (m : Method Hash) :
    (s.move t s.shared (some m.begin)).Sound := by
  obtain ⟨hc, hm, hh, hr, ha⟩ := h
  obtain ⟨-, hevicted, hdeep, hnests⟩ := m.begin_flags
  have hstays : ∀ u d, s.calls.find? u = some d →
      (s.move t s.shared (some m.begin)).calls.find? u = some d := by
    intro u d hu
    refine find?_move hu ?_
    rintro rfl
    rw [ht] at hu
    cases hu
  have hold := fun u d => of_call (s := s) (t := t) (m := m) (u := u) (d := d)
  refine ⟨hc.call ht m, ⟨?_, ?_, ?_, ?_, hm.returned⟩,
    ⟨hh.calm, ?_, ?_, ?_, hh.asked, ?_, ?_⟩, ?_, ha⟩
  · intro hmode u d hu
    rcases of_move hu with ⟨-, hd⟩ | ⟨-, hu⟩
    · cases hd
      exact hdeep
    · exact hm.shallow hmode u d hu
  · intro u p hu
    rcases of_move hu with ⟨-, hd⟩ | ⟨-, hu⟩
    · rw [Method.begin_maintain (Option.some.inj hd)]
      trivial
    · exact hm.fits u p hu
  · intro hb
    obtain ⟨u, d, hu, hd⟩ := hm.blocked hb
    exact ⟨u, d, hstays u d hu, hd⟩
  · intro u d hu hd
    refine hm.nests u d (hold u d hu ?_) hd
    rintro rfl
    cases hd.symm.trans hnests
  · exact fun hmode u up hu => hh.reset hmode u up (hold u _ hu (m.begin_ne up).1)
  · exact fun hmode u up hu => hh.request hmode u up (hold u _ hu (m.begin_ne up).2.1)
  · exact fun hmode u up hu => hh.advance hmode u up (hold u _ hu (m.begin_ne up).2.2)
  · intro u d hu hd
    refine hh.evicted u d (hold u d hu ?_) hd
    rintro rfl
    cases hd.symm.trans hevicted
  · intro u hu
    have hbefore : s.calls.find? u = some (.maintain .wait) := by
      refine hold u _ hu fun hd => ?_
      cases Method.begin_maintain hd.symm
    rcases hh.waits u hbefore with hdone | hpending | ⟨v, hv⟩
    · exact .inl hdone
    · exact .inr (.inl hpending)
    · exact .inr (.inr ⟨v, hstays v _ hv⟩)
  · intro u k hu
    refine hr u k (hold u _ hu fun hd => ?_)
    have hcritical := hd ▸ m.begin_counts.2.2.1
    cases hcritical

theorem Sound.take (h : s.Sound) {sh} (hsame : sh.pending = s.shared.pending)
    (heq : sh = { s.shared with working := sh.working, channel := sh.channel }) :
    State.Sound { s with shared := sh } := by
  obtain ⟨hc, hm, hh, hr, ha⟩ := h
  obtain ⟨working, channel, rfl⟩ : ∃ working channel,
      sh = { s.shared with working := working, channel := channel } := ⟨_, _, heq⟩
  have hrequested : s.shared.Requested →
      Requested { s.shared with working := working, channel := channel } := by
    unfold Requested
    rw [hsame]
    exact id
  refine ⟨{ hc with }, { hm with fits := fun u m hu => (hm.fits u m hu).mono id .inl fun _ => id },
    ⟨?_, ?_, ?_, fun hm u up hu => hrequested (hh.advance hm u up hu),
      fun hm htwo => hrequested (hh.asked hm htwo), hh.evicted, ?_⟩, hr, ha⟩
  all_goals rw [hsame]
  · exact hh.calm
  · exact hh.reset
  · exact hh.request
  · exact hh.waits

theorem Sound.evicted (h : s.Sound) {r : Nat} (hr : s.shared.working = some r) :
    State.Sound { s with shared := { s.shared with working := none, handleDone := true } } := by
  obtain ⟨hc, hm, hh, hrep, ha⟩ := h
  have hpending : s.shared.pending ≠ [] := by
    rw [pending, hr]
    exact List.cons_ne_nil _ _
  exact ⟨{ hc with }, { hm with fits := fun u m hu => (hm.fits u m hu).mono id .inl fun _ => id },
    ⟨fun hm hzero => absurd (hh.calm hm hzero) hpending,
      fun hm u up hu => absurd (hh.reset hm u up hu) hpending,
      fun hm u up hu => absurd (hh.request hm u up hu).1 hpending,
      fun hm u up hu => (hh.advance hm u up hu).evicted hr,
      fun hm htwo => (hh.asked hm htwo).evicted hr, fun _ _ _ _ => rfl, fun _ _ => .inl rfl⟩,
    hrep, ha⟩

theorem Sound.init (root : Hash) : State.Sound { shared := { root } } := by
  have hnone : ∀ {t pc}, ({ shared := { root } } : State Hash).calls.find? t ≠ some pc := by
    intro t pc h
    cases h
  refine ⟨⟨rfl, rfl, rfl, zero_le _, rfl, rfl, fun _ _ h => absurd h hnone, zero_le _⟩,
    ⟨nofun, fun _ _ h => absurd h hnone, nofun, fun _ _ h => absurd h hnone, nofun⟩,
    ⟨fun _ _ => rfl, fun _ _ _ h => absurd h hnone, fun _ _ _ h => absurd h hnone,
      fun _ _ _ h => absurd h hnone, nofun, fun _ _ h => absurd h hnone,
      fun _ h => absurd h hnone⟩, fun _ _ h => absurd h hnone, nofun⟩

end State

/-! ## Runs -/

/-- The steps of threads that the invariant survives; everything else is free. -/
def State.Benign (s : State Hash) : Event Hash → Prop
  | .step t _ _ => ∀ pc, s.calls.find? t = some pc → s.Allowed pc
  | _ => True

variable [DecidableEq Hash] {s s' : State Hash} {null : Hash} {e : Event Hash}

theorem State.step_cases
    (h : s.step null e = some s') :
    (∃ t m, e = .call t m ∧ s.calls.find? t = none ∧ s' = s.move t s.shared (some m.begin)) ∨
    (∃ t load loaded pc sh' pc', e = .step t load loaded ∧ s.calls.find? t = some pc ∧
      Runs s.shared pc sh' pc' ∧ s' = s.move t sh' pc') ∨
    (∃ r rest, e = .take ∧ s.shared.working = none ∧ s.shared.channel = r :: rest ∧
      s' = { s with shared := { s.shared with working := some r, channel := rest } }) ∨
    (∃ r, e = .evicted ∧ s.shared.working = some r ∧
      s' = { s with shared := { s.shared with working := none, handleDone := true } }) := by
  unfold State.step at h
  split at h
  · split at h
    next hnone =>
      cases h
      exact .inl ⟨_, _, rfl, hnone, rfl⟩
    · cases h
  · split at h
    · cases h
    next pc hpc =>
      obtain ⟨r, hr, rfl⟩ := Option.map_eq_some_iff.1 h
      exact .inr (.inl ⟨_, _, _, pc, r.1, r.2, rfl, hpc, runs_of_exec hr, rfl⟩)
  · split at h
    next r rest hw hch =>
      cases h
      exact .inr (.inr (.inl ⟨r, rest, rfl, hw, hch, rfl⟩))
    · cases h
  · split at h
    · cases h
    next r hw =>
      cases h
      exact .inr (.inr (.inr ⟨r, rfl, hw, rfl⟩))

theorem State.Sound.step (h : s.Sound)
    (hb : s.Benign e) (he : s.step null e = some s') : s'.Sound := by
  rcases State.step_cases he with ⟨t, m, -, hnone, rfl⟩ |
    ⟨t, load, loaded, pc, sh', pc', rfl, hpc, hr, rfl⟩ | ⟨r, rest, -, hw, hch, rfl⟩ |
    ⟨r, -, hw, rfl⟩
  · exact h.call hnone m
  · exact h.move hpc (hb pc hpc) hr
  · refine h.take ?_ rfl
    rw [pending, pending, hw, hch]
    rfl
  · exact h.evicted hw

theorem sound_of_reach (h : (remounter null).Reach State.Benign s) : s.Sound := by
  refine h.invariant ?_ fun s e s' hs hb he => hs.step hb he
  rintro s ⟨root, rfl⟩
  exact State.Sound.init root

end Cvmfs.Remount
