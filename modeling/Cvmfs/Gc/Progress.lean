import Cvmfs.Gc.SweepOrder

/-! # The invariant of a collection

`Progress` says for each phase of `Collect` what the passes that are over have
left behind and what the pass at work keeps. It holds in every state that any
interleaving of the threads reaches, whatever the fetches return; the theorems
about whole collections read their facts off the phase.
-/

namespace Cvmfs.Gc

open Cvmfs.Lib State Pool Option List

variable {H : Type} [DecidableEq H] {cfg : Configuration H} {s s' : State H}

/-- The outcome of the two mark passes, and the entries left to sweep. -/
structure MarkingDone (cfg : Configuration H) (done filter toSweep : List H) : Prop where
  marked : Marked cfg done filter
  tags : ∀ tags, cfg.repository.history = .ok tags → ∀ t ∈ tags, t ∈ done
  toSweep : toSweep = cfg.repository.reflog.filter fun h =>
    cfg.repository.digest h ∉ filter.map cfg.repository.digest

structure TrunkPhase (cfg : Configuration H) (s : State H) : Prop where
  reflog : s.reflog = cfg.repository.reflog
  listeners : s.pool.shared.listeners = []
  visits : Visits (trunkAudit cfg) [] s.pool
  head : ∀ h, cfg.repository.head = some h → s.pool.shared.Known h

structure TagsPhase (cfg : Configuration H) (s : State H) (tags done₀ filter₀ : List H)
    (htags : cfg.repository.history = .ok tags) : Prop where
  reflog : s.reflog = cfg.repository.reflog
  listeners : s.pool.shared.listeners = []
  marked : Marked cfg done₀ filter₀
  visits : Visits (tagsAudit cfg htags filter₀) done₀ s.pool
  known : ∀ x, x ∈ done₀ ∨ x ∈ tags → s.pool.shared.Known x

structure SweepPhase (cfg : Configuration H) (s : State H) (toSweep done₀ filter : List H) :
    Prop where
  reflog : s.reflog = cfg.repository.reflog
  marking : MarkingDone cfg done₀ filter toSweep
  visits : Visits (sweepAudit cfg filter toSweep) done₀ s.pool
  depthFirst : DepthFirst cfg.env s.pool.shared s.pool.threads
  known : ∀ x, x ∈ done₀ ∨ x ∈ toSweep → s.pool.shared.Known x
  ordered : Function.Injective cfg.repository.digest →
    Ordered cfg.repository filter s.marks.deleteRequests

/-- The sweep is over; `success` tells how it went. Entries leave the reflog only
after everything they lead to has been requested. -/
structure AfterSweep (cfg : Configuration H) (s : State H) (success : Bool)
    (toSweep done₀ filter : List H) : Prop where
  marking : MarkingDone cfg done₀ filter toSweep
  sweepOk : SweepOk cfg filter toSweep s.marks
  ordered : Function.Injective cfg.repository.digest →
    Ordered cfg.repository filter s.marks.deleteRequests
  complete : success = true → Complete cfg toSweep s.marks
  reflog : s.reflog = cfg.repository.reflog ∨ cfg.dryRun = false ∧ Complete cfg toSweep s.marks

/-- The collection stopped while marking. -/
structure Abandoned (cfg : Configuration H) (s : State H) : Prop where
  reflog : s.reflog = cfg.repository.reflog
  requests : s.marks.deleteRequests = []
  removals : s.marks.removals = []

def Progress (cfg : Configuration H) (s : State H) : Prop :=
  match s.phase with
  | .trunk => TrunkPhase cfg s
  | .tags => ∃ tags done₀ filter₀ htags, TagsPhase cfg s tags done₀ filter₀ htags
  | .sweep toSweep => ∃ done₀ filter, SweepPhase cfg s toSweep done₀ filter
  | .unlog _ success => ∃ toSweep done₀ filter, AfterSweep cfg s success toSweep done₀ filter
  | .returned success => success = false ∧ Abandoned cfg s ∨
      ∃ toSweep done₀ filter, AfterSweep cfg s success toSweep done₀ filter

/-! ## Between the passes -/

/-- A pool between two passes: nothing is queued or in process. -/
structure Quiet (s : State H) : Prop where
  pre : s.pool.shared.pre = []
  post : s.pool.shared.post = []
  processing : s.pool.shared.processing = []
  listeners : s.pool.shared.listeners = []

theorem mem_selectStarts (cfg : Configuration H) (s : State H) {list h} :
    h ∈ s.pool.shared.selectStarts cfg.env list ↔ h ∈ list ∧ h ∉ s.pool.shared.done := by
  simp [Shared.selectStarts, Configuration.env, Configuration.getTraversalParams]

theorem known_starts {list hs x} (hsel : s.pool.shared.selectStarts cfg.env list = hs)
    (hx : x ∈ s.pool.shared.done ∨ x ∈ list) : (s.pool.shared.pushStarts hs).Known x := by
  obtain ⟨hknown, -⟩ := pushStarts_spec s.pool.shared hs
  by_cases hd : x ∈ s.pool.shared.done
  · exact (hknown x).mpr (.inl (.inl hd))
  · refine (hknown x).mpr (.inr ?_)
    rw [← hsel]
    exact (mem_selectStarts cfg s).mpr ⟨hx.resolve_left hd, hd⟩

theorem progress_sweepReflog (hq : Quiet s) (hreflog : s.reflog = cfg.repository.reflog)
    (hm : Marked cfg s.pool.shared.done s.marks.hashFilter)
    (htags : ∀ tags, cfg.repository.history = .ok tags → ∀ t ∈ tags, t ∈ s.pool.shared.done)
    (hreq : s.marks.deleteRequests = []) (hrem : s.marks.removals = []) :
    Progress cfg (s.sweepReflog cfg) := by
  have hdone : MarkingDone cfg s.pool.shared.done s.marks.hashFilter (s.toSweep cfg) :=
    ⟨hm, htags, by simp only [toSweep, hreflog]⟩
  have hok : SweepOk cfg s.marks.hashFilter (s.toSweep cfg) s.marks :=
    ⟨rfl, by simp [hreq], by simp [hreq], by simp [hreq, hrem]⟩
  have hord : Ordered cfg.repository s.marks.hashFilter s.marks.deleteRequests := by
    rw [hreq]
    exact ordered_nil
  unfold sweepReflog
  split
  · exact .inl ⟨rfl, hreflog, hreq, hrem⟩
  unfold traverseList
  split
  case h_1 hsel =>
    refine ⟨s.toSweep cfg, _, _, hdone, hok, fun _ => hord, fun _ => ?_, .inl hreflog⟩
    refine complete_of_done hm rfl fun r hr => ?_
    by_contra hnd
    have hmem := (mem_selectStarts cfg s).mpr ⟨hr, hnd⟩
    rw [hsel] at hmem
    cases hmem
  case h_2 h hs hsel =>
    have hmem : ∀ x ∈ h :: hs, x ∈ s.toSweep cfg ∧ x ∉ s.pool.shared.done := fun x hx =>
      (mem_selectStarts cfg s).mp (hsel ▸ hx)
    have hnodup : (h :: hs).Nodup := by
      rw [← hsel]
      refine Nodup.filter _ (nodup_reverse.mpr ?_)
      rw [hdone.toSweep]
      exact cfg.repository.reflog_nodup.filter _
    have hclient : (s.pool.shared.pushStarts (h :: hs)).client = s.marks :=
      (pushStarts_spec s.pool.shared (h :: hs)).2.2.2.2.2
    refine ⟨_, _, hreflog, hdone, ?_, ?_, fun x hx => known_starts hsel hx, ?_⟩
    · refine Visits.spawn hq.pre hq.post hq.listeners hok fun i x hx => ?_
      exact ⟨x, (hmem x hx).1, .refl⟩
    · refine DepthFirst.spawn hq.pre hq.post hq.processing hq.listeners hnodup
        (fun x hx => (hmem x hx).2) fun x hx c hc n hn => hm.nested x hx c hc n hn
    · intro _
      simpa only [marks, spawn, hclient] using hord

theorem quiet_of_join (hjoin : s.pool.join = some true) (hlis : s.pool.shared.listeners = []) :
    Quiet s :=
  let ⟨hproc, hpre, hpost⟩ := join_true hjoin
  ⟨hpre, hpost, hproc, hlis⟩

theorem progress_traverseNamedSnapshots (h : TrunkPhase cfg s) (hjoin : s.pool.join = some true) :
    Progress cfg (s.traverseNamedSnapshots cfg) := by
  have hm := marked_of_trunk h.visits h.head hjoin
  have hq := quiet_of_join hjoin h.listeners
  have hgood : MarkOk cfg [] s.marks := h.visits.client
  unfold traverseNamedSnapshots
  split
  case h_1 => exact .inl ⟨rfl, h.reflog, hgood.requests, hgood.removals⟩
  case h_2 hhist =>
    refine progress_sweepReflog hq h.reflog hm (fun tags ht => ?_) hgood.requests hgood.removals
    rw [hhist] at ht
    cases ht
  case h_3 tags htags =>
    unfold traverseList
    split
    case h_1 hsel =>
      refine progress_sweepReflog hq h.reflog hm (fun tags' ht t htt => ?_) hgood.requests
        hgood.removals
      rw [htags] at ht
      cases ht
      by_contra hnd
      have hmem := (mem_selectStarts cfg s).mpr ⟨mem_dedup.mpr htt, hnd⟩
      rw [hsel] at hmem
      cases hmem
    case h_2 x hs hsel =>
      refine ⟨tags, s.pool.shared.done, s.marks.hashFilter, htags, h.reflog, ?_, hm, ?_, ?_⟩
      · exact (pushStarts_spec s.pool.shared (x :: hs)).2.2.2.2.1.trans h.listeners
      · refine Visits.spawn hq.pre hq.post hq.listeners ?_ fun i y hy => ?_
        · exact { hgood with kept := fun _ hx => hx }
        · rw [← hsel] at hy
          exact ⟨y, mem_dedup.mp ((mem_selectStarts cfg s).mp hy).1, .refl⟩
      · intro y hy
        exact known_starts hsel (hy.imp id mem_dedup.mpr)

/-! ## Steps -/

theorem TagsPhase.sweepReflog {tags done₀ filter₀ htags}
    (h : TagsPhase cfg s tags done₀ filter₀ htags) (hjoin : s.pool.join = some true) :
    Progress cfg (s.sweepReflog cfg) := by
  have hm := h.marked.tags h.visits (fun x hx => h.known x (.inl hx)) hjoin
  have hgood : MarkOk cfg filter₀ s.marks := h.visits.client
  refine progress_sweepReflog (quiet_of_join hjoin h.listeners) h.reflog hm ?_ hgood.requests
    hgood.removals
  intro tags' ht t htt
  rw [htags] at ht
  cases ht
  exact (known_of_join hjoin t).mp (h.known t (.inr htt))

theorem SweepPhase.afterSweep {toSweep done₀ filter ok} (h : SweepPhase cfg s toSweep done₀ filter)
    (hjoin : s.pool.join = some ok) :
    AfterSweep cfg { s with phase := .unlog toSweep ok } ok toSweep done₀ filter where
  marking := h.marking
  sweepOk := h.visits.client
  ordered := h.ordered
  complete hok := by
    subst hok
    exact complete_of_sweep h.marking.marked h.visits (fun x hx => h.known x (.inl hx))
      (fun x hx => h.known x (.inr hx)) hjoin
  reflog := .inl h.reflog

theorem progress_main (h : Progress cfg s) (hmain : s.main cfg = some s') : Progress cfg s' := by
  unfold main at hmain
  unfold Progress at h
  split at hmain <;> rename_i hphase <;> rw [hphase] at h
  · obtain ⟨ok, hjoin, rfl⟩ := map_eq_some_iff.mp hmain
    cases ok with
    | true => exact progress_traverseNamedSnapshots h hjoin
    | false => exact .inl ⟨rfl, h.reflog, h.visits.client.requests, h.visits.client.removals⟩
  · obtain ⟨ok, hjoin, rfl⟩ := map_eq_some_iff.mp hmain
    obtain ⟨tags, done₀, filter₀, htags, h⟩ := h
    cases ok with
    | true => exact h.sweepReflog hjoin
    | false => exact .inl ⟨rfl, h.reflog, h.visits.client.requests, h.visits.client.removals⟩
  · obtain ⟨ok, hjoin, rfl⟩ := map_eq_some_iff.mp hmain
    obtain ⟨done₀, filter, h⟩ := h
    exact ⟨_, _, _, h.afterSweep hjoin⟩
  · obtain ⟨toSweep, done₀, filter, h⟩ := h
    cases hmain
    unfold removeCatalogFromReflog
    split
    · exact ⟨toSweep, done₀, filter, { h with }⟩
    case isFalse hdry =>
      have hdry : cfg.dryRun = false := by simpa using hdry
      split
      · exact ⟨toSweep, done₀, filter, { h with reflog := .inr ⟨hdry, h.complete rfl⟩ }⟩
      · exact ⟨toSweep, done₀, filter, { h with complete := by simp }⟩
  · obtain ⟨toSweep, done₀, filter, h⟩ := h
    cases hmain
    exact ⟨toSweep, done₀, filter, { h with complete := by simp }⟩
  · obtain ⟨toSweep, done₀, filter, h⟩ := h
    cases hmain
    refine .inr ⟨toSweep, done₀, filter, { h with complete := fun hok => ?_ }⟩
    exact h.complete (Bool.and_eq_true_iff.mp hok).1
  · cases hmain

theorem progress_thread {i p} (h : Progress cfg s) (hphase : ∀ rest ok, s.phase ≠ .unlog rest ok)
    (hret : ∀ ok, s.phase ≠ .returned ok)
    (hstep : s.pool.step cfg.env (cfg.mode s.phase) (cfg.listener s.phase) i = some p) :
    Progress cfg { s with pool := p } := by
  unfold Progress at h ⊢
  cases hp : s.phase with
  | trunk =>
    simp only [hp] at h hstep ⊢
    obtain ⟨hv, hknown⟩ := h.visits.step rfl hstep
    obtain ⟨_, _, _, _, _, hadv, _⟩ := step_cases hstep
    exact ⟨h.reflog, (advance_listeners rfl hadv).trans h.listeners, hv,
      fun x hx => hknown x (h.head x hx)⟩
  | tags =>
    simp only [hp] at h hstep ⊢
    obtain ⟨tags, done₀, filter₀, htags, h⟩ := h
    obtain ⟨hv, hknown⟩ := h.visits.step rfl hstep
    obtain ⟨_, _, _, _, _, hadv, _⟩ := step_cases hstep
    exact ⟨tags, done₀, filter₀, htags, h.reflog, (advance_listeners rfl hadv).trans h.listeners,
      h.marked, hv, fun x hx => hknown x (h.known x hx)⟩
  | sweep toSweep =>
    simp only [hp] at h hstep ⊢
    obtain ⟨done₀, filter, h⟩ := h
    obtain ⟨hv, hknown⟩ := h.visits.step rfl hstep
    have hlink : ∀ j c, .link j c ∈ s.pool.threads → cfg.env.fetch j.hash = .ok c :=
      fun j c ht => (h.visits.threads _ ht).2
    obtain ⟨a, b, t, t', hts, hadv, -⟩ := step_cases hstep
    exact ⟨done₀, filter, h.reflog, h.marking, hv, h.depthFirst.step rfl rfl hlink hstep,
      fun x hx => hknown x (h.known x hx),
      fun hdigest => (h.ordered hdigest).advance h.marking.marked h.visits h.depthFirst hdigest
        (by simp [hts]) hadv⟩
  | unlog rest ok => exact absurd hp (hphase rest ok)
  | returned ok => exact absurd hp (hret ok)

theorem progress_start (cfg : Configuration H) : Progress cfg (start cfg) := by
  unfold start
  split
  · exact .inl ⟨rfl, rfl, rfl, rfl⟩
  case h_2 h hhead =>
    obtain ⟨hknown, -, -, -, hlis, -⟩ := pushStarts_spec (freshShared : Shared H (Marks H)) [h]
    have hroot : cfg.OnTrunk 0 h := .head hhead
    have hgood : MarkOk cfg [] (freshShared : Shared H (Marks H)).client :=
      ⟨by simp [freshShared], by simp, rfl, rfl⟩
    refine ⟨rfl, hlis, ?_, fun x hx => ?_⟩
    · change Visits (trunkAudit cfg) (freshShared : Shared H (Marks H)).done _
      refine Visits.spawn rfl rfl rfl hgood ?_
      intro i x hx
      rw [mem_singleton.mp hx]
      refine .inl ⟨rfl, hroot, fun d _ => Nat.zero_le d, fun d y hd hy => ?_⟩
      obtain rfl : d = 0 := Nat.le_zero.mp hd
      exact (hknown y).mpr (.inr (by simp [hy.unique hroot]))
    · rw [hhead] at hx
      cases hx
      exact (hknown h).mpr (.inr (by simp))

/-- **The invariant of a collection**, for every interleaving. -/
theorem progress_of_reachable (h : Reachable cfg s) : Progress cfg s := by
  refine System.Reach.invariant (P := Progress cfg) ?_ ?_ h
  · rintro s rfl
    exact progress_start cfg
  intro s ev s' hs _ hstep
  cases ev with
  | main => exact progress_main hs hstep
  | thread i =>
    change s.next cfg (.thread i) = some s' at hstep
    simp only [State.next] at hstep
    split at hstep
    case h_4 => cases hstep
    case h_5 => cases hstep
    all_goals
      rename_i hphase
      obtain ⟨p, hp, rfl⟩ := map_eq_some_iff.mp hstep
      exact progress_thread hs (by simp [hphase]) (by simp [hphase]) hp

end Cvmfs.Gc
