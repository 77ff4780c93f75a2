import Cvmfs.Gc.Progress

/-! # A collection deletes exactly the garbage

Read off the invariant of `Cvmfs.Gc.Progress` when `Collect` returns true: every
request comes from a tree that is swept and is not in the filter, the filter is
what the preserved revisions need, and nothing in a swept tree is left over.

The code compares the time of a revision with the threshold cast to 32 bits. So
what it preserves is the trunk for the threshold that is cut in this way, and a
threshold of `2 ^ 32` or more keeps revisions that are older than it.
-/

namespace Cvmfs.Gc

variable {H : Type} [DecidableEq H] {cfg : Configuration H} {s : State H}

/-- No fetch of a catalog fails that preserved revisions or reflog entries lead
to. -/
def Loadable (R : Repository H) (depth : Nat) (timestamp : Int) : Prop :=
  ∀ r h, Preserved R depth timestamp r ∨ r ∈ R.reflog → R.InTree r h → ∃ c, R.fetch h = .ok c

section Sweep

variable {toSweep done filter : List H}

section

variable (h : MarkingDone cfg done filter toSweep)
include h

omit [DecidableEq H] in
theorem MarkingDone.mem_toSweep (hdigest : Function.Injective cfg.repository.digest) {r} :
    r ∈ toSweep ↔ r ∈ cfg.repository.reflog ∧ r ∉ filter := by
  rw [h.toSweep, List.mem_filter, decide_eq_true_eq, List.mem_map_of_injective hdigest]

omit [DecidableEq H] in
theorem MarkingDone.mem_of_keeps {r} (hr : cfg.Keeps r) : r ∈ done := by
  rcases hr with ⟨d, hr⟩ | ⟨tags, htags, hr⟩
  · exact h.marked.trunk d r hr
  · exact h.tags tags htags r hr

variable {x g : H} {c : Catalog H}

omit [DecidableEq H] in
theorem MarkingDone.mem_filter {r} (hr : cfg.Keeps r)
    (ht : cfg.repository.InTree r g) (hc : cfg.repository.fetch g = .ok c) (hx : x ∈ g :: c.objects) :
    x ∈ filter :=
  h.marked.filled g (h.marked.inTree (h.mem_of_keeps hr) ht) c hc x hx

omit [DecidableEq H] in
theorem MarkingDone.inTree_of_mem (hg : g ∈ filter) (hc : cfg.repository.fetch g = .ok c) :
    ∃ r, cfg.Keeps r ∧ cfg.repository.InTree r g := by
  obtain ⟨r, hr, a, ht, rfl | ⟨ca, hca, hobj⟩⟩ := h.marked.live g hg
  · exact ⟨r, hr, ht⟩
  · exact absurd hc (cfg.repository.object_not_catalog a ca g hca hobj c)

end

omit [DecidableEq H] in
theorem mem_object_or_self {R : Repository H} (hc : R.fetch g = .ok c)
    (hx : x = g ∨ ∃ c, R.fetch g = .ok c ∧ x ∈ c.objects) : x ∈ g :: c.objects := by
  rcases hx with rfl | ⟨c', hc', hx⟩
  · simp
  · rw [hc] at hc'
    cases hc'
    exact .tail _ hx

section

variable (h : AfterSweep cfg s true toSweep done filter)
  (hdigest : Function.Injective cfg.repository.digest)
  (hload : Loadable cfg.repository cfg.keepHistoryDepth (cutTimestamp cfg.keepHistoryTimestamp))
include h hdigest hload

omit [DecidableEq H] in
theorem AfterSweep.garbage_of_mem (hx : x ∈ s.marks.deleteRequests) :
    Garbage cfg.repository cfg.keepHistoryDepth (cutTimestamp cfg.keepHistoryTimestamp) x := by
  obtain ⟨hxf, r, hr, hcont⟩ := h.sweepOk.source x hx
  rw [h.marking.mem_toSweep hdigest] at hr
  refine ⟨⟨r, hr.1, fun hkeep => ?_, hcont⟩, ?_⟩
  · obtain ⟨c, hc⟩ := hload r r (.inl hkeep) .refl
    exact hr.2 (h.marking.mem_filter hkeep .refl hc (by simp))
  · rintro ⟨r', hkeep, g, ht, hg⟩
    obtain ⟨c, hc⟩ := hload r' g (.inl hkeep) ht
    exact hxf (h.marking.mem_filter hkeep ht hc (mem_object_or_self hc hg))

omit [DecidableEq H] in
theorem AfterSweep.mem_of_garbage
    (hx : Garbage cfg.repository cfg.keepHistoryDepth (cutTimestamp cfg.keepHistoryTimestamp) x) :
    x ∈ s.marks.deleteRequests := by
  obtain ⟨⟨r, hr, -, hcont⟩, hdead⟩ := hx
  have hsweep : r ∈ toSweep := by
    refine (h.marking.mem_toSweep hdigest).mpr ⟨hr, fun hrf => hdead ?_⟩
    obtain ⟨c, hc⟩ := hload r r (.inr hr) .refl
    obtain ⟨r', hkeep, ht⟩ := h.marking.inTree_of_mem hrf hc
    exact ⟨r', hkeep, ht.contains hcont⟩
  obtain ⟨g, ht, hg⟩ := hcont
  obtain ⟨c, hc⟩ := hload r g (.inr hr) ht
  refine ((h.complete rfl r hsweep g ht).2 c hc x (mem_object_or_self hc hg)).requested hdigest ?_
  rw [h.sweepOk.hashFilter]
  exact fun hxf => hdead (h.marking.marked.live x hxf)

end

end Sweep

/-- What `Collect` deletes for any threshold, in terms of the threshold that is
cut to 32 bits. -/
theorem removals_of_returned (hs : Reachable cfg s) (hret : s.phase = .returned true)
    (hdry : cfg.dryRun = false) (hdigest : Function.Injective cfg.repository.digest)
    (hload : Loadable cfg.repository cfg.keepHistoryDepth (cutTimestamp cfg.keepHistoryTimestamp)) :
    s.marks.removals.Nodup ∧ ∀ x, x ∈ s.marks.removals ↔
      Garbage cfg.repository cfg.keepHistoryDepth (cutTimestamp cfg.keepHistoryTimestamp) x := by
  have hp := progress_of_reachable hs
  simp only [Progress, hret] at hp
  rcases hp with ⟨hfalse, -⟩ | ⟨toSweep, done, filter, h⟩
  · cases hfalse
  have hrem : s.marks.removals = s.marks.deleteRequests := by
    simpa [hdry] using h.sweepOk.removals
  rw [hrem]
  exact ⟨h.sweepOk.nodup, fun x =>
    ⟨h.garbage_of_mem hdigest hload, h.mem_of_garbage hdigest hload⟩⟩

/-- **Exactness.** With distinct digests and a threshold of 32 bits, every collection
that returns true requests the removal of each piece of garbage once, and of nothing
else. -/
theorem collect_removes_exactly_garbage (cfg : Configuration H) (s : State H)
    (hdigest : Function.Injective cfg.repository.digest)
    (hts : cfg.keepHistoryTimestamp < 2 ^ 32) (hdry : cfg.dryRun = false)
    (hload : Loadable cfg.repository cfg.keepHistoryDepth cfg.keepHistoryTimestamp)
    (hs : Reachable cfg s) (hret : s.phase = .returned true) :
    s.marks.removals.Nodup ∧ ∀ x, x ∈ s.marks.removals ↔
      Garbage cfg.repository cfg.keepHistoryDepth cfg.keepHistoryTimestamp x := by
  have hcut := cutTimestamp_of_lt hts
  have hall := removals_of_returned hs hret hdry hdigest (by rwa [hcut])
  rwa [hcut] at hall

/-! ## A repository with two revisions

The head `0` and its predecessor `1` share the nested catalog `2`; the
predecessor has the nested catalog `3` for itself. -/

def sampleFetch : Nat → Fetch Nat
  | 0 => .ok ⟨[2], [10], some 1, 100⟩
  | 1 => .ok ⟨[2, 3], [10, 11], none, 50⟩
  | 2 => .ok ⟨[], [12], none, 50⟩
  | 3 => .ok ⟨[], [13], none, 50⟩
  | _ => .notFound

variable {h : Nat}

theorem sampleFetch_ok {c} (hf : sampleFetch h = .ok c) :
    (∀ n ∈ c.nested, n = 2 ∨ n = 3 ∧ h = 1) ∧ (∀ x ∈ c.objects, 10 ≤ x) ∧
      (∀ p, c.previous = some p → p = 1 ∧ h = 0 ∧ c.lastModified = 100) ∧
      (11 ∈ c.objects → h = 1) := by
  unfold sampleFetch at hf
  split at hf <;> cases hf <;> simp

def sample : Repository Nat where
  fetch := sampleFetch
  digest := id
  head := some 0
  history := .notFound
  reflog := [0, 1]
  reflog_nodup := by decide
  object_not_catalog h c x hf hx d hd := by
    have hx := (sampleFetch_ok hf).2.1 x hx
    unfold sampleFetch at hd
    split at hd <;> first | omega | cases hd
  ancestor_not_nested h c n hf hn ha := by
    have hanc : n = 0 ∨ n = 1 := by
      clear hf hn
      induction ha with
      | head hh => cases hh; simp
      | previous _ hf hp _ => exact .inr ((sampleFetch_ok hf).2.2.1 _ hp).1
    rcases (sampleFetch_ok hf).1 n hn with rfl | ⟨rfl, -⟩ <;> omega

def sampleConfig (depth : Nat) (timestamp : Int) : Configuration Nat where
  repository := sample
  keepHistoryDepth := depth
  keepHistoryTimestamp := timestamp
  numThreads := 2
  dryRun := false
  reopen _ := true
  unlink _ := true
  reflogRemove _ := true
  uploadErrors := 0

/-- Two threads work side by side until `Collect` has returned. -/
def sampleRun (depth : Nat) (timestamp : Int) (n : Nat) : State Nat :=
  (State.start (sampleConfig depth timestamp)).play (sampleConfig depth timestamp)
    [.thread 0, .thread 1, .main] n

variable (depth : Nat)

theorem reachable_sampleRun (timestamp : Int) (n : Nat) :
    Reachable (sampleConfig depth timestamp) (sampleRun depth timestamp n) :=
  reachable_play _ _ n (reachable_start _)

theorem sample_inTree {r} (hr : r < 4) (ht : sample.InTree r h) : h < 4 := by
  induction ht with
  | refl => exact hr
  | tail _ hn _ =>
    obtain ⟨c, hf, hn⟩ := hn
    rcases (sampleFetch_ok hf).1 _ hn with rfl | ⟨rfl, -⟩ <;> omega

theorem sample_loadable (timestamp : Int) : Loadable sample depth timestamp := by
  intro r h hr ht
  have hr : r < 4 := by
    rcases hr with (⟨d, hr⟩ | ⟨tags, htags, -⟩) | hr
    · cases hr with
      | head hh => cases hh; omega
      | previous _ hf hp _ => rw [((sampleFetch_ok hf).2.2.1 _ hp).1]; omega
    · cases htags
    · simp only [sample, List.mem_cons, List.not_mem_nil, or_false] at hr
      omega
  have hh := sample_inTree hr ht
  change ∃ c, sampleFetch h = .ok c
  match h, hh with
  | 0, _ => exact ⟨_, rfl⟩
  | 1, _ => exact ⟨_, rfl⟩
  | 2, _ => exact ⟨_, rfl⟩
  | 3, _ => exact ⟨_, rfl⟩

theorem collect_removes_sample_garbage :
    (sampleRun 0 0 80).phase = .returned true ∧ (sampleRun 0 0 80).marks.removals = [13, 3, 11, 1] ∧
      (sampleRun 0 0 80).marks.removals.Nodup ∧
      ∀ x, x ∈ (sampleRun 0 0 80).marks.removals ↔ Garbage sample 0 0 x :=
  ⟨by decide, by decide +kernel,
    collect_removes_exactly_garbage (sampleConfig 0 0) (sampleRun 0 0 80)
      Function.injective_id (by decide) rfl
      (sample_loadable 0 0) (reachable_sampleRun 0 0 80) (by decide)⟩

/-! ## A threshold of more than 32 bits -/

theorem sample_trunk {depth d} (ht : Trunk sample depth (2 ^ 32 + 10) d h) : h = 0 := by
  cases ht with
  | head hh => cases hh; rfl
  | previous _ hf hp hhit =>
    obtain ⟨-, -, hlm⟩ := (sampleFetch_ok hf).2.2.1 _ hp
    exact absurd (.inr (by rw [hlm]; decide)) hhit

theorem sample_inTree_head (ht : sample.InTree 0 h) : h = 0 ∨ h = 2 := by
  induction ht with
  | refl => exact .inl rfl
  | tail _ hn ih =>
    obtain ⟨c, hf, hn⟩ := hn
    rcases (sampleFetch_ok hf).1 _ hn with rfl | ⟨-, rfl⟩ <;> omega

theorem sample_garbage : Garbage sample depth (2 ^ 32 + 10) 11 := by
  have hkeep : ∀ r, Preserved sample depth (2 ^ 32 + 10) r → r = 0 := by
    rintro r (⟨d, ht⟩ | ⟨tags, htags, -⟩)
    · exact sample_trunk ht
    · cases htags
  refine ⟨⟨1, by decide, fun h => absurd (hkeep 1 h) (by decide), 1, .refl, ?_⟩, ?_⟩
  · exact .inr ⟨_, rfl, by decide⟩
  rintro ⟨r, hr, h, ht, hx⟩
  obtain rfl := hkeep r hr
  have hh := sample_inTree_head ht
  rcases hx with rfl | ⟨c, hf, hx⟩
  · omega
  · have h1 := (sampleFetch_ok hf).2.2.2 hx
    omega

/-- A threshold of `2 ^ 32 + 10` acts as `10`: the collection returns true and
keeps an object that only a revision behind the threshold needs. -/
theorem collect_keeps_garbage_beyond_32_bits :
    Reachable (sampleConfig 5 (2 ^ 32 + 10)) (sampleRun 5 (2 ^ 32 + 10) 80) ∧
      (sampleRun 5 (2 ^ 32 + 10) 80).phase = .returned true ∧
      Loadable sample 5 (2 ^ 32 + 10) ∧ Garbage sample 5 (2 ^ 32 + 10) 11 ∧
      11 ∉ (sampleRun 5 (2 ^ 32 + 10) 80).marks.removals :=
  ⟨reachable_sampleRun _ _ _, by decide, sample_loadable _ _, sample_garbage 5,
    by decide⟩

end Cvmfs.Gc
