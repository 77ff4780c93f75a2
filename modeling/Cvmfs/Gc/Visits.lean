import Cvmfs.Gc.Collector

/-! # What a traversal visits

One invariant for every pass and every interleaving. A job carries a
*provenance*, the reason why the pass may visit its catalog; a catalog counts
as *known* once it is in process or finished. The invariant says of each job
how far it has come: past the critical section every reference of its catalog
is known, and a finished catalog has been handed to the listener completely.
Known catalogs stay known and visited hashes stay visited, so the invariant
moves from state to state by monotonicity and a step answers only for what it
adds.

When the pool is joined without error the map is empty and known means
finished: the finished catalogs are closed under references (`Visits.closed`).
-/

namespace Cvmfs.Gc

open List Shared Pool

variable {H κ : Type} [DecidableEq H]

def Shared.Known (sh : Shared H κ) (h : H) : Prop :=
  h ∈ sh.done ∨ ∃ j ∈ sh.processing, j.hash = h

/-- The references of a catalog that the job has to follow. A failed assertion
counts as following: the job gets no further then. -/
def references (m : Mode) (job : Job H) (c : Catalog H) : List H :=
  c.nested ++
    if job.treeLevel = 0 ∧ isBelowPruningThresholds m job c ≠ some true then c.previous.toList
    else []

omit [DecidableEq H] in
theorem mem_references {m : Mode} {job : Job H} {c : Catalog H} {n : H} :
    n ∈ references m job c ↔ n ∈ c.nested ∨
      job.treeLevel = 0 ∧ isBelowPruningThresholds m job c ≠ some true ∧ c.previous = some n := by
  unfold references
  split <;> simp_all

/-! ## Pushing references -/

namespace Shared

section

variable (m : Mode) (sh : Shared H κ) (a : Job H) (b : Job H)
include m sh a b
omit [DecidableEq H]

@[simp] theorem registerListener_done : (sh.registerListener m a b).done = sh.done := by
  unfold registerListener; split <;> rfl

@[simp] theorem registerListener_processing :
    (sh.registerListener m a b).processing = sh.processing := by
  unfold registerListener; split <;> rfl

@[simp] theorem registerListener_pre : (sh.registerListener m a b).pre = sh.pre := by
  unfold registerListener; split <;> rfl

@[simp] theorem registerListener_post : (sh.registerListener m a b).post = sh.post := by
  unfold registerListener; split <;> rfl

@[simp] theorem registerListener_client : (sh.registerListener m a b).client = sh.client := by
  unfold registerListener; split <;> rfl

end

variable {sh : Shared H κ}

omit [DecidableEq H] in
theorem mem_registerListener {m a b r} (h : r ∈ (sh.registerListener m a b).listeners) :
    r ∈ sh.listeners ∨ r = (a, b) := by
  unfold registerListener at h
  split at h
  · exact .inl h
  · simpa using h

variable {h : H}

theorem lookup_eq_some {j} (hj : sh.lookup h = some j) : j ∈ sh.processing ∧ j.hash = h := by
  have hm := mem_of_find?_eq_some hj
  have hp := find?_some hj
  exact ⟨hm, by simpa using hp⟩

theorem lookup_eq_none (hn : sh.lookup h = none) : ∀ j ∈ sh.processing, j.hash ≠ h := by
  intro j hj
  simpa using find?_eq_none.mp hn j hj

theorem pushChild_cases {e} (m : Mode) (sh : Shared H κ) (job : Job H) (h : H) (level depth : Nat)
    (hno : e.params.noRepeatHistory = true) :
    (h ∈ sh.done ∧ sh.pushChild e m job h level depth = (sh, 0)) ∨
    (h ∉ sh.done ∧ ∃ child ∈ sh.processing, child.hash = h ∧
      sh.pushChild e m job h level depth = (sh.registerListener m child job, 1)) ∨
    (¬ sh.Known h ∧ sh.pushChild e m job h level depth =
      ((sh.pushJobUnlocked (sh.newJob h level depth)).registerListener m
        (sh.newJob h level depth) job, 1)) := by
  unfold pushChild
  rw [hno]
  by_cases hd : h ∈ sh.done
  · exact .inl ⟨hd, by simp [hd]⟩
  cases hl : sh.lookup h with
  | some child =>
    obtain ⟨hm, hh⟩ := lookup_eq_some hl
    exact .inr (.inl ⟨hd, child, hm, hh, by simp [hd]⟩)
  | none =>
    refine .inr (.inr ⟨?_, by simp [hd]⟩)
    rintro (hk | ⟨j, hj, hh⟩)
    · exact hd hk
    · exact lookup_eq_none hl j hj hh

theorem known_pushJobUnlocked {job} :
    (sh.pushJobUnlocked job).Known h ↔ sh.Known h ∨ h = job.hash := by
  simp only [Known, pushJobUnlocked, mem_cons, mem_filter]
  constructor
  · rintro (hd | ⟨j, rfl | ⟨hj, -⟩, hh⟩)
    · exact .inl (.inl hd)
    · exact .inr hh.symm
    · exact .inl (.inr ⟨j, hj, hh⟩)
  rintro ((hd | ⟨j, hj, hh⟩) | rfl)
  · exact .inl hd
  · by_cases he : j.hash = job.hash
    · exact .inr ⟨job, .inl rfl, he ▸ hh⟩
    · exact .inr ⟨j, .inr ⟨hj, by simpa using he⟩, hh⟩
  · exact .inr ⟨job, .inl rfl, rfl⟩

omit [DecidableEq H] in
theorem known_registerListener {m a b} : (sh.registerListener m a b).Known h ↔ sh.Known h := by
  simp [Known]

end Shared

/-- Why a pass visits a catalog, as a predicate on its jobs. The reason may refer
to the catalogs that are known already. -/
structure Provenance (e : Env H) (m : Mode) where
  Origin : (H → Prop) → Job H → Prop
  mono : ∀ {K K' : H → Prop} {j}, (∀ h, K h → K' h) → Origin K j → Origin K' j
  nested : ∀ {K j c n} (i : Nat), Origin K j → e.fetch j.hash = .ok c → n ∈ c.nested →
    Origin K ⟨i, n, j.treeLevel + 1, j.historyDepth⟩
  previous : ∀ {K : H → Prop} {j c p} (i : Nat), Origin K j → e.fetch j.hash = .ok c →
    j.treeLevel = 0 → c.previous = some p → isBelowPruningThresholds m j c = some false →
    ¬ K p → Origin (fun h => K h ∨ h = p) ⟨i, p, 0, j.historyDepth + 1⟩

/-- What the critical section for `job` may change. -/
structure Pushes {e : Env H} {m : Mode} (A : Provenance e m) (job : Job H)
    (sh sh' : Shared H κ) : Prop where
  known : ∀ h, sh.Known h → sh'.Known h
  pre : ∀ j, some j ∈ sh'.pre → some j ∈ sh.pre ∨ A.Origin sh'.Known j
  post : sh'.post = sh.post
  done : sh'.done = sh.done
  client : sh'.client = sh.client
  listeners : ∀ r ∈ sh'.listeners, r ∈ sh.listeners ∨ r.2 = job

namespace Pushes

variable {e : Env H} {m : Mode} {A : Provenance e m} {job : Job H} {s t u : Shared H κ}

omit [DecidableEq H] in
theorem refl : Pushes A job s s :=
  ⟨fun _ h => h, fun _ h => .inl h, rfl, rfl, rfl, fun _ h => .inl h⟩

omit [DecidableEq H] in
theorem trans (h : Pushes A job s t) (h' : Pushes A job t u) : Pushes A job s u where
  known x hx := h'.known x (h.known x hx)
  pre j hj := by
    rcases h'.pre j hj with hj | ho
    · rcases h.pre j hj with hj | ho
      · exact .inl hj
      · exact .inr (A.mono h'.known ho)
    · exact .inr ho
  post := h'.post.trans h.post
  done := h'.done.trans h.done
  client := h'.client.trans h.client
  listeners r hr := by
    rcases h'.listeners r hr with hr | hr
    · exact h.listeners r hr
    · exact .inr hr

theorem pushChild (s : Shared H κ) (job : Job H) {h level depth}
    (hno : e.params.noRepeatHistory = true)
    (horigin : ¬ s.Known h → ∀ i, A.Origin (fun x => s.Known x ∨ x = h) ⟨i, h, level, depth⟩) :
    Pushes A job s (s.pushChild e m job h level depth).1 ∧
      (s.pushChild e m job h level depth).1.Known h := by
  rcases s.pushChild_cases m job h level depth hno with
    ⟨hd, heq⟩ | ⟨-, child, hm, hh, heq⟩ | ⟨hk, heq⟩ <;> rw [heq]
  · exact ⟨refl, .inl hd⟩
  · refine ⟨⟨fun x hx => known_registerListener.mpr hx, fun j hj => .inl (by simpa using hj),
      by simp, by simp, by simp, ?_⟩, known_registerListener.mpr (.inr ⟨child, hm, hh⟩)⟩
    intro r hr
    rcases mem_registerListener hr with hr | rfl
    · exact .inl hr
    · exact .inr rfl
  have hnew : ∀ x, s.Known x ∨ x = h → ((s.pushJobUnlocked (s.newJob h level depth)
      ).registerListener m (s.newJob h level depth) job).Known x := fun x hx =>
    known_registerListener.mpr (known_pushJobUnlocked.mpr hx)
  refine ⟨⟨fun x hx => hnew x (.inl hx), ?_, by simp [pushJobUnlocked],
    by simp [pushJobUnlocked], by simp [pushJobUnlocked], ?_⟩, hnew h (.inr rfl)⟩
  · intro j hj
    simp only [registerListener_pre, pushJobUnlocked, mem_cons, Option.some.injEq] at hj
    rcases hj with rfl | hj
    · exact .inr (A.mono hnew (horigin hk s.allocated))
    · exact .inl hj
  · intro r hr
    rcases mem_registerListener hr with hr | rfl
    · exact .inl hr
    · exact .inr rfl

variable {c : Catalog H}

theorem pushNestedCatalogs (hs : List H) (hno : e.params.noRepeatHistory = true)
    (ho : A.Origin s.Known job) (hf : e.fetch job.hash = .ok c) (hsub : ∀ h ∈ hs, h ∈ c.nested) :
    Pushes A job s (pushNestedCatalogs e m job s hs).1 ∧
      ∀ h ∈ hs, (pushNestedCatalogs e m job s hs).1.Known h := by
  induction hs generalizing s with
  | nil => exact ⟨refl, by simp⟩
  | cons h hs ih =>
    simp only [pushNestedCatalogs, forall_mem_cons]
    obtain ⟨hfirst, hknown⟩ := pushChild s job hno fun _ i =>
      A.mono (fun _ hx => .inl hx) (A.nested i ho hf (hsub h (by simp)))
    obtain ⟨hrest, hall⟩ := ih (A.mono hfirst.known ho) fun x hx => hsub x (by simp [hx])
    exact ⟨hfirst.trans hrest, hrest.known h hknown, hall⟩

section

variable {n}
  (hno : e.params.noRepeatHistory = true)
  (ho : A.Origin s.Known job)
  (hf : e.fetch job.hash = .ok c)
include hno ho hf

theorem pushPreviousRevision (h : s.pushPreviousRevision e m job c = some (t, n)) :
    Pushes A job s t ∧ ∀ p, job.treeLevel = 0 → isBelowPruningThresholds m job c ≠ some true →
      c.previous = some p → t.Known p := by
  unfold Shared.pushPreviousRevision at h
  split at h
  case isTrue hl =>
    cases h
    exact ⟨refl, fun p h0 => absurd h0 hl⟩
  case isFalse hl =>
    split at h
    case h_1 hp =>
      cases h
      exact ⟨refl, fun p _ _ hq => by rw [hp] at hq; cases hq⟩
    case h_2 p hp =>
      split at h
      · cases h
      case h_2 hb =>
        cases h
        exact ⟨refl, fun q _ hb' => absurd hb hb'⟩
      case h_3 hb =>
        have hl : job.treeLevel = 0 := by simpa using hl
        obtain ⟨hpush, hknown⟩ := pushChild s job hno fun hk i =>
          A.previous i ho hf hl hp hb hk
        rw [Option.some.inj h] at hpush hknown
        refine ⟨hpush, fun q _ _ hq => ?_⟩
        rw [hp] at hq
        cases hq
        exact hknown

/-- **The critical section** makes every reference of the catalog known. -/
theorem pushReferences (h : s.pushReferences e m job c = some (t, n)) :
    Pushes A job s t ∧ ∀ x ∈ references m job c, t.Known x := by
  unfold Shared.pushReferences at h
  split at h
  · split at h
    · cases h
    case h_2 s₁ k hprev =>
      obtain ⟨hp, hpk⟩ := pushPreviousRevision hno ho hf hprev
      obtain ⟨hn, hnk⟩ := pushNestedCatalogs c.nested hno (A.mono hp.known ho) hf
        fun _ hx => hx
      cases h
      refine ⟨hp.trans hn, fun x hx => ?_⟩
      rcases mem_references.mp hx with hx | ⟨hl, hb, hx⟩
      · exact hnk x hx
      · exact hn.known x (hpk x hl hb hx)
  obtain ⟨hn, hnk⟩ := pushNestedCatalogs c.nested hno ho hf fun _ hx => hx
  dsimp only at h
  split at h
  · cases h
  case h_2 s₂ k hprev =>
    obtain ⟨hp, hpk⟩ := pushPreviousRevision hno (A.mono hn.known ho) hf hprev
    cases h
    refine ⟨{ hn.trans hp with }, fun x hx => ?_⟩
    rcases mem_references.mp hx with hx | ⟨hl, hb, hx⟩
    · exact hp.known x (hnk x hx)
    · exact hpk x hl hb hx

end

end Pushes

theorem Pool.step_cases {e : Env H} {m : Mode} {l : Listener H κ} {p p' : Pool H κ} {i : Nat}
    (h : p.step e m l i = some p') : ∃ a b t t', p.threads = a ++ t :: b ∧
      p.shared.advance e m l t = some (p'.shared, t') ∧ p'.threads = a ++ t' :: b := by
  unfold step at h
  split at h
  · cases h
  case h_2 t hi =>
    split at h
    · cases h
    case h_2 sh t' hadv =>
      cases h
      obtain ⟨hlt, hget⟩ := List.getElem?_eq_some_iff.mp hi
      refine ⟨p.threads.take i, p.threads.drop (i + 1), t, t', ?_, hadv, ?_⟩
      · rw [← hget, getElem_cons_drop, take_append_drop]
      · exact set_eq_take_cons_drop t' hlt

/-! ## The invariant of a pass -/

/-- What the listener of a pass keeps: the hashes it has handled stay handled,
and `Good` survives its visits. -/
structure Audit {e : Env H} {m : Mode} (A : Provenance e m) (l : Listener H κ) where
  Handled : κ → H → Prop
  Good : κ → Prop
  handled_visit : ∀ k x, Handled (l.visit k x) x
  handled_mono : ∀ {k y} (x), Handled k y → Handled (l.visit k x) y
  handled_note : ∀ {k y}, Handled k y → Handled (l.note k) y
  good_note : ∀ {k}, Good k → Good (l.note k)
  good_visit : ∀ {K j c k x}, A.Origin K j → e.fetch j.hash = .ok c →
    x ∈ l.visits j.hash c → Good k → Good (l.visit k x)

section Pass

variable {e : Env H} {m : Mode} {A : Provenance e m} {l : Listener H κ} (B : Audit A l)

def Linked (A : Provenance e m) (K : H → Prop) (j : Job H) : Prop :=
  A.Origin K j ∧ ∀ c, e.fetch j.hash = .ok c → ∀ n ∈ references m j c, K n

/-- Ready to be finalised: the catalog is missing, or it was handed over. -/
def Finished (K : H → Prop) (k : κ) (j : Job H) : Prop :=
  Linked A K j ∧ e.fetch j.hash ≠ .failed ∧
    ∀ c, e.fetch j.hash = .ok c → ∀ x ∈ l.visits j.hash c, B.Handled k x

def Task.Ok (K : H → Prop) (k : κ) : Task H → Prop
  | .idle | .popPre | .stopped => True
  | .prepare j => A.Origin K j
  | .link j c => A.Origin K j ∧ e.fetch j.hash = .ok c
  | .report j => Linked A K j
  | .enter j c => Linked A K j ∧ e.fetch j.hash = .ok c
  | .calling j rest => Linked A K j ∧ ∃ c seen, e.fetch j.hash = .ok c ∧
      l.visits j.hash c = seen ++ rest ∧ ∀ x ∈ seen, B.Handled k x
  | .finalize j => Finished B K k j
  | .wake ps => ∀ p ∈ ps, Linked A K p

/-- The invariant. The catalogs in `done₀` were finished by earlier passes. -/
structure Visits (done₀ : List H) (p : Pool H κ) : Prop where
  pre : ∀ j, some j ∈ p.shared.pre → A.Origin p.shared.Known j
  post : ∀ j ∈ p.shared.post, Linked A p.shared.Known j
  listeners : ∀ r ∈ p.shared.listeners, Linked A p.shared.Known r.2
  threads : ∀ t ∈ p.threads, t.Ok B p.shared.Known p.shared.client
  done : ∀ h ∈ p.shared.done, h ∈ done₀ ∨
    ∃ j, j.hash = h ∧ Finished B p.shared.Known p.shared.client j
  client : B.Good p.shared.client

variable {B} {K K' : H → Prop} {k k' : κ} {j : Job H}

section

variable (hK : ∀ h, K h → K' h)
include hK

omit [DecidableEq H] in
theorem Linked.mono (h : Linked A K j) : Linked A K' j :=
  ⟨A.mono hK h.1, fun c hc n hn => hK n (h.2 c hc n hn)⟩

omit [DecidableEq H] in
theorem Finished.mono (hk : ∀ x, B.Handled k x → B.Handled k' x)
    (h : Finished B K k j) : Finished B K' k' j :=
  ⟨h.1.mono hK, h.2.1, fun c hc x hx => hk x (h.2.2 c hc x hx)⟩

omit [DecidableEq H] in
theorem Task.Ok.mono (hk : ∀ x, B.Handled k x → B.Handled k' x)
    {t : Task H} (h : t.Ok B K k) : t.Ok B K' k' := by
  cases t with
  | idle | popPre | stopped => trivial
  | prepare j => exact A.mono hK h
  | link j c => exact ⟨A.mono hK h.1, h.2⟩
  | report j => exact Linked.mono hK h
  | enter j c => exact ⟨h.1.mono hK, h.2⟩
  | calling j rest =>
    obtain ⟨hl, c, seen, hf, hv, hs⟩ := h
    exact ⟨hl.mono hK, c, seen, hf, hv, fun x hx => hk x (hs x hx)⟩
  | finalize j => exact Finished.mono hK hk h
  | wake ps => exact fun p hp => (h p hp).mono hK

end

/-- What one action adds, given that the rest carries over by monotonicity. -/
structure Adds (B : Audit A l) (sh sh' : Shared H κ) (t' : Task H) : Prop where
  known : ∀ h, sh.Known h → sh'.Known h := by exact fun _ h => h
  handled : ∀ x, B.Handled sh.client x → B.Handled sh'.client x := by exact fun _ h => h
  pre : ∀ j, some j ∈ sh'.pre → some j ∈ sh.pre ∨ A.Origin sh'.Known j := by
    exact fun _ h => .inl h
  post : ∀ j ∈ sh'.post, j ∈ sh.post ∨ Linked A sh'.Known j := by exact fun _ h => .inl h
  listeners : ∀ r ∈ sh'.listeners, r ∈ sh.listeners ∨ Linked A sh'.Known r.2 := by
    exact fun _ h => .inl h
  done : ∀ h ∈ sh'.done, h ∈ sh.done ∨
    ∃ j, j.hash = h ∧ Finished B sh'.Known sh'.client j := by exact fun _ h => .inl h
  client : B.Good sh'.client
  task : t'.Ok B sh'.Known sh'.client

variable {done₀ : List H} {sh sh' : Shared H κ} {ts : List (Task H)} {t' : Task H}

omit [DecidableEq H] in
theorem Visits.of_adds {ts' : List (Task H)} (h : Visits B done₀ ⟨sh, ts⟩)
    (hadds : Adds B sh sh' t') (hts : ∀ u ∈ ts', u = t' ∨ u ∈ ts) : Visits B done₀ ⟨sh', ts'⟩ where
  pre j hj := (hadds.pre j hj).elim (fun hj => A.mono hadds.known (h.pre j hj)) id
  post j hj := (hadds.post j hj).elim (fun hj => (h.post j hj).mono hadds.known) id
  listeners r hr := (hadds.listeners r hr).elim (fun hr => (h.listeners r hr).mono hadds.known) id
  threads u hu := by
    rcases hts u hu with rfl | hu
    · exact hadds.task
    · exact (h.threads u hu).mono hadds.known hadds.handled
  done x hx := by
    rcases hadds.done x hx with hx | hnew
    · rcases h.done x hx with hx | ⟨j, hj, hfin⟩
      · exact .inl hx
      · exact .inr ⟨j, hj, hfin.mono hadds.known hadds.handled⟩
    · exact .inr hnew
  client := hadds.client

omit [DecidableEq H] in
theorem mem_pre_notifyFinished (h : some j ∈ (sh.notifyFinished e).pre) : some j ∈ sh.pre := by
  simpa [notifyFinished] using h

omit [DecidableEq H] in
theorem Adds.fail {sh₁} (h : Adds B sh sh₁ .idle) : Adds B sh (sh₁.fail e) .idle :=
  { h with pre := fun j hj => h.pre j (mem_pre_notifyFinished hj) }

theorem finalizeJob_spec (sh : Shared H κ) (j : Job H) :
    (∀ h, sh.Known h → (sh.finalizeJob e j).Known h) ∧
    (∀ i, some i ∈ (sh.finalizeJob e j).pre → some i ∈ sh.pre) ∧
    (sh.finalizeJob e j).post = sh.post ∧ (sh.finalizeJob e j).done = j.hash :: sh.done ∧
    (sh.finalizeJob e j).listeners = sh.listeners ∧ (sh.finalizeJob e j).client = sh.client ∧
    (sh.finalizeJob e j).processing = sh.processing.filter fun i => i.hash ≠ j.hash := by
  have hknown : ∀ h, sh.Known h →
      h ∈ j.hash :: sh.done ∨ ∃ i ∈ sh.processing.filter fun i => i.hash ≠ j.hash, i.hash = h := by
    rintro h (hd | ⟨i, hi, hh⟩)
    · exact .inl (.tail _ hd)
    · by_cases he : i.hash = j.hash
      · exact .inl (by simp [← hh, he])
      · exact .inr ⟨i, mem_filter.mpr ⟨hi, by simpa using he⟩, hh⟩
  unfold finalizeJob
  dsimp only
  split
  · exact ⟨hknown, fun i hi => mem_pre_notifyFinished hi, rfl, rfl, rfl, rfl, rfl⟩
  · exact ⟨hknown, fun i hi => hi, rfl, rfl, rfl, rfl, rfl⟩

theorem Adds.finalize (h : Visits B done₀ ⟨sh, ts⟩) (hj : Finished B sh.Known sh.client j)
    (hadv : sh.advance e m l (.finalize j) = some (sh', t')) : Adds B sh sh' t' := by
  obtain ⟨hknown, hpre, hpost, hdone, hlis, hclient, -⟩ := finalizeJob_spec (e := e) sh j
  have hdone' : ∀ x ∈ (sh.finalizeJob e j).done, x ∈ sh.done ∨
      ∃ i, i.hash = x ∧ Finished B (sh.finalizeJob e j).Known (sh.finalizeJob e j).client i := by
    intro x hx
    rw [hdone] at hx
    rcases mem_cons.mp hx with rfl | hx
    · exact .inr ⟨j, rfl, hj.mono hknown (fun y hy => by rwa [hclient])⟩
    · exact .inl hx
  have hbase : ∀ t : Task H, t.Ok B (sh.finalizeJob e j).Known (sh.finalizeJob e j).client →
      Adds B sh (sh.finalizeJob e j) t := fun t ht =>
    { known := hknown
      handled := fun x hx => by rwa [hclient]
      pre := fun i hi => .inl (hpre i hi)
      post := fun i hi => .inl (by rwa [hpost] at hi)
      listeners := fun r hr => .inl (by rwa [hlis] at hr)
      done := hdone'
      client := by rw [hclient]; exact h.client
      task := ht }
  simp only [advance] at hadv
  split at hadv
  · cases hadv
    exact hbase .idle trivial
  cases hadv
  have hwake : ∀ i ∈ ((sh.finalizeJob e j).listeners.filter fun r => r.1 = j).map Prod.snd,
      Linked A (sh.finalizeJob e j).Known i := by
    intro i hi
    obtain ⟨r, hr, rfl⟩ := mem_map.mp hi
    rw [hlis] at hr
    exact (h.listeners r (mem_filter.mp hr).1).mono hknown
  exact { hbase (.wake _) hwake with
    listeners := fun r hr => .inl (by rw [hlis] at hr; exact (mem_filter.mp hr).1) }

theorem onChildFinished_spec (sh : Shared H κ) (p : Job H) :
    (∀ h, (sh.onChildFinished p).Known h ↔ sh.Known h) ∧ (sh.onChildFinished p).pre = sh.pre ∧
    (∀ i ∈ (sh.onChildFinished p).post, i ∈ sh.post ∨ i = p) ∧
    (sh.onChildFinished p).done = sh.done ∧ (sh.onChildFinished p).listeners = sh.listeners ∧
    (sh.onChildFinished p).client = sh.client := by
  unfold onChildFinished
  dsimp only
  split
  · refine ⟨fun h => Iff.rfl, rfl, fun i hi => ?_, rfl, rfl, rfl⟩
    exact (mem_cons.mp hi).symm
  · exact ⟨fun h => Iff.rfl, rfl, fun i hi => .inl hi, rfl, rfl, rfl⟩

/-- **Step lemma.** Whatever a thread does next, the invariant accounts for what
the action adds. -/
theorem Visits.advance {t} (hno : e.params.noRepeatHistory = true) (h : Visits B done₀ ⟨sh, ts⟩)
    (ht : t ∈ ts) (hadv : sh.advance e m l t = some (sh', t')) : Adds B sh sh' t' := by
  have hok : t.Ok B sh.Known sh.client := h.threads t ht
  have hgood : B.Good sh.client := h.client
  have hstay : Adds B sh sh .idle := { client := hgood, task := trivial }
  cases t with
  | idle =>
    simp only [Shared.advance] at hadv
    split at hadv
    · cases hadv
      exact { hstay with task := trivial }
    case h_2 j rest hpost =>
      cases hadv
      have hj : Linked A sh.Known j := h.post j (by simp [hpost])
      exact { hstay with post := fun i hi => .inl (by simp [hpost, hi]), task := hj }
  | popPre =>
    simp only [Shared.advance] at hadv
    split at hadv
    · cases hadv
    case h_2 rest hpre =>
      cases hadv
      exact { hstay with pre := fun i hi => .inl (by simp [hpre, hi]), task := trivial }
    case h_3 j rest hpre =>
      cases hadv
      have hj : A.Origin sh.Known j := h.pre j (by simp [hpre])
      exact { hstay with pre := fun i hi => .inl (by simp [hpre, hi]), task := hj }
  | prepare j =>
    simp only [Shared.advance] at hadv
    split at hadv
    case h_1 c hc =>
      cases hadv
      exact { hstay with task := ⟨hok, hc⟩ }
    case h_2 hc =>
      split at hadv <;> cases hadv
      · have hmiss : ∀ c, e.fetch j.hash ≠ .ok c := fun c hc' => by rw [hc] at hc'; cases hc'
        exact { hstay with
          task := ⟨⟨hok, fun c hc' => absurd hc' (hmiss c)⟩, by simp [hc],
            fun c hc' => absurd hc' (hmiss c)⟩ }
      · exact hstay.fail
    case h_3 => cases hadv; exact hstay.fail
  | link j c =>
    simp only [Shared.advance] at hadv
    split at hadv
    · cases hadv
    case h_2 sh₁ n hpush =>
      cases hadv
      obtain ⟨hp, hrefs⟩ := Pushes.pushReferences hno hok.1 hok.2 hpush
      have hj : Linked A sh'.Known j := by
        refine ⟨A.mono hp.known hok.1, fun c' hc' => ?_⟩
        rw [hok.2] at hc'
        cases hc'
        exact hrefs
      exact
        { known := hp.known
          handled := fun x hx => by rwa [hp.client]
          pre := hp.pre
          post := fun i hi => .inl (by rwa [hp.post] at hi)
          listeners := fun r hr => (hp.listeners r hr).imp id fun hr => by rwa [hr]
          done := fun x hx => .inl (by rwa [hp.done] at hx)
          client := by rw [hp.client]; exact hgood
          task := by split <;> first | exact hj | trivial }
  | report j =>
    simp only [Shared.advance] at hadv
    split at hadv
    case h_1 c hc _ =>
      cases hadv
      exact { hstay with task := ⟨hok, hc⟩ }
    · cases hadv
      exact hstay.fail
  | enter j c =>
    obtain ⟨-, ⟨⟩⟩ := Option.ite_none_left_eq_some.1 hadv
    exact
      { handled := fun x hx => B.handled_note hx
        client := B.good_note hgood
        task := ⟨hok.1, c, [], hok.2, rfl, by simp⟩ }
  | calling j rest =>
    obtain ⟨hlink, c, seen, hc, hseen, hhandled⟩ := hok
    cases rest with
    | nil =>
      simp only [Shared.advance] at hadv
      split at hadv <;> cases hadv
      · refine { hstay with task := ⟨hlink, by simp [hc], fun c' hc' => ?_⟩ }
        rw [hc] at hc'
        cases hc'
        simpa [hseen] using hhandled
      · exact Adds.fail { hstay with }
    | cons x rest =>
      cases hadv
      refine
        { handled := fun y hy => B.handled_mono x hy
          client := B.good_visit hlink.1 hc (by simp [hseen]) hgood
          task := ⟨hlink, c, seen ++ [x], hc, by simp [hseen], ?_⟩ }
      intro y hy
      rcases mem_append.mp hy with hy | hy
      · exact B.handled_mono x (hhandled y hy)
      · rw [mem_singleton.mp hy]
        exact B.handled_visit sh.client x
  | finalize j => exact Adds.finalize h hok hadv
  | wake ps =>
    cases ps with
    | nil =>
      cases hadv
      exact hstay
    | cons p ps =>
      cases hadv
      obtain ⟨hknown, hpre, hpost, hdone, hlis, hclient⟩ := onChildFinished_spec sh p
      have hmono := fun x hx => (hknown x).mpr hx
      exact
        { known := hmono
          handled := fun x hx => by rwa [hclient]
          pre := fun i hi => .inl (by rwa [hpre] at hi)
          post := fun i hi => (hpost i hi).imp id fun hi => by
            rw [hi]; exact (hok p (by simp)).mono hmono
          listeners := fun r hr => .inl (by rwa [hlis] at hr)
          done := fun x hx => .inl (by rwa [hdone] at hx)
          client := by rw [hclient]; exact hgood
          task := fun i hi => (hok i (by simp [hi])).mono hmono }
  | stopped => simp [Shared.advance] at hadv

theorem pushStarts_spec (sh : Shared H κ) (hs : List H) :
    (∀ h, (sh.pushStarts hs).Known h ↔ sh.Known h ∨ h ∈ hs) ∧
    (∀ j, some j ∈ (sh.pushStarts hs).pre → some j ∈ sh.pre ∨ ∃ i, ∃ h ∈ hs, j = ⟨i, h, 0, 0⟩) ∧
    (sh.pushStarts hs).post = sh.post ∧ (sh.pushStarts hs).done = sh.done ∧
    (sh.pushStarts hs).listeners = sh.listeners ∧ (sh.pushStarts hs).client = sh.client := by
  induction hs generalizing sh with
  | nil => simp [pushStarts]
  | cons h hs ih =>
    obtain ⟨hknown, hpre, hpost, hdone, hlis, hclient⟩ := ih (sh.pushJobUnlocked (sh.newJob h 0 0))
    refine ⟨fun x => ?_, fun j hj => ?_, hpost, hdone, hlis, hclient⟩
    · rw [pushStarts, hknown, known_pushJobUnlocked, mem_cons, or_assoc]
      rfl
    rcases hpre j hj with hj | ⟨i, x, hx, rfl⟩
    · simp only [pushJobUnlocked, mem_cons, Option.some.injEq] at hj
      rcases hj with rfl | hj
      · exact .inr ⟨sh.allocated, h, by simp, rfl⟩
      · exact .inl hj
    · exact .inr ⟨i, x, by simp [hx], rfl⟩

theorem Visits.spawn {hs} (hpre : sh.pre = []) (hpost : sh.post = []) (hlis : sh.listeners = [])
    (hgood : B.Good sh.client)
    (horigin : ∀ i, ∀ h ∈ hs, A.Origin (sh.pushStarts hs).Known ⟨i, h, 0, 0⟩) :
    Visits B sh.done (.spawn e (sh.pushStarts hs)) := by
  obtain ⟨-, spre, spost, sdone, slis, sclient⟩ := pushStarts_spec sh hs
  constructor <;> simp only [Pool.spawn]
  · intro j hj
    rcases spre j hj with hj | ⟨i, h, hh, rfl⟩
    · simp [hpre] at hj
    · exact horigin i h hh
  · simp [spost, hpost]
  · simp [slis, hlis]
  · intro t ht
    rw [(mem_replicate.mp ht).2]
    trivial
  · intro h hh
    exact .inl (by rwa [sdone] at hh)
  · rwa [sclient]

variable {p : Pool H κ}

theorem Visits.step {p' : Pool H κ} {i : Nat} (hno : e.params.noRepeatHistory = true)
    (h : Visits B done₀ p) (hstep : p.step e m l i = some p') :
    Visits B done₀ p' ∧ ∀ x, p.shared.Known x → p'.shared.Known x := by
  obtain ⟨a, b, t, t', hts, hadv, hts'⟩ := step_cases hstep
  have hadds : Adds B p.shared p'.shared t' := Visits.advance hno h (by simp [hts]) hadv
  refine ⟨Visits.of_adds h hadds fun u hu => ?_, hadds.known⟩
  rw [hts'] at hu
  rw [hts]
  simp only [mem_append, mem_cons] at hu ⊢
  tauto

theorem Pool.join_true (h : p.join = some true) :
    p.shared.processing = [] ∧ p.shared.pre = [] ∧ p.shared.post = [] := by
  obtain ⟨-, h⟩ := Option.ite_none_right_eq_some.1 h
  split at h
  · cases h
  · split at h
    case isTrue hempty => simpa [and_assoc] using hempty
    · cases h

theorem Pool.known_of_join (h : p.join = some true) (x : H) :
    p.shared.Known x ↔ x ∈ p.shared.done := by
  simp [Known, (join_true h).1]

/-- **After a pass** every catalog it finished was visited for a reason, was
handed to the listener, and has only finished references. -/
theorem Visits.closed (h : Visits B done₀ p) (hjoin : p.join = some true) {x}
    (hx : x ∈ p.shared.done) :
    x ∈ done₀ ∨ ∃ j, j.hash = x ∧ A.Origin (· ∈ p.shared.done) j ∧ e.fetch x ≠ .failed ∧
      ∀ c, e.fetch x = .ok c → (∀ y ∈ l.visits x c, B.Handled p.shared.client y) ∧
        ∀ n ∈ references m j c, n ∈ p.shared.done := by
  have hknown := known_of_join hjoin
  rcases h.done x hx with hx | ⟨j, rfl, ⟨ho, hrefs⟩, hload, hvisits⟩
  · exact .inl hx
  · refine .inr ⟨j, rfl, A.mono (fun y hy => (hknown y).mp hy) ho, hload, fun c hc => ?_⟩
    exact ⟨hvisits c hc, fun n hn => (hknown n).mp (hrefs c hc n hn)⟩

end Pass

/-! ## Breadth-first passes register no listener -/

section BreadthFirst

variable {e : Env H} {m : Mode} {l : Listener H κ}

section

variable (hm : m.type = .breadthFirst)
include hm

theorem pushChild_listeners (sh : Shared H κ) (job : Job H) (h : H) (level depth : Nat) :
    (sh.pushChild e m job h level depth).1.listeners = sh.listeners := by
  unfold pushChild
  split
  · rfl
  · split <;> simp [registerListener, hm, pushJobUnlocked]

theorem pushNestedCatalogs_listeners (sh : Shared H κ) (job : Job H) (hs : List H) :
    (pushNestedCatalogs e m job sh hs).1.listeners = sh.listeners := by
  induction hs generalizing sh with
  | nil => rfl
  | cons h hs ih => simp only [pushNestedCatalogs, ih, pushChild_listeners hm]

variable {sh sh' : Shared H κ}

theorem pushReferences_listeners {job : Job H} {c : Catalog H} {n : Nat}
    (h : sh.pushReferences e m job c = some (sh', n)) : sh'.listeners = sh.listeners := by
  simp only [pushReferences, hm] at h
  split at h
  · cases h
  case h_2 sh₁ k hprev =>
    cases h
    rw [pushNestedCatalogs_listeners hm]
    unfold pushPreviousRevision at hprev
    split at hprev
    · cases hprev; rfl
    split at hprev
    · cases hprev; rfl
    split at hprev
    · cases hprev
    · cases hprev; rfl
    · rw [← pushChild_listeners (e := e) hm sh job, Option.some.inj hprev]

theorem advance_listeners {t t' : Task H}
    (h : sh.advance e m l t = some (sh', t')) : sh'.listeners = sh.listeners := by
  cases t with
  | idle | popPre | prepare | report | enter =>
    simp only [advance] at h
    repeat' split at h
    all_goals cases h
    all_goals rfl
  | link j c =>
    simp only [advance] at h
    split at h
    · cases h
    case h_2 hpush =>
      cases h
      exact pushReferences_listeners hm hpush
  | calling j rest =>
    cases rest with
    | nil =>
      simp only [advance] at h
      split at h <;> cases h <;> rfl
    | cons x rest => cases h; rfl
  | finalize j =>
    obtain ⟨-, -, -, -, hlis, -⟩ := finalizeJob_spec (e := e) sh j
    simp only [advance, hm, Option.some.injEq, Prod.mk.injEq] at h
    rw [← h.1, hlis]
  | wake ps =>
    cases ps with
    | nil => cases h; rfl
    | cons p ps =>
      obtain ⟨-, -, -, -, hlis, -⟩ := onChildFinished_spec sh p
      simp only [advance, Option.some.injEq, Prod.mk.injEq] at h
      rw [← h.1, hlis]
  | stopped => cases h

end

end BreadthFirst

end Cvmfs.Gc
