import Cvmfs.Gc.Visits

/-! # Depth-first order

In a depth-first pass a job waits until the catalogs it references are finished.
Nothing stores that a job waits: it is in the map, in no queue and at no thread,
and its references carry a listener for it. The invariant is therefore a ledger
of who has which job.

* A job is *held* by a queue or a thread, once, and only while it is in the map.
* A *parent* is a job that some listener, or some thread that is waking up
  parents, will still call; it is in the map and is not held.
* `children_unprocessed` of a parent counts these calls, and each nested catalog
  of a parent is finished or has a listener for it.

So the call that takes the counter to zero is the last one, and everything
nested in the parent is finished (`DepthFirst.passed`).
-/

namespace Cvmfs.Gc

open List Shared Prod

variable {H κ : Type} [DecidableEq H]

def Task.held : Task H → List (Job H)
  | .prepare j | .link j _ | .report j | .enter j _ | .calling j _ | .finalize j => [j]
  | .idle | .popPre | .wake _ | .stopped => []

/-- The jobs that have left the critical section for good. -/
def Task.passed : Task H → List (Job H)
  | .report j | .enter j _ | .calling j _ | .finalize j => [j]
  | .idle | .popPre | .prepare _ | .link _ _ | .wake _ | .stopped => []

def Task.woken : Task H → List (Job H)
  | .wake ps => ps
  | _ => []

def held (sh : Shared H κ) (ts : List (Task H)) : List (Job H) :=
  sh.pre.filterMap id ++ sh.post ++ ts.flatMap Task.held

def parents (sh : Shared H κ) (ts : List (Task H)) : List (Job H) :=
  sh.listeners.map snd ++ ts.flatMap Task.woken

def NestedDone (e : Env H) (done : List H) (h : H) : Prop :=
  ∀ c, e.fetch h = .ok c → ∀ n ∈ c.nested, n ∈ done

omit [DecidableEq H] in
theorem NestedDone.mono {e : Env H} {done done' : List H} {h : H} (hd : NestedDone e done h)
    (hsub : ∀ x ∈ done, x ∈ done') : NestedDone e done' h :=
  fun c hc n hn => hsub n (hd c hc n hn)

/-! ## The ledger -/

/-- Who has which job. -/
structure Ledger (processing : List (Job H)) (done : List H) (held parents : List (Job H)) :
    Prop where
  keys : (processing.map Job.hash).Nodup
  fresh : ∀ j ∈ processing, j.hash ∉ done
  nodup : held.Nodup
  live : ∀ j ∈ held, j ∈ processing
  waiting : ∀ p ∈ parents, p ∈ processing ∧ p ∉ held

namespace Ledger

variable {processing new : List (Job H)} {done : List H} {hs hs' ps ps' : List (Job H)} {j : Job H}

section

variable (h : Ledger processing done hs ps)
include h

omit [DecidableEq H] in
theorem eq_of_hash {i} (hi : i ∈ processing)
    (hj : j ∈ processing) (heq : i.hash = j.hash) : i = j :=
  inj_on_of_nodup_map h.keys hi hj heq

omit [DecidableEq H] in
theorem weaken (hn : hs'.Nodup) (hsub : ∀ x ∈ hs', x ∈ hs)
    (psub : ∀ x ∈ ps', x ∈ ps) : Ledger processing done hs' ps' where
  keys := h.keys
  fresh := h.fresh
  nodup := hn
  live x hx := h.live x (hsub x hx)
  waiting p hp := ⟨(h.waiting p (psub p hp)).1, fun hx => (h.waiting p (psub p hp)).2 (hsub p hx)⟩

omit [DecidableEq H] in
theorem push (hkeys : ((new ++ processing).map Job.hash).Nodup)
    (hfresh : ∀ i ∈ new, i.hash ∉ done) : Ledger (new ++ processing) done (new ++ hs) ps := by
  have hdis : ∀ i ∈ new, i ∉ processing := by
    rw [map_append, nodup_append] at hkeys
    intro i hi hp
    exact hkeys.2.2 _ (mem_map_of_mem hi) _ (mem_map_of_mem hp) rfl
  refine ⟨hkeys, ?_, ?_, ?_, ?_⟩
  · intro i hi
    exact (mem_append.mp hi).elim (hfresh i) (h.fresh i)
  · have hnew : new.Nodup := by
      rw [map_append, nodup_append] at hkeys
      exact hkeys.1.of_map
    rw [nodup_append]
    refine ⟨hnew, h.nodup, ?_⟩
    rintro i hi k hk rfl
    exact hdis i hi (h.live i hk)
  · intro i hi
    rcases mem_append.mp hi with hi | hi
    · exact mem_append_left _ hi
    · exact mem_append_right _ (h.live i hi)
  · intro p hp
    obtain ⟨hpp, hph⟩ := h.waiting p hp
    refine ⟨mem_append_right _ hpp, fun hin => ?_⟩
    rcases mem_append.mp hin with hin | hin
    · exact hdis p hin hpp
    · exact hph hin

end

omit [DecidableEq H] in
theorem suspend (h : Ledger processing done (j :: hs) ps) (psub : ∀ p ∈ ps', p = j ∨ p ∈ ps) :
    Ledger processing done hs ps' := by
  obtain ⟨hjn, hn⟩ := nodup_cons.mp h.nodup
  refine ⟨h.keys, h.fresh, hn, fun i hi => h.live i (by simp [hi]), fun p hp => ?_⟩
  rcases psub p hp with rfl | hp
  · exact ⟨h.live p (by simp), hjn⟩
  · obtain ⟨hpp, hph⟩ := h.waiting p hp
    exact ⟨hpp, fun hin => hph (by simp [hin])⟩

theorem finish (h : Ledger processing done (j :: hs) ps) :
    Ledger (processing.filter fun i => i.hash ≠ j.hash) (j.hash :: done) hs ps := by
  have hj : j ∈ processing := h.live j (by simp)
  have hother : ∀ i ∈ processing, i ≠ j → i ∈ processing.filter fun i => i.hash ≠ j.hash := by
    intro i hi hne
    exact mem_filter.mpr ⟨hi, by simpa using fun heq => hne (h.eq_of_hash hi hj heq)⟩
  obtain ⟨hjn, hn⟩ := nodup_cons.mp h.nodup
  refine ⟨h.keys.sublist (filter_sublist.map _), ?_, hn, ?_, ?_⟩
  · intro i hi
    obtain ⟨hi, hne⟩ := mem_filter.mp hi
    simp only [mem_cons, not_or]
    exact ⟨by simpa using hne, h.fresh i hi⟩
  · intro i hi
    exact hother i (h.live i (by simp [hi])) fun heq => hjn (heq ▸ hi)
  · intro p hp
    obtain ⟨hpp, hph⟩ := h.waiting p hp
    simp only [mem_cons, not_or] at hph
    exact ⟨hother p hpp hph.1, hph.2⟩

omit [DecidableEq H] in
theorem resume (h : Ledger processing done hs (j :: ps)) (hlast : j ∉ ps) :
    Ledger processing done (j :: hs) ps := by
  obtain ⟨hjp, hjh⟩ := h.waiting j (by simp)
  refine ⟨h.keys, h.fresh, nodup_cons.mpr ⟨hjh, h.nodup⟩, ?_, ?_⟩
  · exact forall_mem_cons.mpr ⟨hjp, h.live⟩
  intro p hp
  obtain ⟨hpp, hph⟩ := h.waiting p (by simp [hp])
  refine ⟨hpp, ?_⟩
  simp only [mem_cons, not_or]
  exact ⟨fun heq => hlast (heq ▸ hp), hph⟩

end Ledger

/-! ## The invariant -/

def Awaits (sh : Shared H κ) (j : Job H) (h : H) : Prop :=
  h ∈ sh.done ∨ ∃ i ∈ sh.processing, i.hash = h ∧ (i, j) ∈ sh.listeners

structure DepthFirst (e : Env H) (sh : Shared H κ) (ts : List (Task H)) : Prop where
  ledger : Ledger sh.processing sh.done (held sh ts) (parents sh ts)
  counts : ∀ p ∈ parents sh ts, sh.childrenUnprocessed p = (parents sh ts).count p
  registered : ∀ p ∈ parents sh ts, ∀ c, e.fetch p.hash = .ok c → ∀ n ∈ c.nested, Awaits sh p n
  passed : ∀ j, j ∈ sh.post ∨ j ∈ ts.flatMap Task.passed → NestedDone e sh.done j.hash
  closed : ∀ h ∈ sh.done, NestedDone e sh.done h

variable {e : Env H} {m : Mode} {l : Listener H κ} {sh sh' : Shared H κ}
  {r ts ts' : List (Task H)} {t t' : Task H} {j : Job H}

theorem DepthFirst.perm (h : DepthFirst e sh ts) (hp : ts.Perm ts') : DepthFirst e sh ts' := by
  have hheld : (held sh ts).Perm (held sh ts') := (hp.flatMap_right _).append_left _
  have hpar : (parents sh ts).Perm (parents sh ts') := (hp.flatMap_right _).append_left _
  refine ⟨?_, ?_, ?_, ?_, h.closed⟩
  · exact h.ledger.weaken (hheld.nodup_iff.mp h.ledger.nodup) (fun x hx => hheld.mem_iff.mpr hx)
      fun x hx => hpar.mem_iff.mpr hx
  · intro p hp'
    rw [h.counts p (hpar.mem_iff.mpr hp'), hpar.count_eq]
  · exact fun p hp' => h.registered p (hpar.mem_iff.mpr hp')
  · intro i hi
    exact h.passed i (hi.imp id fun hi => (hp.flatMap_right _).mem_iff.mpr hi)

structure SameJobs (sh sh' : Shared H κ) : Prop where
  processing : sh'.processing = sh.processing := by rfl
  done : sh'.done = sh.done := by rfl
  listeners : sh'.listeners = sh.listeners := by rfl
  counts : sh'.childrenUnprocessed = sh.childrenUnprocessed := by rfl

theorem DepthFirst.move (h : DepthFirst e sh (t :: r)) (hsame : SameJobs sh sh')
    (hpassed : ∀ i ∈ t'.passed, i ∈ sh.post ∨ i ∈ t.passed ∨ NestedDone e sh.done i.hash)
    (hnodup : (held sh (t :: r)).Nodup → (held sh' (t' :: r)).Nodup := by exact id)
    (hheld : ∀ x ∈ held sh' (t' :: r), x ∈ held sh (t :: r) := by exact fun _ hx => hx)
    (hpost : ∀ i ∈ sh'.post, i ∈ sh.post := by exact fun _ hi => hi)
    (hwoken : t'.woken = t.woken := by rfl) : DepthFirst e sh' (t' :: r) := by
  obtain ⟨hproc, hdone, hlis, hcount⟩ := hsame
  have hpar : parents sh' (t' :: r) = parents sh (t :: r) := by
    simp [parents, hlis, hwoken]
  refine ⟨?_, ?_, ?_, ?_, ?_⟩
  · rw [hproc, hdone, hpar]
    exact h.ledger.weaken (hnodup h.ledger.nodup) hheld fun _ hx => hx
  · rw [hpar, hcount]
    exact h.counts
  · simp only [Awaits, hpar, hdone, hproc, hlis]
    exact h.registered
  · intro i hi
    rw [hdone]
    rcases hi with hi | hi
    · exact h.passed i (.inl (hpost i hi))
    rw [flatMap_cons, mem_append] at hi
    rcases hi with hi | hi
    · rcases hpassed i hi with hi | hi | hi
      · exact h.passed i (.inl hi)
      · exact h.passed i (.inr (by simp only [flatMap_cons, mem_append]; exact .inl hi))
      · exact hi
    · exact h.passed i (.inr (by simp only [flatMap_cons, mem_append]; exact .inr hi))
  · rw [hdone]
    exact h.closed

/-! ## The critical section -/

/-- What pushing references for `j` adds: jobs for catalogs that were not known,
and one listener for `j` per counted child. -/
structure Spreads (j : Job H) (sh sh' : Shared H κ) (n : Nat) : Prop where
  grows : ∃ new regs, sh'.pre = new.map some ++ sh.pre ∧ sh'.processing = new ++ sh.processing ∧
    (∀ i ∈ new, i.hash ∉ sh.done) ∧ sh'.listeners = sh.listeners ++ regs ∧ regs.length = n ∧
    ∀ x ∈ regs, x.2 = j
  keys : (sh.processing.map Job.hash).Nodup → (sh'.processing.map Job.hash).Nodup
  post : sh'.post = sh.post
  done : sh'.done = sh.done
  counts : sh'.childrenUnprocessed = sh.childrenUnprocessed

omit [DecidableEq H] in
theorem not_mem_keys {h} (hk : ¬ sh.Known h) : h ∉ sh.processing.map Job.hash := by
  intro hmem
  obtain ⟨i, hi, hh⟩ := mem_map.mp hmem
  exact hk (.inr ⟨i, hi, hh⟩)

theorem pushJobUnlocked_processing (hk : ¬ sh.Known j.hash) :
    (sh.pushJobUnlocked j).processing = j :: sh.processing := by
  simp only [pushJobUnlocked]
  rw [filter_eq_self.mpr]
  exact fun i hi => decide_eq_true fun heq => hk (.inr ⟨i, hi, heq⟩)

namespace Spreads

variable {s u : Shared H κ} {k n : Nat} {h : H}

omit [DecidableEq H] in
theorem refl : Spreads j s s 0 :=
  ⟨⟨[], [], by simp, by simp, by simp, by simp, rfl, by simp⟩, id, rfl, rfl, rfl⟩

omit [DecidableEq H] in
theorem trans (hsu : Spreads j sh s k) (hu : Spreads j s u n) : Spreads j sh u (k + n) := by
  obtain ⟨new, regs, hpre, hproc, hfresh, hlis, hlen, hall⟩ := hsu.grows
  obtain ⟨new', regs', hpre', hproc', hfresh', hlis', hlen', hall'⟩ := hu.grows
  refine ⟨⟨new' ++ new, regs ++ regs', ?_, ?_, ?_, ?_, ?_, ?_⟩, hu.keys ∘ hsu.keys,
    hu.post.trans hsu.post, hu.done.trans hsu.done, hu.counts.trans hsu.counts⟩
  · simp [hpre', hpre]
  · simp [hproc', hproc]
  · intro i hi
    rcases mem_append.mp hi with hi | hi
    · rw [← hsu.done]
      exact hfresh' i hi
    · exact hfresh i hi
  · simp [hlis', hlis]
  · simp [hlen, hlen']
  · intro x hx
    exact (mem_append.mp hx).elim (hall x) (hall' x)

omit [DecidableEq H] in
theorem awaits (hsu : Spreads j sh s k) {p} (ha : Awaits sh p h) : Awaits s p h := by
  obtain ⟨new, regs, -, hproc, -, hlis, -, -⟩ := hsu.grows
  rcases ha with hd | ⟨i, hi, hh, hr⟩
  · exact .inl (hsu.done ▸ hd)
  · exact .inr ⟨i, by simp [hproc, hi], hh, by simp [hlis, hr]⟩

variable (hno : e.params.noRepeatHistory = true) (hm : m.type = .depthFirst)
include hno hm

theorem pushChild (s : Shared H κ) (j : Job H) (h : H) (level depth : Nat) :
    Spreads j s (s.pushChild e m j h level depth).1 (s.pushChild e m j h level depth).2 ∧
      Awaits (s.pushChild e m j h level depth).1 j h := by
  rcases s.pushChild_cases m j h level depth hno with
    ⟨hd, heq⟩ | ⟨-, child, hc, hh, heq⟩ | ⟨hk, heq⟩ <;> rw [heq] <;>
    simp only [registerListener, hm]
  · exact ⟨refl, .inl hd⟩
  · refine ⟨⟨⟨[], [(child, j)], by simp, by simp, by simp, rfl, rfl, by simp⟩, id, rfl, rfl, rfl⟩, ?_⟩
    exact .inr ⟨child, hc, hh, by simp⟩
  have hdone : h ∉ s.done := fun hd => hk (.inl hd)
  have hproc := pushJobUnlocked_processing (j := s.newJob h level depth) hk
  refine ⟨⟨⟨[s.newJob h level depth], [(s.newJob h level depth, j)], rfl, hproc, ?_, rfl, rfl,
    by simp⟩, ?_, rfl, rfl, rfl⟩, .inr ⟨s.newJob h level depth, ?_, rfl, by simp⟩⟩
  · simpa [newJob] using hdone
  · intro hnd
    simp only [hproc, map_cons, nodup_cons]
    exact ⟨not_mem_keys hk, hnd⟩
  · simp [hproc]

theorem pushNestedCatalogs (s : Shared H κ) (j : Job H) (hs : List H) :
    Spreads j s (pushNestedCatalogs e m j s hs).1 (pushNestedCatalogs e m j s hs).2 ∧
      ∀ h ∈ hs, Awaits (pushNestedCatalogs e m j s hs).1 j h := by
  induction hs generalizing s with
  | nil => exact ⟨refl, by simp⟩
  | cons h hs ih =>
    simp only [forall_mem_cons]
    obtain ⟨hfirst, hh⟩ := pushChild hno hm s j h (j.treeLevel + 1) j.historyDepth
    obtain ⟨hrest, hall⟩ := ih (s.pushChild e m j h (j.treeLevel + 1) j.historyDepth).1
    exact ⟨hfirst.trans hrest, hrest.awaits hh, hall⟩

theorem pushPreviousRevision {c} (h : s.pushPreviousRevision e m j c = some (u, n)) :
    Spreads j s u n := by
  unfold Shared.pushPreviousRevision at h
  repeat' split at h
  · cases h; exact refl
  · cases h; exact refl
  · cases h
  · cases h; exact refl
  case h_3 p _ _ _ =>
    have hpush := (pushChild hno hm s j p 0 (j.historyDepth + 1)).1
    rwa [Option.some.inj h] at hpush

end Spreads

/-- The critical section in a depth-first pass: after it each nested catalog is
finished or awaited, and the counter is the number of the new listeners. -/
theorem pushReferences_spec {c n} (hno : e.params.noRepeatHistory = true)
    (hm : m.type = .depthFirst) (h : sh.pushReferences e m j c = some (sh', n)) :
    ∃ s, Spreads j sh s n ∧ (∀ x ∈ c.nested, Awaits s j x) ∧
      sh' = s.setChildrenUnprocessed j n := by
  simp only [pushReferences, hm] at h
  obtain ⟨hn, hall⟩ := Spreads.pushNestedCatalogs hno hm sh j c.nested
  split at h
  · cases h
  case h_2 s k hprev =>
    have hp := Spreads.pushPreviousRevision hno hm hprev
    cases h
    exact ⟨s, hn.trans hp, fun x hx => hp.awaits (hall x hx), rfl⟩

/-! ## Steps -/

section SetChildrenUnprocessed

variable (k : Int)

@[simp] theorem parents_setChildrenUnprocessed :
    parents (sh.setChildrenUnprocessed j k) ts = parents sh ts := rfl

theorem setChildrenUnprocessed_of_ne {p} (h : p ≠ j) :
    (sh.setChildrenUnprocessed j k).childrenUnprocessed p = sh.childrenUnprocessed p :=
  Function.update_of_ne h _ _

theorem setChildrenUnprocessed_self : (sh.setChildrenUnprocessed j k).childrenUnprocessed j = k :=
  Function.update_self _ _ _

end SetChildrenUnprocessed

theorem DepthFirst.not_parent (h : DepthFirst e sh ts) (hj : j ∈ held sh ts) : j ∉ parents sh ts :=
  fun hp => (h.ledger.waiting j hp).2 hj

section Link

variable {c : Catalog H} {n : Nat} {s : Shared H κ}

omit [DecidableEq H] in
theorem mem_held_link : j ∈ held sh (.link j c :: r) := by simp [held, Task.held]

theorem Spreads.ledger (hs : Spreads j sh s n) (h : DepthFirst e sh (.link j c :: r)) :
    ∃ new, s.pre.filterMap id = new ++ sh.pre.filterMap id ∧
      Ledger s.processing s.done (new ++ held sh (.link j c :: r)) (parents sh (.link j c :: r)) := by
  obtain ⟨new, regs, hpre, hproc, hfresh, -⟩ := hs.grows
  refine ⟨new, by simp [hpre], ?_⟩
  rw [hs.done, hproc]
  exact h.ledger.push (hproc ▸ hs.keys h.ledger.keys) hfresh

omit [DecidableEq H] in
theorem Spreads.parents (hs : Spreads j sh s n) :
    s.listeners.map snd = sh.listeners.map snd ++ replicate n j := by
  obtain ⟨new, regs, -, -, -, hlis, hlen, hregs⟩ := hs.grows
  have heq : regs.map snd = replicate n j := by
    rw [eq_replicate_iff]
    refine ⟨by simpa using hlen, fun x hx => ?_⟩
    obtain ⟨y, hy, rfl⟩ := mem_map.mp hx
    exact hregs y hy
  rw [hlis, map_append, heq]

section

variable (h : DepthFirst e sh (.link j c :: r)) (hf : e.fetch j.hash = .ok c)
include h hf

theorem DepthFirst.link_none
    (hs : Spreads j sh s 0) (hall : ∀ x ∈ c.nested, Awaits s j x) (k : Int) :
    DepthFirst e (s.setChildrenUnprocessed j k) (.report j :: r) := by
  have hjp := h.not_parent mem_held_link
  have hlis : s.listeners.map snd = sh.listeners.map snd := by
    simpa using hs.parents
  have hpar : parents s (.report j :: r) = parents sh (.link j c :: r) := by
    simp only [parents, hlis]
    rfl
  obtain ⟨new, hpre, hled⟩ := hs.ledger h
  refine ⟨?_, ?_, ?_, ?_, ?_⟩
  · rw [parents_setChildrenUnprocessed, hpar]
    have heq : held s (.report j :: r) = new ++ held sh (.link j c :: r) := by
      simp only [held, hpre, hs.post, append_assoc]
      rfl
    exact heq ▸ hled
  · rw [parents_setChildrenUnprocessed, hpar]
    intro p hp
    have hne : p ≠ j := fun heq => hjp (heq ▸ hp)
    rw [setChildrenUnprocessed_of_ne _ hne, hs.counts]
    exact h.counts p hp
  · rw [parents_setChildrenUnprocessed, hpar]
    exact fun p hp c' hc x hx => hs.awaits (h.registered p hp c' hc x hx)
  · intro i hi
    change NestedDone e s.done i.hash
    rw [hs.done]
    change i ∈ s.post ∨ _ at hi
    simp only [hs.post, flatMap_cons, mem_append] at hi
    rcases hi with hi | hi | hi
    · exact h.passed i (.inl hi)
    · rw [mem_singleton.mp hi]
      intro c' hc x hx
      rw [hf] at hc
      cases hc
      rcases hall x hx with hd | ⟨y, -, -, hy⟩
      · exact hs.done ▸ hd
      -- A listener for `j` would make the held job a parent.
      have hmem : j ∈ s.listeners.map snd := mem_map.mpr ⟨_, hy, rfl⟩
      rw [hlis] at hmem
      exact absurd (mem_append_left _ hmem) hjp
    · exact h.passed i (.inr (mem_append_right _ hi))
  · change ∀ x ∈ s.done, NestedDone e s.done x
    rw [hs.done]
    exact h.closed

theorem DepthFirst.link_some (hs : Spreads j sh s n) (hall : ∀ x ∈ c.nested, Awaits s j x) :
    DepthFirst e (s.setChildrenUnprocessed j n) (.idle :: r) := by
  have hjp := h.not_parent mem_held_link
  have hpar : (parents s (.idle :: r)).Perm (replicate n j ++ parents sh (.link j c :: r)) := by
    simp only [parents, hs.parents, append_assoc]
    exact perm_append_comm_assoc _ _ _
  have hmem : ∀ p ∈ parents s (.idle :: r), p = j ∨ p ∈ parents sh (.link j c :: r) :=
    fun p hp => (mem_append.mp (hpar.mem_iff.mp hp)).imp eq_of_mem_replicate id
  obtain ⟨new, hpre, hled⟩ := hs.ledger h
  refine ⟨?_, ?_, ?_, ?_, ?_⟩
  · have hperm : (new ++ held sh (.link j c :: r)).Perm (j :: held s (.idle :: r)) := by
      simp only [held, hpre, hs.post, flatMap_cons, Task.held, nil_append, append_assoc,
        singleton_append]
      exact (((perm_middle.append_left _).trans perm_middle).append_left _).trans
        perm_middle
    have hled' := hled.weaken (hperm.nodup_iff.mp hled.nodup)
      (fun x hx => hperm.mem_iff.mpr hx) fun _ hx => hx
    exact hled'.suspend hmem
  · intro p hp
    rw [parents_setChildrenUnprocessed, hpar.count_eq, count_append]
    by_cases heq : p = j
    · subst heq
      rw [setChildrenUnprocessed_self, count_replicate_self, count_eq_zero_of_not_mem hjp]
      simp
    · rw [setChildrenUnprocessed_of_ne _ heq, hs.counts, count_replicate,
        if_neg (by simpa using Ne.symm heq), Nat.zero_add]
      exact h.counts p ((hmem p hp).resolve_left heq)
  · intro p hp c' hc x hx
    rcases hmem p hp with rfl | hp
    · rw [hf] at hc
      cases hc
      exact hall x hx
    · exact hs.awaits (h.registered p hp c' hc x hx)
  · intro i hi
    change NestedDone e s.done i.hash
    rw [hs.done]
    exact h.passed i (hi.imp (hs.post ▸ ·) (mem_append_right _))
  · exact hs.done ▸ h.closed

end

end Link

omit [DecidableEq H] in
theorem filterMap_pre_notifyFinished :
    (sh.notifyFinished e).pre.filterMap id = sh.pre.filterMap id := by
  simp [notifyFinished, filterMap_replicate_of_none]

theorem finalizeJob_pre : (sh.finalizeJob e j).pre.filterMap id = sh.pre.filterMap id := by
  unfold finalizeJob
  dsimp only
  split
  · exact filterMap_pre_notifyFinished
  · rfl

theorem finalizeJob_counts (sh : Shared H κ) (j : Job H) :
    (sh.finalizeJob e j).childrenUnprocessed = sh.childrenUnprocessed := by
  unfold finalizeJob
  dsimp only
  split <;> rfl

theorem perm_listeners (ls : List (Job H × Job H)) (j : Job H) (w : List (Job H)) :
    ((ls.filter fun x => x.1 ≠ j).map snd ++
      ((ls.filter fun x => x.1 = j).map snd ++ w)).Perm (ls.map snd ++ w) := by
  rw [← append_assoc, ← map_append]
  refine Perm.append_right w (Perm.map _ ?_)
  have hsplit := filter_append_perm (fun x : Job H × Job H => decide (x.1 ≠ j)) ls
  simpa using hsplit

theorem DepthFirst.finalize (h : DepthFirst e sh (.finalize j :: r)) : DepthFirst e
      { sh.finalizeJob e j with
        listeners := (sh.finalizeJob e j).listeners.filter fun x => x.1 ≠ j }
      (.wake (((sh.finalizeJob e j).listeners.filter fun x => x.1 = j).map snd) :: r) := by
  obtain ⟨-, -, hpost, hdone, hlis, -, hproc⟩ := finalizeJob_spec (e := e) sh j
  have hcounts := finalizeJob_counts (e := e) sh j
  set sh' : Shared H κ := { sh.finalizeJob e j with
    listeners := (sh.finalizeJob e j).listeners.filter fun x => x.1 ≠ j } with hsh'
  set ws : List (Job H) := ((sh.finalizeJob e j).listeners.filter fun x => x.1 = j).map snd
    with hws
  have hj : j ∈ sh.processing := h.ledger.live j (by simp [held, Task.held])
  have hnested : NestedDone e sh.done j.hash := h.passed j (.inr (by simp [Task.passed]))
  have hsub : ∀ x ∈ sh.done, x ∈ sh'.done := fun x hx => by
    rw [show sh'.done = j.hash :: sh.done from hdone]
    exact .tail _ hx
  have hheld : (held sh (.finalize j :: r)).Perm (j :: held sh' (.wake ws :: r)) := by
    have heq : held sh' (.wake ws :: r) =
        sh.pre.filterMap id ++ sh.post ++ r.flatMap Task.held := by
      simp only [held, hsh', finalizeJob_pre, hpost]
      rfl
    rw [heq]
    exact perm_middle
  have hpar : (parents sh' (.wake ws :: r)).Perm (parents sh (.finalize j :: r)) := by
    simp only [parents, hsh', hws, hlis]
    exact perm_listeners _ _ _
  refine ⟨?_, ?_, ?_, ?_, ?_⟩
  · have hled : Ledger sh.processing sh.done (j :: held sh' (.wake ws :: r))
        (parents sh' (.wake ws :: r)) :=
      h.ledger.weaken (hheld.nodup_iff.mp h.ledger.nodup) (fun x hx => hheld.mem_iff.mpr hx)
        fun x hx => hpar.mem_iff.mp hx
    rw [show sh'.processing = _ from hproc, show sh'.done = _ from hdone]
    exact hled.finish
  · intro p hp
    rw [show sh'.childrenUnprocessed = _ from hcounts, hpar.count_eq]
    exact h.counts p (hpar.mem_iff.mp hp)
  · intro p hp c hc n hn
    rcases h.registered p (hpar.mem_iff.mp hp) c hc n hn with hd | ⟨i, hi, hh, hr⟩
    · exact .inl (hsub n hd)
    by_cases heq : i = j
    · subst heq
      exact .inl (by rw [show sh'.done = _ from hdone, ← hh]; simp)
    have hne : i.hash ≠ j.hash := fun he => heq (h.ledger.eq_of_hash hi hj he)
    refine .inr ⟨i, ?_, hh, ?_⟩
    · rw [show sh'.processing = _ from hproc]
      exact mem_filter.mpr ⟨hi, decide_eq_true hne⟩
    · rw [hsh']
      simp only [hlis]
      exact mem_filter.mpr ⟨hr, decide_eq_true heq⟩
  · intro i hi
    refine NestedDone.mono ?_ hsub
    rcases hi with hi | hi
    · exact h.passed i (.inl (by rwa [show sh'.post = _ from hpost] at hi))
    · exact h.passed i (.inr (mem_append_right _ hi))
  · intro x hx
    refine NestedDone.mono ?_ hsub
    rw [show sh'.done = _ from hdone] at hx
    rcases mem_cons.mp hx with rfl | hx
    · exact hnested
    · exact h.closed x hx

theorem DepthFirst.wake {p ps} (h : DepthFirst e sh (.wake (p :: ps) :: r)) :
    DepthFirst e (sh.onChildFinished p) (.wake ps :: r) := by
  have hpar : (parents sh (.wake (p :: ps) :: r)).Perm (p :: parents sh (.wake ps :: r)) :=
    perm_middle
  have hp : p ∈ parents sh (.wake (p :: ps) :: r) := hpar.mem_iff.mpr (by simp)
  have hcount := h.counts p hp
  rw [hpar.count_eq, count_cons_self] at hcount
  have hled : Ledger sh.processing sh.done (held sh (.wake ps :: r))
      (p :: parents sh (.wake ps :: r)) :=
    h.ledger.weaken h.ledger.nodup (fun _ hx => hx) fun x hx => hpar.mem_iff.mpr hx
  have hothers : ∀ q ∈ parents sh (.wake ps :: r), q ≠ p →
      sh.childrenUnprocessed q = (parents sh (.wake ps :: r)).count q := by
    intro q hq hne
    rw [h.counts q (hpar.mem_iff.mpr (by simp [hq])), hpar.count_eq, count_cons_of_ne (Ne.symm hne)]
  have hreg : ∀ q ∈ parents sh (.wake ps :: r), ∀ c, e.fetch q.hash = .ok c → ∀ n ∈ c.nested,
      Awaits sh q n :=
    fun q hq => h.registered q (hpar.mem_iff.mpr (by simp [hq]))
  unfold onChildFinished
  dsimp only
  split
  case isTrue hone =>
    have hlast : p ∉ parents sh (.wake ps :: r) := by
      rw [hone] at hcount
      exact count_eq_zero.mp (by omega)
    refine ⟨?_, ?_, hreg, ?_, h.closed⟩
    · have hperm : (p :: held sh (.wake ps :: r)).Perm
          (held { sh with post := p :: sh.post } (.wake ps :: r)) := by
        simp only [held, append_assoc, cons_append]
        exact perm_middle.symm
      have hres := hled.resume hlast
      exact hres.weaken (hperm.nodup_iff.mp hres.nodup) (fun x hx => hperm.mem_iff.mpr hx)
        fun _ hx => hx
    · intro q hq
      have hne : q ≠ p := fun heq => hlast (heq ▸ hq)
      exact (setChildrenUnprocessed_of_ne _ hne).trans (hothers q hq hne)
    intro i hi
    rcases hi with hi | hi
    · rcases mem_cons.mp hi with rfl | hi
      · intro c hc n hn
        rcases h.registered i hp c hc n hn with hd | ⟨k, -, -, hr⟩
        · exact hd
        · -- A listener that is still registered would be another call.
          exact absurd (mem_append_left _ (mem_map.mpr ⟨_, hr, rfl⟩)) hlast
      · exact h.passed i (.inl hi)
    · exact h.passed i (.inr hi)
  case isFalse hmore =>
    refine ⟨hled.weaken hled.nodup (fun _ hx => hx) (fun _ hx => .tail _ hx), ?_, hreg,
      h.passed, h.closed⟩
    intro q hq
    by_cases heq : q = p
    · subst heq
      rw [setChildrenUnprocessed_self, hcount]
      simp
    · exact (setChildrenUnprocessed_of_ne _ heq).trans (hothers q hq heq)

theorem DepthFirst.fail {s : Shared H κ} (h : DepthFirst e sh (t :: r)) (ht : t.woken = [])
    (hsame : SameJobs sh s) (hpre : s.pre = sh.pre := by rfl) (hpost : s.post = sh.post := by rfl) :
    DepthFirst e (s.fail e) (.idle :: r) := by
  have hheld : (held (s.fail e) (.idle :: r)).Sublist (held sh (t :: r)) := by
    have hq : (s.fail e).pre.filterMap id = sh.pre.filterMap id := by
      rw [← hpre]
      exact filterMap_pre_notifyFinished
    simp only [held, hq, show (s.fail e).post = sh.post from hpost, flatMap_cons]
    exact (Sublist.refl _).append (sublist_append_right _ _)
  exact h.move { hsame with } (by simp [Task.passed]) (fun hn => hn.sublist hheld)
    (fun x hx => hheld.subset hx) (fun i hi => hpost ▸ hi) ht.symm

section

variable (hno : e.params.noRepeatHistory = true) (hm : m.type = .depthFirst)
include hno hm

/-- **Step lemma** of the depth-first order. -/
theorem DepthFirst.advance (h : DepthFirst e sh (t :: r))
    (hlink : ∀ j c, t = .link j c → e.fetch j.hash = .ok c)
    (hadv : sh.advance e m l t = some (sh', t')) : DepthFirst e sh' (t' :: r) := by
  cases t with
  | idle =>
    simp only [advance] at hadv
    split at hadv
    · cases hadv
      exact h.move {} (by simp [Task.passed])
    case h_2 j rest hpost =>
      cases hadv
      have hperm : (held sh (.idle :: r)).Perm (held { sh with post := rest } (.report j :: r)) := by
        simp only [held, hpost, flatMap_cons, Task.held, append_assoc, nil_append, cons_append]
        exact Perm.append_left _ perm_middle.symm
      exact h.move {} (by simp [Task.passed, hpost]) (fun hn => hperm.nodup_iff.mp hn)
        (fun x hx => hperm.mem_iff.mpr hx) fun i hi => by simp [hpost, hi]
  | popPre =>
    simp only [advance] at hadv
    split at hadv
    · cases hadv
    case h_2 rest hpre =>
      cases hadv
      have heq : held { sh with pre := rest } (.stopped :: r) = held sh (.popPre :: r) := by
        simp [held, hpre, Task.held]
      exact h.move {} (by simp [Task.passed]) (fun hn => heq ▸ hn) fun x hx => heq ▸ hx
    case h_3 j rest hpre =>
      cases hadv
      have hperm : (held sh (.popPre :: r)).Perm (held { sh with pre := rest } (.prepare j :: r)) := by
        simp only [held, hpre, flatMap_cons, Task.held, append_assoc, nil_append, cons_append,
          filterMap_cons, id_eq]
        exact ((perm_middle.append_left _).trans perm_middle).symm
      exact h.move {} (by simp [Task.passed]) (fun hn => hperm.nodup_iff.mp hn)
        fun x hx => hperm.mem_iff.mpr hx
  | prepare j =>
    simp only [advance] at hadv
    split at hadv
    · cases hadv
      exact h.move {} (by simp [Task.passed])
    case h_2 hc =>
      split at hadv <;> cases hadv
      · refine h.move {} fun i hi => ?_
        rw [mem_singleton.mp hi]
        exact .inr (.inr fun c hc' => by rw [hc] at hc'; cases hc')
      · exact h.fail rfl {}
    · cases hadv
      exact h.fail rfl {}
  | link j c =>
    simp only [advance] at hadv
    split at hadv
    · cases hadv
    case h_2 sh₁ n hpush =>
      cases hadv
      obtain ⟨s, hs, hall, rfl⟩ := pushReferences_spec hno hm hpush
      split
      case isTrue hn =>
        obtain rfl : n = 0 := by simpa [hm] using hn
        exact h.link_none (hlink j c rfl) hs hall _
      · exact h.link_some (hlink j c rfl) hs hall
  | report j =>
    simp only [advance] at hadv
    split at hadv
    · cases hadv
      exact h.move {} fun i hi => .inr (.inl hi)
    · cases hadv
      exact h.fail rfl {}
  | enter j c =>
    simp only [advance] at hadv
    split at hadv
    · cases hadv
    · cases hadv
      exact h.move {} fun i hi => .inr (.inl hi)
  | calling j rest =>
    cases rest with
    | nil =>
      simp only [advance] at hadv
      split at hadv <;> cases hadv
      · exact h.move {} fun i hi => .inr (.inl hi)
      · exact h.fail rfl {}
    | cons x rest =>
      cases hadv
      exact h.move {} fun i hi => .inr (.inl hi)
  | finalize j =>
    simp only [advance, hm] at hadv
    cases hadv
    exact h.finalize
  | wake ps =>
    cases ps with
    | nil =>
      cases hadv
      exact h.move {} (by simp [Task.passed])
    | cons p ps =>
      cases hadv
      exact h.wake
  | stopped => cases hadv

theorem DepthFirst.step {p p' : Pool H κ} {i : Nat} (h : DepthFirst e p.shared p.threads)
    (hlink : ∀ j c, .link j c ∈ p.threads → e.fetch j.hash = .ok c)
    (hstep : p.step e m l i = some p') : DepthFirst e p'.shared p'.threads := by
  obtain ⟨a, b, t, t', hts, hadv, hts'⟩ := Pool.step_cases hstep
  have hfront : DepthFirst e p.shared (t :: (a ++ b)) := h.perm (hts ▸ perm_middle)
  have hnext := hfront.advance hno hm (fun j c ht => hlink j c (by simp [hts, ht])) hadv
  exact hnext.perm (hts' ▸ perm_middle.symm)

end

theorem pushStarts_queue (hs : List H) (hnd : hs.Nodup) (hfresh : ∀ h ∈ hs, ¬ sh.Known h)
    (hkeys : (sh.processing.map Job.hash).Nodup) :
    ∃ new, (sh.pushStarts hs).pre = new.map some ++ sh.pre ∧
      (sh.pushStarts hs).processing = new ++ sh.processing ∧
      ((sh.pushStarts hs).processing.map Job.hash).Nodup ∧ ∀ i ∈ new, i.hash ∈ hs := by
  induction hs generalizing sh with
  | nil => exact ⟨[], rfl, rfl, hkeys, by simp⟩
  | cons h hs ih =>
    obtain ⟨hh, hnd⟩ := nodup_cons.mp hnd
    have hk : ¬ sh.Known h := hfresh h (by simp)
    have hproc := pushJobUnlocked_processing (j := sh.newJob h 0 0) hk
    have hfresh' : ∀ x ∈ hs, ¬ (sh.pushJobUnlocked (sh.newJob h 0 0)).Known x := by
      intro x hx hkx
      rcases known_pushJobUnlocked.mp hkx with hkx | heq
      · exact hfresh x (by simp [hx]) hkx
      · exact hh ((show x = h from heq) ▸ hx)
    obtain ⟨new, hpre, hp, hkeys', hnew⟩ := ih hnd hfresh' (by
      simp only [hproc, map_cons, nodup_cons]
      exact ⟨not_mem_keys hk, hkeys⟩)
    refine ⟨new ++ [sh.newJob h 0 0], ?_, ?_, hkeys', ?_⟩
    · rw [pushStarts, hpre]
      simp [pushJobUnlocked]
    · rw [pushStarts, hp, hproc]
      simp
    intro i hi
    rcases mem_append.mp hi with hi | hi
    · exact .tail _ (hnew i hi)
    · rw [mem_singleton.mp hi]
      exact .head _

theorem DepthFirst.spawn {hs} (hpre : sh.pre = []) (hpost : sh.post = [])
    (hproc : sh.processing = []) (hlis : sh.listeners = []) (hnd : hs.Nodup)
    (hfresh : ∀ h ∈ hs, h ∉ sh.done) (hclosed : ∀ h ∈ sh.done, NestedDone e sh.done h) :
    DepthFirst e (sh.pushStarts hs) (replicate e.params.numThreads .idle) := by
  obtain ⟨-, -, spost, sdone, slis, -⟩ := pushStarts_spec sh hs
  have hknown : ∀ h ∈ hs, ¬ sh.Known h := by
    rintro h hh (hd | ⟨i, hi, -⟩)
    · exact hfresh h hh hd
    · simp [hproc] at hi
  obtain ⟨new, npre, nproc, hkeys, hnew⟩ := pushStarts_queue hs hnd hknown (by simp [hproc])
  have hheld : held (sh.pushStarts hs) (replicate e.params.numThreads .idle) = new := by
    simp [held, npre, hpre, spost, hpost, flatMap_replicate, Task.held]
  have hpar : parents (sh.pushStarts hs) (replicate e.params.numThreads .idle) = [] := by
    simp [parents, slis, hlis, flatMap_replicate, Task.woken]
  rw [hproc, append_nil] at nproc
  refine ⟨?_, by simp [hpar], by simp [hpar], ?_, by rw [sdone]; exact hclosed⟩
  · rw [hheld, hpar]
    refine ⟨hkeys, fun j hj => ?_, Nodup.of_map _ (nproc ▸ hkeys), fun j hj => nproc ▸ hj, by simp⟩
    rw [sdone]
    exact hfresh _ (hnew j (nproc ▸ hj))
  · intro j hj
    simp [spost, hpost, flatMap_replicate, Task.passed] at hj

end Cvmfs.Gc
