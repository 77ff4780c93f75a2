import Cvmfs.Replication.Pull

/-! # A replica is closed downwards

A catalog is stored when everything it refers to is at the destination. The invariant says
for every call of `Pull` on the stack what has come so far of its catalog: an object is
coming if it is present or in flight, a chunk is covered if it is coming or still with the
workers. The waits turn covered chunks into coming ones, and coming objects into present
ones. -/

namespace Cvmfs.Replication

open List Or

section

variable {C D : Type} {repo : Repository C D} {objs objs' : List (Object C D)}
  {p p' : Process C D} {s s' : State C D}

/-- The chunks and the nested catalogs of a catalog are present. -/
def Children (repo : Repository C D) (objs : List (Object C D)) (h : C) : Prop :=
  (∀ c ∈ repo.chunks h, .chunk c ∈ objs) ∧ ∀ n ∈ repo.nestedCatalogs h, .catalog n ∈ objs

theorem Children.mono {h} (hc : Children repo objs h) (hsub : objs ⊆ objs') :
    Children repo objs' h :=
  ⟨fun c hmem => hsub (hc.1 c hmem), fun n hmem => hsub (hc.2 n hmem)⟩

/-- An upload leaves nothing of the catalog behind. -/
def Upload.Complete (repo : Repository C D) (objs : List (Object C D)) (u : Upload C D) : Prop :=
  ∀ h, u = .object (.catalog h) → Children repo objs h

def Coming (objs : List (Object C D)) (p : Process C D) (o : Object C D) : Prop :=
  o ∈ objs ∨ .object o ∈ p.inflight

def Covered (objs : List (Object C D)) (p : Process C D) (c : D) : Prop :=
  Coming objs p (.chunk c) ∨ c ∈ p.pipe ∨ ∃ stage, (c, stage) ∈ p.jobs

/-! ## Calls of `Pull` -/

/-- What has come of a catalog whose call is at this phase; `above` is the nested catalog
that is being pulled. -/
def PhaseOk (repo : Repository C D) (objs : List (Object C D)) (p : Process C D)
    (above : Option C) (f : Frame C D) : Phase C D → Prop
  | .peek => True
  | .load => True
  | .send rest => ∀ c ∈ repo.chunks f.hash, c ∈ rest ∨ Covered objs p c
  | .count rest => ∀ c ∈ repo.chunks f.hash, c ∈ rest ∨ Covered objs p c
  | .drain => ∀ c ∈ repo.chunks f.hash, Covered objs p c
  | .recurse rest =>
    (∀ c ∈ repo.chunks f.hash, Coming objs p (.chunk c)) ∧
      ∀ n ∈ repo.nestedCatalogs f.hash, n ∈ rest ∨ above = some n ∨ Coming objs p (.catalog n)
  | .wait ok => ok = true →
    (∀ c ∈ repo.chunks f.hash, Coming objs p (.chunk c)) ∧
      ∀ n ∈ repo.nestedCatalogs f.hash, Coming objs p (.catalog n)
  | .store => Children repo objs f.hash
  | .inspect _ => .catalog f.hash ∈ objs
  | .done ok _ => ok = true → f.isRoot = false → Coming objs p (.catalog f.hash)

structure FrameOk (repo : Repository C D) (objs : List (Object C D)) (p : Process C D)
    (above : Option C) (f : Frame C D) : Prop where
  existing : f.existing = true → .catalog f.hash ∈ objs
  current : f.isRoot = false → f.isHistoric = false
  phase : PhaseOk repo objs p above f f.phase

/-- A call that waits for a nested one. -/
def Phase.Recursing : Phase C D → Prop
  | .recurse _ => True
  | .inspect _ => True
  | _ => False

/-- The calls from the innermost one on. Only the outermost one is about a root catalog. -/
def StackOk (repo : Repository C D) (objs : List (Object C D)) (p : Process C D) :
    Option C → List (Frame C D) → Prop
  | _, [] => True
  | above, f :: fs =>
    FrameOk repo objs p above f ∧ (above ≠ none → f.phase.Recursing) ∧
      (fs ≠ [] → f.isRoot = false) ∧ StackOk repo objs p (some f.hash) fs

/-- Objects keep coming, and chunks stay covered. -/
structure Keeps (objs : List (Object C D)) (p : Process C D) (objs' : List (Object C D))
    (p' : Process C D) : Prop where
  objects : objs ⊆ objs'
  coming : ∀ o, Coming objs p o → Coming objs' p' o
  covered : ∀ c, Covered objs p c → Covered objs' p' c

theorem FrameOk.mono {above f} (hf : FrameOk repo objs p above f) (hk : Keeps objs p objs' p') :
    FrameOk repo objs' p' above f := by
  obtain ⟨hash, isRoot, isHistoric, existing, phase⟩ := f
  refine ⟨fun he => hk.objects (hf.existing he), hf.current, ?_⟩
  have hphase := hf.phase
  cases phase with
  | peek => trivial
  | load => trivial
  | send rest | count rest => exact fun c hc => (hphase c hc).imp_right (hk.covered c)
  | drain => exact fun c hc => hk.covered c (hphase c hc)
  | recurse rest =>
    exact ⟨fun c hc => hk.coming _ (hphase.1 c hc),
      fun n hn => (hphase.2 n hn).imp_right (imp_right (hk.coming _))⟩
  | wait ok =>
    intro hok
    exact ⟨fun c hc => hk.coming _ ((hphase hok).1 c hc),
      fun n hn => hk.coming _ ((hphase hok).2 n hn)⟩
  | store => exact hphase.mono hk.objects
  | inspect rest => exact hk.objects hphase
  | done ok previous => exact fun hok hroot => hk.coming _ (hphase hok hroot)

theorem StackOk.mono (hk : Keeps objs p objs' p') :
    ∀ {above : Option C} {fs : List (Frame C D)}, StackOk repo objs p above fs →
      StackOk repo objs' p' above fs
  | _, [], _ => trivial
  | _, _ :: _, ⟨hf, hrecursing, hroot, hfs⟩ => ⟨hf.mono hk, hrecursing, hroot, StackOk.mono hk hfs⟩

/-! ## Runs -/

/-- The chunk that is in the pipe and not counted yet. -/
def Phase.uncounted : Phase C D → Int
  | .count _ => 1
  | _ => 0

def uncounted : List (Frame C D) → Int
  | [] => 0
  | f :: _ => f.phase.uncounted

structure ProcessOk (repo : Repository C D) (objs : List (Object C D)) (p : Process C D) :
    Prop where
  stack : StackOk repo objs p none p.stack
  counter : p.chunkQueue + uncounted p.stack = p.pipe.length + p.jobs.length
  stored : ∀ c, (c, Stage.count) ∈ p.jobs → Coming objs p (.chunk c)
  uploads : ∀ u ∈ p.inflight, Upload.Complete repo objs u

/-- The replica is closed downwards, and stays so. -/
structure Closing (repo : Repository C D) (s : State C D) : Prop where
  closed : ∀ h, .catalog h ∈ s.objects → Children repo s.objects h
  orphans : ∀ u ∈ s.orphans, Upload.Complete repo s.objects u
  process : ∀ p, s.process = some p → ProcessOk repo s.objects p

theorem Closing.run (h : Closing repo s) (hp : ProcessOk repo s.objects p) :
    Closing repo (s.run p) := by
  refine ⟨h.closed, h.orphans, fun p' hp' => ?_⟩
  cases hp'
  exact hp

theorem Closing.abandon (h : Closing repo s) (hp : s.process = some p) :
    Closing repo (s.abandon p) := by
  refine ⟨h.closed, fun u hu => ?_, fun p' hp' => ?_⟩
  · rcases mem_append.1 hu with hu | hu
    · exact h.orphans u hu
    · exact (h.process p hp).uploads u hu
  · cases hp'

theorem Closing.object (h : Closing repo s) {o}
    (ho : ∀ c, o = .catalog c → Children repo s.objects c) :
    (∀ c, .catalog c ∈ o :: s.objects → Children repo (o :: s.objects) c) ∧
      (∀ u ∈ s.orphans, Upload.Complete repo (o :: s.objects) u) := by
  have hsub : s.objects ⊆ o :: s.objects := subset_cons_self _ _
  refine ⟨fun c hc => ?_, fun u hu c hc => (h.orphans u hu c hc).mono hsub⟩
  rcases mem_cons.1 hc with hc | hc
  · exact (ho c hc.symm).mono hsub
  · exact (h.closed c hc).mono hsub

theorem keeps_object (objs : List (Object C D)) (p : Process C D) (o : Object C D) :
    Keeps objs p (o :: objs) p :=
  ⟨subset_cons_self _ _, fun _ => imp_left (mem_cons_of_mem _),
    fun _ => imp_left (imp_left (mem_cons_of_mem _))⟩

theorem ProcessOk.object (hp : ProcessOk repo objs p) (o : Object C D) :
    ProcessOk repo (o :: objs) p :=
  ⟨hp.stack.mono (keeps_object objs p o), hp.counter,
    fun c hc => (keeps_object objs p o).coming _ (hp.stored c hc),
    fun u hu c hc => (hp.uploads u hu c hc).mono (subset_cons_self _ _)⟩

theorem ProcessOk.append (hp : ProcessOk repo objs p) {u} (hu : Upload.Complete repo objs u) :
    ProcessOk repo objs { p with inflight := p.inflight ++ [u] } := by
  have hk : Keeps objs p objs { p with inflight := p.inflight ++ [u] } :=
    ⟨fun _ h => h, fun _ => imp_right (mem_append_left _),
      fun _ => imp_left (imp_right (mem_append_left _))⟩
  refine ⟨hp.stack.mono hk, hp.counter, fun c hc => hk.coming _ (hp.stored c hc), fun v hv => ?_⟩
  rcases mem_append.1 hv with hv | hv
  · exact hp.uploads v hv
  · cases mem_singleton.1 hv
    exact hu

theorem Closing.store (h : Closing repo s) {o}
    (ho : ∀ c, o = .catalog c → Children repo s.objects c)
    (hlanded : ProcessOk repo (o :: s.objects) p)
    (hscheduled : ProcessOk repo s.objects { p with inflight := p.inflight ++ [.object o] }) :
    Closing repo (s.store p o) := by
  unfold State.store
  split
  · obtain ⟨hclosed, horphans⟩ := h.object ho
    refine ⟨hclosed, horphans, fun p' hp' => ?_⟩
    cases hp'
    exact hlanded
  · exact h.run hscheduled

/-! ## Steps of `Pull` -/

section

variable {f : Frame C D} {fs : List (Frame C D)}

theorem ProcessOk.top (hp : ProcessOk repo objs p) (hstack : p.stack = f :: fs) :
    FrameOk repo objs p none f ∧ (fs ≠ [] → f.isRoot = false) ∧
      StackOk repo objs p (some f.hash) fs := by
  have h := hp.stack
  rw [hstack] at h
  exact ⟨h.1, h.2.2.1, h.2.2.2⟩

theorem Keeps.of_jobs (hpipe : p'.pipe = p.pipe) (hinflight : p'.inflight = p.inflight)
    (hjobs : ∀ c stage, (c, stage) ∈ p.jobs → Covered objs p' c) : Keeps objs p objs p' := by
  refine ⟨fun _ h => h, fun o h => ?_, fun c hc => ?_⟩
  · rwa [Coming, hinflight]
  rcases hc with hcoming | hmem | ⟨stage, hmem⟩
  · exact .inl (by rwa [Coming, hinflight])
  · exact .inr (.inl (hpipe ▸ hmem))
  · exact hjobs c stage hmem

theorem Keeps.of_eq (hpipe : p'.pipe = p.pipe) (hjobs : p'.jobs = p.jobs)
    (hinflight : p'.inflight = p.inflight) : Keeps objs p objs p' :=
  .of_jobs hpipe hinflight fun _ stage hmem => .inr (.inr ⟨stage, hjobs ▸ hmem⟩)

theorem ProcessOk.restack (hold : ProcessOk repo objs p) (hpipe : p'.pipe = p.pipe)
    (hjobs : p'.jobs = p.jobs) (hinflight : p'.inflight = p.inflight)
    (hstack : StackOk repo objs p none p'.stack)
    (hcounter : p'.chunkQueue + uncounted p'.stack = p.pipe.length + p.jobs.length) :
    ProcessOk repo objs p' := by
  have hk : Keeps objs p objs p' := Keeps.of_eq hpipe hjobs hinflight
  refine ⟨hstack.mono hk, ?_, fun c hc => hk.coming _ (hold.stored c (hjobs ▸ hc)),
    fun u hu => hold.uploads u (hinflight ▸ hu)⟩
  rw [hpipe, hjobs]
  exact hcounter

variable {phase : Phase C D}

theorem ProcessOk.goto (hold : ProcessOk repo objs p) (hstack : p.stack = f :: fs)
    (reached threshold : Bool) {f' : Frame C D} (hcount : phase.uncounted = f.phase.uncounted)
    (hhash : f'.hash = f.hash) (hroot : f'.isRoot = f.isRoot)
    (hok : FrameOk repo objs p none { f' with phase }) :
    ProcessOk repo objs { p with
      reachedExisting := reached, applyThreshold := threshold
      stack := { f' with phase } :: fs } := by
  obtain ⟨-, hnested, hfs⟩ := hold.top hstack
  have hfs' : StackOk repo objs p (some f'.hash) fs := hhash.symm ▸ hfs
  refine hold.restack rfl rfl rfl ⟨hok, fun hne => absurd rfl hne,
    fun hne => hroot.trans (hnested hne), hfs'⟩ ?_
  have hcounter := hold.counter
  rw [hstack] at hcounter
  show p.chunkQueue + phase.uncounted = _
  rw [hcount]
  exact hcounter

section

variable (h : Closing repo s) (hp : s.process = some p) (hstack : p.stack = f :: fs)
include h hp hstack

theorem Closing.goto (reached threshold : Bool) {f' : Frame C D}
    (hcount : phase.uncounted = f.phase.uncounted) (hhash : f'.hash = f.hash)
    (hroot : f'.isRoot = f.isRoot) (hok : FrameOk repo s.objects p none { f' with phase }) :
    Closing repo (s.goto { p with reachedExisting := reached, applyThreshold := threshold }
      f' fs phase) :=
  h.run ((h.process p hp).goto hstack reached threshold hcount hhash hroot hok)

theorem Closing.send {c rest} (hphase : f.phase = .send (c :: rest)) :
    Closing repo (s.goto { p with pipe := p.pipe ++ [c] } f fs (.count rest)) := by
  have hold := h.process p hp
  obtain ⟨hf, hnested, hfs⟩ := hold.top hstack
  have hsent := hf.phase
  rw [hphase] at hsent
  have hk : Keeps s.objects p s.objects
      { p with pipe := p.pipe ++ [c], stack := { f with phase := .count rest } :: fs } :=
    ⟨fun _ h => h, fun _ h => h, fun _ => imp_right (imp_left (mem_append_left _))⟩
  refine h.run ⟨⟨⟨hf.existing, hf.current, fun c' hc' => ?_⟩, fun hne => absurd rfl hne, hnested,
    hfs.mono hk⟩, ?_, fun c hc => hk.coming _ (hold.stored c hc), hold.uploads⟩
  · rcases hsent c' hc' with hmem | hcovered
    · rcases mem_cons.1 hmem with rfl | hmem
      · exact .inr (.inr (.inl (mem_append_right _ (mem_singleton_self _))))
      · exact .inl hmem
    · exact .inr (hk.covered c' hcovered)
  have hcounter := hold.counter
  rw [hstack] at hcounter
  have hzero : uncounted (f :: fs) = 0 := by simp only [uncounted, hphase, Phase.uncounted]
  rw [hzero] at hcounter
  show p.chunkQueue + 1 = ((p.pipe ++ [c]).length : Int) + p.jobs.length
  rw [length_append, length_singleton]
  omega

theorem Closing.count {rest} (hphase : f.phase = .count rest) :
    Closing repo (s.goto { p with chunkQueue := p.chunkQueue + 1 } f fs (.send rest)) := by
  have hold := h.process p hp
  obtain ⟨hf, hnested, hfs⟩ := hold.top hstack
  have hsent := hf.phase
  rw [hphase] at hsent
  refine h.run (hold.restack rfl rfl rfl ⟨⟨hf.existing, hf.current, hsent⟩,
    fun hne => absurd rfl hne, hnested, hfs⟩ ?_)
  have hcounter := hold.counter
  rw [hstack] at hcounter
  have hone : uncounted (f :: fs) = 1 := by simp only [uncounted, hphase, Phase.uncounted]
  rw [hone] at hcounter
  show p.chunkQueue + 1 + 0 = _
  rw [Int.add_zero]
  exact hcounter

theorem Closing.drain (hphase : f.phase = .drain) (hzero : p.chunkQueue = 0) :
    Closing repo (s.goto p f fs (.recurse (repo.nestedCatalogs f.hash))) := by
  have hold := h.process p hp
  obtain ⟨hf, -, -⟩ := hold.top hstack
  have hcovered := hf.phase
  rw [hphase] at hcovered
  have hcount : f.phase.uncounted = 0 := by rw [hphase]; rfl
  have hcounter := hold.counter
  rw [hstack, hzero, uncounted, hcount] at hcounter
  have hpipe : p.pipe = [] := length_eq_zero_iff.1 (by omega)
  have hjobs : p.jobs = [] := length_eq_zero_iff.1 (by omega)
  refine h.goto hp hstack p.reachedExisting p.applyThreshold hcount.symm rfl rfl
    ⟨hf.existing, hf.current, fun c hc => ?_, fun n hn => .inl hn⟩
  rcases hcovered c hc with hcoming | hmem | ⟨stage, hmem⟩
  · exact hcoming
  · rw [hpipe] at hmem
    cases hmem
  · rw [hjobs] at hmem
    cases hmem

theorem Closing.call {n} (hcount : f.phase.uncounted = 0) (hrecursing : phase.Recursing)
    (hok : FrameOk repo s.objects p (some n) { f with phase }) :
    Closing repo (s.run { p with stack :=
      { hash := n, isRoot := false, isHistoric := false } :: { f with phase } :: fs }) := by
  have hold := h.process p hp
  obtain ⟨-, hnested, hfs⟩ := hold.top hstack
  have hcounter := hold.counter
  rw [hstack, uncounted, hcount] at hcounter
  exact h.run (hold.restack rfl rfl rfl ⟨⟨nofun, fun _ => rfl, trivial⟩, fun hne => absurd rfl hne,
    fun _ => rfl, hok, fun _ => hrecursing, hnested, hfs⟩ hcounter)

theorem Closing.recurse {n rest} (hphase : f.phase = .recurse (n :: rest)) :
    Closing repo (s.run { p with stack :=
      { hash := n, isRoot := false, isHistoric := false } ::
        { f with phase := .recurse rest } :: fs }) := by
  obtain ⟨hf, -, -⟩ := (h.process p hp).top hstack
  have hcome := hf.phase
  rw [hphase] at hcome
  refine h.call hp hstack (by rw [hphase]; rfl) trivial
    ⟨hf.existing, hf.current, hcome.1, fun n' hn' => ?_⟩
  rcases hcome.2 n' hn' with hmem | habove | hcoming
  · rcases mem_cons.1 hmem with rfl | hmem
    · exact .inr (.inl rfl)
    · exact .inl hmem
  · cases habove
  · exact .inr (.inr hcoming)

end

theorem here_of_coming (hinflight : p.inflight = []) {o} (h : Coming objs p o) : o ∈ objs := by
  refine h.resolve_right fun hmem => ?_
  rw [hinflight] at hmem
  cases hmem

section

variable (h : Closing repo s) (hp : s.process = some p) (hstack : p.stack = f :: fs)
include h hp hstack

theorem Closing.returnFrom {ok previous} (hphase : f.phase = .done ok previous) :
    Closing repo (returnFrom s p fs ok previous) := by
  have hold := h.process p hp
  obtain ⟨hf, hnested, hfs⟩ := hold.top hstack
  have hdone := hf.phase
  rw [hphase] at hdone
  have hcounter := hold.counter
  rw [hstack, show uncounted (f :: fs) = 0 by simp only [uncounted, hphase, Phase.uncounted]]
    at hcounter
  -- outside of the stack nothing changes
  have hmain : ∀ place : Place C, ∀ retval : Bool,
      Closing repo (s.run { p with stack := [], retval, place }) := fun _ _ =>
    h.run (hold.restack rfl rfl rfl trivial hcounter)
  cases fs with
  | nil =>
    unfold Replication.returnFrom
    dsimp only
    split
    · exact hmain _ _
    · exact hmain _ _
  | cons parent fs =>
    obtain ⟨hparent, hrecursing, hroot, hrest⟩ := hfs
    have hchild : ok = true → Coming s.objects p (.catalog f.hash) := fun hok =>
      hdone hok (hnested (cons_ne_nil _ _))
    have hgo : ∀ phase : Phase C D, phase.uncounted = 0 →
        FrameOk repo s.objects p none { parent with phase } →
        Closing repo (s.goto p parent fs phase) := by
      intro phase hphase hframe
      refine h.run (hold.restack rfl rfl rfl ⟨hframe, fun hne => absurd rfl hne, hroot, hrest⟩ ?_)
      show p.chunkQueue + phase.uncounted = _
      rw [hphase]
      exact hcounter
    unfold Replication.returnFrom
    dsimp only
    cases hpphase : parent.phase with
    | recurse rest =>
      have hcome := hparent.phase
      rw [hpphase] at hcome
      split
      · rename_i hok
        have hframe : FrameOk repo s.objects p none { parent with phase := .recurse rest } := by
          refine ⟨hparent.existing, hparent.current, hcome.1, fun n hn => ?_⟩
          rcases hcome.2 n hn with hmem | habove | hcoming
          · exact .inl hmem
          · cases habove
            exact .inr (.inr (hchild hok))
          · exact .inr (.inr hcoming)
        have hgoto := hgo (.recurse rest) rfl hframe
        rwa [State.goto, ← hpphase] at hgoto
      · exact hgo (.wait false) rfl ⟨hparent.existing, hparent.current, nofun⟩
    | inspect rest =>
      have hpresent := hparent.phase
      rw [hpphase] at hpresent
      split
      · have hgoto := hgo (.inspect rest) rfl ⟨hparent.existing, hparent.current, hpresent⟩
        rwa [State.goto, ← hpphase] at hgoto
      · exact hgo (.done false none) rfl ⟨hparent.existing, hparent.current, nofun⟩
    | _ =>
      have hcontra := hrecursing (Option.some_ne_none _)
      rw [hpphase] at hcontra
      cases hcontra

theorem Closing.storeCatalog (hphase : f.phase = .store) {previous : Option C}
    (hchildren : Children repo s.objects f.hash) :
    Closing repo (s.store { p with stack := { f with phase := .done true previous } :: fs }
      (.catalog f.hash)) := by
  have hold := h.process p hp
  have hcount : f.phase.uncounted = 0 := by rw [hphase]; rfl
  have ho : ∀ c, Object.catalog f.hash = (.catalog c : Object C D) → Children repo s.objects c := by
    intro c hc
    cases hc
    exact hchildren
  refine h.store ho ?_ ?_
  · have hnext := hold.object (.catalog f.hash)
    obtain ⟨hf, -, -⟩ := hnext.top hstack
    exact hnext.goto hstack p.reachedExisting p.applyThreshold hcount.symm rfl rfl
      ⟨hf.existing, hf.current, fun _ _ => .inl (.head _)⟩
  have hnext := hold.append fun c hc => ho c (Upload.object.inj hc)
  obtain ⟨hf, -, -⟩ := hnext.top hstack
  exact hnext.goto hstack p.reachedExisting p.applyThreshold hcount.symm rfl rfl
    ⟨hf.existing, hf.current, fun _ _ => .inr (mem_append_right _ (mem_singleton_self _))⟩

theorem Closing.pull {outcome} (hmove : PullMove repo s p f fs outcome s') : Closing repo s' := by
  obtain ⟨hf, -, -⟩ := (h.process p hp).top hstack
  have hcome := hf.phase
  have hgoto : ∀ {phase : Phase C D}, phase.uncounted = f.phase.uncounted →
      PhaseOk repo s.objects p none f phase → Closing repo (s.goto p f fs phase) :=
    fun hcount hok => h.goto hp hstack p.reachedExisting p.applyThreshold hcount rfl rfl
      ⟨hf.existing, hf.current, hok⟩
  -- only root catalogs are skipped, and no other call waits for these
  have hskip : f.isRoot = true → f.phase.uncounted = 0 →
      Closing repo (s.goto p f fs (.done true none)) := fun hroot hcount =>
    hgoto hcount.symm fun _ hnot => absurd (hroot.symm.trans hnot) nofun
  cases hmove with
  | collected hphase _ hroot | pruned hphase hroot => exact hskip hroot (by rw [hphase]; rfl)
  | inspect hphase hpresent =>
    exact h.goto hp hstack _ p.applyThreshold (by rw [hphase]; rfl) rfl rfl
      ⟨fun _ => hpresent, hf.current, hpresent⟩
  | inspectFails hphase hpresent =>
    exact h.goto hp hstack _ p.applyThreshold (by rw [hphase]; rfl) rfl rfl
      ⟨fun _ => hpresent, hf.current, nofun⟩
  | upToDate hphase hpresent =>
    exact h.goto hp hstack _ p.applyThreshold (by rw [hphase]; rfl) rfl rfl
      ⟨fun _ => hpresent, hf.current, fun _ _ => .inl hpresent⟩
  | load hphase hexisting =>
    exact h.goto hp hstack _ p.applyThreshold (by rw [hphase]; rfl) rfl rfl
      ⟨hexisting, hf.current, trivial⟩
  | loadFails hphase => exact hgoto (by rw [hphase]; rfl) nofun
  | missing hphase hhistoric =>
    have hroot : f.isRoot ≠ false := fun hnot =>
      absurd (hhistoric.symm.trans (hf.current hnot)) nofun
    exact hskip ((Bool.not_eq_false _).mp hroot) (by rw [hphase]; rfl)
  | loaded hphase =>
    exact h.goto hp hstack p.reachedExisting true (by rw [hphase]; rfl) rfl rfl
      ⟨hf.existing, hf.current, fun c hc => .inl hc⟩
  | send hphase => exact h.send hp hstack hphase
  | count hphase => exact h.count hp hstack hphase
  | sent hphase =>
    rw [hphase] at hcome
    exact hgoto (by rw [hphase]; rfl) fun c hc => (hcome c hc).resolve_left not_mem_nil
  | drained hphase hzero => exact h.drain hp hstack hphase hzero
  | recurse hphase => exact h.recurse hp hstack hphase
  | recursed hphase =>
    rw [hphase] at hcome
    exact hgoto (by rw [hphase]; rfl) fun _ => ⟨hcome.1, fun n hn =>
      ((hcome.2 n hn).resolve_left not_mem_nil).resolve_left nofun⟩
  | stored hphase hinflight =>
    rw [hphase] at hcome
    obtain ⟨hchunks, hcatalogs⟩ := hcome rfl
    exact hgoto (by rw [hphase]; rfl) ⟨fun c hc => here_of_coming hinflight (hchunks c hc),
      fun n hn => here_of_coming hinflight (hcatalogs n hn)⟩
  | keep hphase hexisting =>
    exact hgoto (by rw [hphase]; rfl) fun hok _ => .inl (hf.existing (hexisting hok))
  | store hphase =>
    rw [hphase] at hcome
    exact h.storeCatalog hp hstack hphase hcome
  | inspectNested hphase =>
    rw [hphase] at hcome
    exact h.call hp hstack (by rw [hphase]; rfl) trivial ⟨hf.existing, hf.current, hcome⟩
  | inspected hphase =>
    rw [hphase] at hcome
    exact hgoto (by rw [hphase]; rfl) fun _ _ => .inl hcome
  | done hphase => exact h.returnFrom hp hstack hphase

end

end

/-! ## The other steps -/

section

theorem ProcessOk.of_eq (hp : ProcessOk repo objs p) (hstack : p'.stack = p.stack)
    (hpipe : p'.pipe = p.pipe) (hjobs : p'.jobs = p.jobs) (hqueue : p'.chunkQueue = p.chunkQueue)
    (hinflight : p'.inflight = p.inflight) : ProcessOk repo objs p' := by
  refine hp.restack hpipe hjobs hinflight (hstack ▸ hp.stack) ?_
  rw [hqueue, hstack]
  exact hp.counter

theorem Closing.main (h : Closing repo s) (hp : s.process = some p) (hstack : p.stack = [])
    (hmove : MainMove repo s p s') : Closing repo s' := by
  have hold := h.process p hp
  have hgoto : ∀ place, Closing repo (s.run (p.goto place)) := fun place =>
    h.run (hold.of_eq rfl rfl rfl rfl rfl)
  have hstore : ∀ {q : Process C D} {o : Object C D}, ProcessOk repo s.objects q →
      (∀ c, o ≠ Object.catalog c) → Closing repo (s.store q o) := fun hq ho =>
    h.store (fun c hc => absurd hc (ho c)) (hq.object _) (hq.append fun c hc =>
      absurd (Upload.object.inj hc) (ho c))
  cases hmove with
  | fail => exact h.abandon hp
  | storeHistory | storeCertificate | storeMetaInfo =>
    exact hstore (hold.of_eq rfl rfl rfl rfl rfl) nofun
  | noHistory | historyStored | tagsDone | stop | allStored | rootPresent | certificatePresent
  | noMetaInfo | reflogStored | noReflog | preloaded | finish => exact hgoto _
  | call =>
    have hcounter := hold.counter
    rw [hstack] at hcounter
    exact h.run ⟨⟨⟨nofun, nofun, trivial⟩, fun hne => absurd rfl hne, fun hne => absurd rfl hne,
      trivial⟩, hcounter, hold.stored, hold.uploads⟩
  | tagPresent | pullTag => exact h.run (hold.of_eq rfl rfl rfl rfl rfl)
  | storeManifest =>
    have hnext : ProcessOk repo s.objects (p.goto .lastWait) := hold.of_eq rfl rfl rfl rfl rfl
    exact h.run (hnext.append nofun)

variable {α : Type} {l : List α} {i : Nat} {y : α}

theorem mem_eraseIdx_or_eq {x} (hi : l[i]? = some y) (hx : x ∈ l) : x = y ∨ x ∈ l.eraseIdx i := by
  obtain ⟨j, hj⟩ := mem_iff_getElem?.1 hx
  by_cases hij : j = i
  · subst hij
    rw [hi] at hj
    exact .inl (Option.some.inj hj).symm
  · exact .inr (mem_eraseIdx_iff_getElem?.2 ⟨j, hij, hj⟩)

theorem mem_set_or_eq {x z} (hi : l[i]? = some y) (hx : x ∈ l) : x = y ∨ x ∈ l.set i z := by
  refine (mem_eraseIdx_or_eq hi hx).imp_right fun hmem => ?_
  obtain ⟨j, hij, hj⟩ := mem_eraseIdx_iff_getElem?.1 hmem
  exact mem_iff_getElem?.2 ⟨j, (getElem?_set_ne hij.symm).trans hj⟩

variable {c : D}

theorem ProcessOk.read (hold : ProcessOk repo objs p) {pipe} (hpipe : p.pipe = c :: pipe) :
    ProcessOk repo objs { p with pipe, jobs := p.jobs ++ [(c, .peek)] } := by
  have hk : Keeps objs p objs { p with pipe, jobs := p.jobs ++ [(c, .peek)] } := by
    refine ⟨fun _ h => h, fun _ h => h, fun c' hc' => ?_⟩
    rcases hc' with hcoming | hmem | ⟨stage, hmem⟩
    · exact .inl hcoming
    · rw [hpipe] at hmem
      rcases mem_cons.1 hmem with rfl | hmem
      · exact .inr (.inr ⟨.peek, mem_append_right _ (mem_singleton_self _)⟩)
      · exact .inr (.inl hmem)
    · exact .inr (.inr ⟨stage, mem_append_left _ hmem⟩)
  refine ⟨hold.stack.mono hk, ?_, fun c' hc' => ?_, hold.uploads⟩
  · have hcounter := hold.counter
    rw [hpipe, length_cons] at hcounter
    show p.chunkQueue + uncounted p.stack = (pipe.length : Int) + (p.jobs ++ [(c, Stage.peek)]).length
    rw [length_append, length_singleton]
    omega
  · rcases mem_append.1 hc' with hmem | hmem
    · exact hold.stored c' hmem
    · cases mem_singleton.1 hmem

theorem ProcessOk.work (hold : ProcessOk repo objs p) {stage stage'}
    (hjob : p.jobs[i]? = some (c, stage)) (hstage : stage' = .count → Coming objs p (.chunk c)) :
    ProcessOk repo objs { p with jobs := p.jobs.set i (c, stage') } := by
  obtain ⟨hlt, -⟩ := List.getElem?_eq_some_iff.1 hjob
  have hk : Keeps objs p objs { p with jobs := p.jobs.set i (c, stage') } := by
    refine .of_jobs rfl rfl fun c' stage hmem => .inr (.inr ?_)
    rcases mem_set_or_eq hjob hmem with heq | hmem
    · cases heq
      exact ⟨stage', mem_set hlt _⟩
    · exact ⟨stage, hmem⟩
  refine ⟨hold.stack.mono hk, ?_, fun c' hc' => ?_, hold.uploads⟩
  · have hcounter := hold.counter
    rw [length_set]
    exact hcounter
  · rcases mem_or_eq_of_mem_set hc' with hmem | heq
    · exact hold.stored c' hmem
    · cases heq
      exact hstage rfl

theorem Closing.storeChunk (h : Closing repo s) (hp : s.process = some p)
    (hjob : p.jobs[i]? = some (c, .store)) :
    Closing repo (s.store { p with jobs := p.jobs.set i (c, .count) } (.chunk c)) := by
  have hold := h.process p hp
  have hnext := hold.append (u := .object (.chunk c)) nofun
  exact h.store nofun ((hold.object (.chunk c)).work hjob fun _ => .inl (.head _))
    (hnext.work hjob fun _ => .inr (mem_append_right _ (mem_singleton_self _)))

theorem ProcessOk.countChunk (hold : ProcessOk repo objs p) (hjob : p.jobs[i]? = some (c, .count)) :
    ProcessOk repo objs { p with
      jobs := p.jobs.eraseIdx i, chunkQueue := p.chunkQueue - 1 } := by
  have hk : Keeps objs p objs { p with
      jobs := p.jobs.eraseIdx i, chunkQueue := p.chunkQueue - 1 } := by
    refine .of_jobs rfl rfl fun c' stage hmem => ?_
    rcases mem_eraseIdx_or_eq hjob hmem with heq | hmem
    · cases heq
      exact .inl (hold.stored _ (mem_of_getElem? hjob))
    · exact .inr (.inr ⟨stage, hmem⟩)
  refine ⟨hold.stack.mono hk, ?_, fun c' hc' => hold.stored c' (mem_of_mem_eraseIdx hc'),
    hold.uploads⟩
  have hcounter := hold.counter
  obtain ⟨hlt, -⟩ := List.getElem?_eq_some_iff.1 hjob
  show p.chunkQueue - 1 + uncounted p.stack = (p.pipe.length : Int) + (p.jobs.eraseIdx i).length
  rw [length_eraseIdx_of_lt hlt]
  omega

theorem objects_land (s : State C D) (u : Upload C D) : s.objects ⊆ (s.land u).objects := by
  cases u with
  | manifest m => exact fun _ h => h
  | object o => exact subset_cons_self _ _

variable {u : Upload C D}

theorem coming_land (hu : p.inflight[i]? = some u) {o} (ho : Coming s.objects p o) :
    Coming (s.land u).objects { p with inflight := p.inflight.eraseIdx i } o := by
  rcases ho with hmem | hmem
  · exact .inl (objects_land s u hmem)
  rcases mem_eraseIdx_or_eq hu hmem with heq | hmem
  · subst heq
    exact .inl (.head _)
  · exact .inr hmem

theorem Closing.upload (h : Closing repo s) (hp : s.process = some p)
    (hu : p.inflight[i]? = some u) :
    Closing repo ((s.land u).run { p with inflight := p.inflight.eraseIdx i }) := by
  have hold := h.process p hp
  have hcomplete := hold.uploads u (mem_of_getElem? hu)
  have hk : Keeps s.objects p (s.land u).objects { p with inflight := p.inflight.eraseIdx i } :=
    ⟨objects_land s u, fun _ => coming_land hu, fun _ => imp_left (coming_land hu)⟩
  have hnext : ProcessOk repo (s.land u).objects { p with inflight := p.inflight.eraseIdx i } :=
    ⟨hold.stack.mono hk, hold.counter, fun c hc => hk.coming _ (hold.stored c hc),
      fun v hv c hc => (hold.uploads v (mem_of_mem_eraseIdx hv) c hc).mono hk.objects⟩
  cases u with
  | manifest m =>
    refine ⟨h.closed, h.orphans, fun p' hp' => ?_⟩
    cases hp'
    exact hnext
  | object o =>
    obtain ⟨hclosed, horphans⟩ := h.object fun c hc => hcomplete c (congrArg _ hc)
    refine ⟨hclosed, horphans, fun p' hp' => ?_⟩
    cases hp'
    exact hnext

theorem Closing.late (h : Closing repo s) (hu : s.orphans[i]? = some u) :
    Closing repo (({ s with orphans := s.orphans.eraseIdx i }).land u) := by
  have hcomplete := h.orphans u (mem_of_getElem? hu)
  cases u with
  | manifest m =>
    exact ⟨h.closed, fun v hv => h.orphans v (mem_of_mem_eraseIdx hv), h.process⟩
  | object o =>
    obtain ⟨hclosed, horphans⟩ := h.object fun c hc => hcomplete c (congrArg _ hc)
    exact ⟨hclosed, fun v hv => horphans v (mem_of_mem_eraseIdx hv),
      fun p hp => (h.process p hp).object o⟩

variable [DecidableEq C] [DecidableEq D]

theorem Closing.step (h : Closing repo s) {e} (hstep : step repo s e = some s') :
    Closing repo s' := by
  cases move_of_step repo hstep with
  | start => exact h.run ⟨trivial, rfl, nofun, nofun⟩
  | main hp hstack hmove => exact h.main hp hstack hmove
  | pull hp hstack hmove => exact h.pull hp hstack hmove
  | read hp hpipe => exact h.run ((h.process _ hp).read hpipe)
  | work hp hjob hstage => exact h.run ((h.process _ hp).work hjob fun hc => .inl (hstage hc))
  | storeChunk hp hjob => exact h.storeChunk hp hjob
  | countChunk hp hjob => exact h.run ((h.process _ hp).countChunk hjob)
  | upload hp hu => exact h.upload hp hu
  | late hu => exact h.late hu
  | kill hp => exact h.abandon hp

theorem closing_of_reach {guard : State C D → Event C D → Prop}
    (h : (system repo).Reach guard s) : Closing repo s := by
  refine h.invariant (P := Closing repo) ?_ fun s e s' hs _ hstep => hs.step hstep
  intro s hs
  cases hs
  refine ⟨nofun, nofun, fun p hp => ?_⟩
  cases hp

end

end

end Cvmfs.Replication
