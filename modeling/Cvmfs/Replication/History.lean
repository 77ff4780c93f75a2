import Cvmfs.Replication.Published

/-! # Replication of the history

With `pull_history` the walk follows the previous revisions of the head and of the tagged
root catalogs. It is cut at a root catalog that is present, but a root catalog is stored
before its predecessors are: after a run that was killed in between, the later ones stop at
the head and return success. -/

namespace Cvmfs.Replication

open Lib List Option

section

variable {C D : Type} {repo : Repository C D} {avail : C → Prop}
  {objs objs' : List (Object C D)} {p p' q : Process C D} {s s' : State C D}

/-- The revisions reachable from a root catalog through previous revisions. -/
inductive Older (repo : Repository C D) : C → C → Prop
  | here {h : C} : Older repo h h
  | older {h h' x : C} : repo.previousRevision h = some h' → Older repo h' x → Older repo h x

/-- The revisions that a run with this manifest is to replicate. -/
def Wanted (repo : Repository C D) (m : Manifest C D) (x : C) : Prop :=
  Older repo m.catalogHash x ∨ ∃ d ∈ m.history, ∃ t ∈ repo.tags d, Older repo t x

/-! ## Where the walk is cut -/

/-- The whole history is asked for. -/
def Requested : Event C D → Prop
  | .start options _ _ => options.pullHistory = true ∧ options.timestampThreshold = 0
  | _ => True

/-- The root catalogs from which a step of `Main` does not go on to the older ones. -/
def cutsOf [DecidableEq C] [DecidableEq D] (repo : Repository C D) (s : State C D)
    (p : Process C D) (outcome : Outcome) : List C :=
  match p.stack with
  | [] =>
    match p.place with
    | .history =>
      -- the tags are not read for a preloaded cache
      if p.options.preloadCache then p.manifest.history.elim [] repo.tags else []
    | .nextTag =>
      match p.tags with
      | [] => []
      | t :: _ =>
        if .catalog t ∈ s.objects ∧ p.options.inspectExistingCatalogs = false then [t] else []
    | _ => []
  | [f] =>
    match f.phase with
    | .peek =>
      if .catalog f.hash ∈ s.objects then if p.options.revisit then [] else [f.hash]
      else if p.options.revisit && f.isRoot && f.isHistoric && p.reachedExisting then [f.hash]
      else []
    | .load =>
      if outcome = .missing ∧ f.isHistoric = true ∧ p.manifest.garbageCollectable = true ∧
        f.existing = false then [f.hash] else []
    | _ => []
  | _ => []

def cuts [DecidableEq C] [DecidableEq D] (repo : Repository C D) (s : State C D) :
    Event C D → List C
  | .main outcome => s.process.elim [] fun p => cutsOf repo s p outcome
  | _ => []

/-- Where the walk is cut, the older revisions that are still available are stored already,
or about to be. -/
def Unbroken [DecidableEq C] [DecidableEq D] (repo : Repository C D) (avail : C → Prop)
    (s : State C D) (e : Event C D) : Prop :=
  Requested e ∧ ∀ h ∈ cuts repo s e, ∀ x, avail x → Older repo h x →
    ∀ p ∈ s.process, Coming s.objects p (.catalog x)

instance : ∀ e : Event C D, Decidable (Requested e)
  | .start .. => inferInstanceAs (Decidable (_ ∧ _))
  | .main _ | .read | .work _ | .upload _ | .late _ | .kill => .isTrue trivial

/-- The step does not cut the walk at all. -/
def Uncut [DecidableEq C] [DecidableEq D] (repo : Repository C D) (s : State C D)
    (e : Event C D) : Prop :=
  Requested e ∧ cuts repo s e = []

instance [DecidableEq C] [DecidableEq D] (s : State C D) (e : Event C D) :
    Decidable (Uncut repo s e) :=
  inferInstanceAs (Decidable (_ ∧ _))

theorem unbroken_of_uncut [DecidableEq C] [DecidableEq D] {e} (h : Uncut repo s e) :
    Unbroken repo avail s e := by
  refine ⟨h.1, fun r hr => ?_⟩
  rw [h.2] at hr
  cases hr

/-! ## What is left of the walk -/

/-- What the outermost call of `Pull` and the calls after it are to bring. -/
def Frame.Ahead (repo : Repository C D) (f : Frame C D) (x : C) : Prop :=
  match f.phase with
  | .done ok previous => ok = true → ∃ h ∈ previous, Older repo h x
  | .inspect _ => False
  | _ => Older repo f.hash x

/-- A tag that is left is to bring the revision. -/
def Tagged (repo : Repository C D) (p : Process C D) (x : C) : Prop :=
  ∃ t ∈ p.tags, Older repo t x

/-- The revision is still ahead of a run, or the run will fail. -/
def Left (repo : Repository C D) (p : Process C D) (x : C) : Prop :=
  match p.place with
  | .history => Wanted repo p.manifest x
  | .historyWait => p.retval = false ∨ Tagged repo p x ∨ Older repo p.manifest.catalogHash x
  | .pull current _ => p.retval = false ∨ Tagged repo p x ∨ Older repo current x
  | .pulling =>
    p.retval = false ∨ Tagged repo p x ∨ ∃ f ∈ p.stack.getLast?, f.Ahead repo x
  | .nextTag => p.retval = false ∨ Tagged repo p x
  | .stop => p.retval = false
  | _ => False

structure Tracks (repo : Repository C D) (avail : C → Prop) (objs : List (Object C D))
    (p : Process C D) : Prop where
  history : p.options.pullHistory = true
  threshold : p.options.timestampThreshold = 0
  pulling : p.stack ≠ [] → p.place = .pulling
  wanted : ∀ x, avail x → Wanted repo p.manifest x → Coming objs p (.catalog x) ∨ Left repo p x
  finished : p.place = .finished → ∀ x, avail x → Wanted repo p.manifest x → .catalog x ∈ objs

/-- Every wanted revision is coming, or ahead of the run. -/
def Tracking (repo : Repository C D) (avail : C → Prop) (s : State C D) : Prop :=
  ∀ p, s.process = some p → Tracks repo avail s.objects p

theorem Tracks.next (h : Tracks repo avail objs p) (hsame : SameTask p q) (hsub : objs ⊆ objs')
    (hcoming : ∀ o, Coming objs p o → Coming objs' q o)
    (hpulling : q.stack ≠ [] → q.place = .pulling)
    (hleft : ∀ x, avail x → Left repo p x → Coming objs' q (.catalog x) ∨ Left repo q x)
    (hfinished : q.place = .finished → p.place = .finished) : Tracks repo avail objs' q := by
  refine ⟨?_, ?_, hpulling, fun x hx hwanted => ?_, fun hat x hx hwanted => ?_⟩
  · rw [hsame.options]
    exact h.history
  · rw [hsame.options]
    exact h.threshold
  · rw [hsame.manifest] at hwanted
    rcases h.wanted x hx hwanted with hcome | hahead
    · exact .inl (hcoming _ hcome)
    · exact hleft x hx hahead
  · rw [hsame.manifest] at hwanted
    exact hsub (h.finished (hfinished hat) x hx hwanted)

section

variable (h : Tracks repo avail s.objects p)
include h

theorem Tracking.run : Tracking repo avail (s.run p) := by
  intro p' hp'
  cases hp'
  exact h

omit h in
theorem Tracking.abandon (s : State C D) (p : Process C D) : Tracking repo avail (s.abandon p) := by
  intro p' hp'
  cases hp'

theorem Tracking.go (q : Process C D) (hsame : SameRun p q)
    (hpulling : q.stack ≠ [] → q.place = .pulling)
    (hleft : ∀ x, avail x → Left repo p x → Coming s.objects p (.catalog x) ∨ Left repo q x)
    (hfinished : q.place = .finished → p.place = .finished := by intro h; cases h) :
    Tracking repo avail (s.run q) := by
  have hcoming : ∀ o, Coming s.objects p o → Coming s.objects q o := by
    intro o ho
    rw [Coming, hsame.inflight]
    exact ho
  exact .run (h.next hsame.toSameTask (fun _ h => h) hcoming hpulling
    (fun x hx hl => (hleft x hx hl).imp_left (hcoming _)) hfinished)

theorem Tracking.store (q : Process C D)
    (hsame : SameRun p q) (hpulling : q.stack ≠ [] → q.place = .pulling) {o}
    (hleft : ∀ x, avail x → Left repo p x → o = .catalog x ∨ Left repo q x)
    (hfinished : q.place = .finished → p.place = .finished := by intro h; cases h) :
    Tracking repo avail (s.store q o) := by
  unfold State.store
  split
  · refine .run (h.next { hsame with } (subset_cons_self _ _) (fun o' ho' => ?_) hpulling
      (fun x hx hl => (hleft x hx hl).imp_left fun ho => ?_) hfinished)
    · rw [Coming, hsame.inflight]
      exact ho'.imp_left (mem_cons_of_mem _)
    · rw [ho]
      exact .inl (.head _)
  refine .run (h.next { hsame with } (fun _ h => h) (fun o' ho' => ?_) hpulling
    (fun x hx hl => (hleft x hx hl).imp_left fun ho => ?_) hfinished)
  · refine ho'.imp_right fun hmem => mem_append_left _ ?_
    rw [hsame.inflight]
    exact hmem
  · rw [ho]
    exact .inr (mem_append_right _ (mem_singleton_self _))

end

/-! ## Steps of `Pull` -/

section

variable {f g : Frame C D} {fs : List (Frame C D)}

theorem Older.inv {h x} (ho : Older repo h x) :
    x = h ∨ ∃ h' ∈ repo.previousRevision h, Older repo h' x := by
  cases ho with
  | here => exact .inl rfl
  | older hprev hrest => exact .inr ⟨_, hprev, hrest⟩

/-- The calls of `Pull` apart, the run is where it was. -/
structure SameWalk (p q : Process C D) : Prop extends SameRun p q where
  place : q.place = p.place := by rfl
  retval : q.retval = p.retval := by rfl
  tags : q.tags = p.tags := by rfl

theorem left_of_top (p q : Process C D) (hplace : p.place = .pulling) (hstack : p.stack = f :: fs)
    (hsame : SameWalk p q) (hqstack : q.stack = g :: fs) {x} {P : Prop}
    (hroot : fs = [] → f.Ahead repo x → P ∨ g.Ahead repo x) (h : Left repo p x) :
    P ∨ Left repo q x := by
  rw [Left, hplace, hstack] at h
  rw [Left, hsame.place, hplace, Tagged, hsame.retval, hsame.tags, hqstack]
  rcases h with hfail | htag | ⟨r, hr, hahead⟩
  · exact .inr (.inl hfail)
  · exact .inr (.inr (.inl htag))
  cases fs with
  | nil =>
    cases hr
    exact (hroot rfl hahead).imp_right fun hg => .inr (.inr ⟨g, rfl, hg⟩)
  | cons parent fs => exact .inr (.inr (.inr ⟨r, hr, hahead⟩))

theorem left_nested {x} :
    Left repo { p with stack := g :: f :: fs } x ↔ Left repo { p with stack := f :: fs } x := by
  simp only [Left, Tagged, getLast?_cons_cons]

/-- The walk is not finished with a call at one of these phases. -/
def Phase.Walking : Phase C D → Prop
  | .done _ _ => False
  | .inspect _ => False
  | _ => True

theorem ahead_of_walking (hf : f.phase.Walking) {x} : f.Ahead repo x ↔ Older repo f.hash x := by
  unfold Frame.Ahead
  split
  · rename_i hphase
    rw [hphase] at hf
    cases hf
  · rename_i hphase
    rw [hphase] at hf
    cases hf
  · rfl

theorem Tracking.returnFrom (hold : Tracks repo avail s.objects p) (hplace : p.place = .pulling)
    (hstack : p.stack = f :: fs) {above} (hparents : StackOk repo s.objects p above fs)
    (habove : above ≠ none) {ok previous} (hphase : f.phase = .done ok previous) :
    Tracking repo avail (returnFrom s p fs ok previous) := by
  have hnot : p.place ≠ .finished := by rw [hplace]; nofun
  cases fs with
  | nil =>
    have hahead : ∀ x, Left repo p x → (p.retval && ok) = false ∨ Tagged repo p x ∨
        ∃ h ∈ previous, Older repo h x := by
      intro x hx
      rw [Left, hplace, hstack] at hx
      rcases hx with hfail | htag | ⟨r, hr, hahead⟩
      · exact .inl (by rw [hfail]; rfl)
      · exact .inr (.inl htag)
      have hlast : f = r := some.inj hr
      rw [← hlast, Frame.Ahead, hphase] at hahead
      cases ok with
      | false => exact .inl (Bool.and_false _)
      | true => exact .inr (.inr (hahead rfl))
    unfold Replication.returnFrom
    dsimp only
    rw [hold.history]
    cases previous with
    | some current =>
      refine .go hold _ {} (fun hne => absurd rfl hne) (fun x _ hx => .inr ?_)
      rcases hahead x hx with hfail | htag | ⟨h, hh, holder⟩
      · exact .inl hfail
      · exact .inr (.inl htag)
      · cases hh
        exact .inr (.inr holder)
    | none =>
      refine .go hold _ {} (fun hne => absurd rfl hne) (fun x _ hx => .inr ?_)
      rcases hahead x hx with hfail | htag | ⟨h, hh, -⟩
      · exact .inl hfail
      · exact .inr htag
      · cases hh
  | cons parent fs =>
    obtain ⟨-, hrecursing, -, -⟩ := hparents
    have hback : ∀ x, Left repo p x → Left repo { p with stack := parent :: fs } x := by
      intro x hx
      refine (left_nested (g := f)).1 ?_
      rw [← hstack]
      exact hx
    have hgo : ∀ {g : Frame C D},
        (∀ x, parent.Ahead repo x → Coming s.objects p (.catalog x) ∨ g.Ahead repo x) →
        Tracking repo avail (s.run { p with stack := g :: fs }) := by
      intro g hg
      refine .go hold _ {} (fun _ => hplace) (fun x _ hx => ?_) (absurd · hnot)
      exact left_of_top { p with stack := parent :: fs } { p with stack := g :: fs } hplace rfl {}
        rfl (fun _ => hg x) (hback x hx)
    unfold Replication.returnFrom
    dsimp only
    split
    · exact hgo fun _ => .inr
    split
    · exact hgo fun _ _ => .inr nofun
    rename_i hnotInspect
    refine hgo fun x hx => .inr ?_
    have hwalking : parent.phase.Walking := by
      have := hrecursing habove
      cases hparent : parent.phase with
      | recurse rest => trivial
      | inspect rest => exact absurd hparent (hnotInspect rest)
      | _ =>
        rw [hparent] at this
        cases this
    exact (ahead_of_walking hwalking).1 hx

theorem Tracking.pull [DecidableEq C] [DecidableEq D] (h : Tracking repo avail s)
    (hclosing : Closing repo s) (hp : s.process = some p) (hstack : p.stack = f :: fs) {outcome}
    (hguard : Unbroken repo avail s (.main outcome)) (hmove : PullMove repo s p f fs outcome s') :
    Tracking repo avail s' := by
  have hold := h p hp
  have hplace : p.place = .pulling := by
    refine hold.pulling ?_
    rw [hstack]
    exact cons_ne_nil _ _
  have hfinished : ∀ {place : Place C}, place = p.place → place = .finished → p.place = .finished :=
    fun heq hat => heq.symm.trans hat
  obtain ⟨hf, -, hparents⟩ := (hclosing.process p hp).top hstack
  have hgo : ∀ {q : Process C D} {g : Frame C D}, SameWalk p q → q.stack = g :: fs →
      (fs = [] → ∀ x, avail x → f.Ahead repo x → Coming s.objects p (.catalog x) ∨ g.Ahead repo x) →
      Tracking repo avail (s.run q) := by
    intro q g hsame hqstack hroot
    refine .go hold q hsame.toSameRun (fun _ => hsame.place.trans hplace) (fun x hx => ?_)
      (hfinished hsame.place)
    exact left_of_top p q hplace hstack hsame hqstack fun hnil => hroot hnil x hx
  -- the outermost call is cut at its catalog
  have hcut : ∀ {q : Process C D} {g : Frame C D}, SameWalk p q → q.stack = g :: fs →
      f.phase.Walking → (p.stack = [f] → f.hash ∈ cutsOf repo s p outcome) →
      Tracking repo avail (s.run q) := by
    intro q g hsame hqstack hwalking hmem
    refine hgo hsame hqstack fun hnil x hx hahead => .inl ?_
    refine hguard.2 f.hash ?_ x hx ((ahead_of_walking hwalking).1 hahead) p hp
    rw [cuts, hp]
    exact hmem (hnil ▸ hstack)
  have hnest : ∀ {g child : Frame C D}, (∀ x, f.Ahead repo x → g.Ahead repo x) →
      Tracking repo avail (s.run { p with stack := child :: g :: fs }) := by
    intro g child hg
    refine .go hold _ {} (fun _ => hplace) (fun x _ hleft => ?_) (hfinished rfl)
    rw [left_nested]
    exact left_of_top p { p with stack := g :: fs } hplace hstack {} rfl
      (fun _ hahead => .inr (hg x hahead)) hleft
  have hwalk : ∀ {q : Process C D} {g : Frame C D}, SameWalk p q → q.stack = g :: fs →
      f.phase.Walking → g.phase.Walking → g.hash = f.hash → Tracking repo avail (s.run q) := by
    intro q g hsame hqstack hwalking hstill hhash
    refine hgo hsame hqstack fun _ x _ hahead => .inr ?_
    rw [ahead_of_walking hstill, hhash]
    exact (ahead_of_walking hwalking).1 hahead
  cases hmove with
  | collected hphase hrevisit hroot habsent hhistoric hreached =>
    refine hcut {} rfl (by rw [hphase]; trivial) fun hone => ?_
    simp [cutsOf, hone, hphase, habsent, hrevisit, hroot, hhistoric, hreached]
  | inspect hphase hpresent hrevisit | upToDate hphase hpresent hrevisit =>
    refine hcut {} rfl (by rw [hphase]; trivial) fun hone => ?_
    simp [cutsOf, hone, hphase, hpresent, hrevisit]
  | inspectFails | loadFails =>
    exact hgo {} rfl fun _ _ _ _ => .inr (by intro h; cases h)
  | load hphase | loaded hphase | send hphase | count hphase | sent hphase | drained hphase
  | recursed hphase | stored hphase =>
    exact hwalk {} rfl (by rw [hphase]; trivial) trivial rfl
  | missing hphase hhistoric hgc hexisting =>
    refine hcut {} rfl (by rw [hphase]; trivial) fun hone => ?_
    simp [cutsOf, hone, hphase, hhistoric, hgc, hexisting]
  | pruned _ _ hthreshold =>
    rw [hold.threshold] at hthreshold
    exact absurd hthreshold (Nat.not_lt_zero _)
  | recurse hphase | inspectNested hphase =>
    refine hnest fun x hahead => ?_
    rw [Frame.Ahead, hphase] at hahead
    exact hahead
  | inspected hphase =>
    refine hgo {} rfl fun _ x _ hahead => ?_
    rw [Frame.Ahead, hphase] at hahead
    exact hahead.elim
  | @keep _ ok hphase hexisting =>
    refine hgo {} rfl fun _ x _ hahead => ?_
    rw [ahead_of_walking (by rw [hphase]; trivial)] at hahead
    rcases hahead.inv with rfl | hprevious
    · cases ok with
      | false => exact .inr (by intro h; cases h)
      | true => exact .inl (.inl (hf.existing (hexisting rfl)))
    · exact .inr fun _ => hprevious
  | store hphase =>
    refine .store hold { p with
      stack := { f with phase := .done true (repo.previousRevision f.hash) } :: fs }
      {} (fun _ => hplace) (fun x _ hleft => ?_) (hfinished rfl)
    refine left_of_top p { p with
      stack := { f with phase := .done true (repo.previousRevision f.hash) } :: fs }
      hplace hstack {} rfl (fun _ hahead => ?_) hleft
    rw [ahead_of_walking (by rw [hphase]; trivial)] at hahead
    rcases hahead.inv with rfl | hprevious
    · exact .inl rfl
    · exact .inr fun _ => hprevious
  | done hphase => exact .returnFrom hold hplace hstack hparents (some_ne_none _) hphase

end

/-! ## The other steps -/

section

variable [DecidableEq C] [DecidableEq D]

theorem Tracking.main (h : Tracking repo avail s) (hp : s.process = some p) (hstack : p.stack = [])
    {outcome} (hguard : Unbroken repo avail s (.main outcome)) (hmove : MainMove repo s p s') :
    Tracking repo avail s' := by
  have hold := h p hp
  have hempty : ∀ {q : Process C D}, q.stack = p.stack → q.stack ≠ [] → q.place = .pulling :=
    fun heq hne => absurd (heq.trans hstack) hne
  have hcut : ∀ {r : C}, r ∈ cutsOf repo s p outcome → ∀ x, avail x → Older repo r x →
      Coming s.objects p (.catalog x) := by
    intro r hr x hx holder
    refine hguard.2 r ?_ x hx holder p hp
    rw [cuts, hp]
    exact hr
  -- nothing is left of the walk at the places after the last tag
  have hdone : ∀ {place : Place C}, (∀ x, ¬ Left repo p x) → place ≠ .finished →
      Tracking repo avail (s.run (p.goto place)) := fun hnone hplace =>
    .go hold _ {} (hempty rfl) (fun x _ hx => absurd hx (hnone x)) (absurd · hplace)
  have hstored : ∀ {place : Place C} {o : Object C D}, (∀ x, ¬ Left repo p x) →
      place ≠ .finished → Tracking repo avail (s.store (p.goto place) o) :=
    fun {place} _ hnone hplace => .store hold (p.goto place) {} (hempty rfl)
      (fun x _ hx => absurd hx (hnone x)) (absurd · hplace)
  cases hmove with
  | fail => exact .abandon s p
  | @storeHistory d hat hhistory hpreload =>
    refine .store hold ({ p with tags := repo.tags d }.goto .historyWait) {}
      (hempty rfl) fun x _ hx => .inr ?_
    rw [Left, hat] at hx
    rcases hx with hhead | ⟨d', hd', t, ht, holder⟩
    · exact .inr (.inr hhead)
    · rw [hhistory] at hd'
      cases hd'
      exact .inr (.inl ⟨t, ht, holder⟩)
  | noHistory hat hpreload =>
    refine .go hold _ {} (hempty rfl) fun x hx hleft => ?_
    rw [Left, hat] at hleft
    rcases hleft with hhead | ⟨d, hd, t, ht, holder⟩
    · exact .inr (.inr (.inr hhead))
    · refine .inl (hcut ?_ x hx holder)
      rw [cutsOf, hstack, hat, hpreload d hd, show p.manifest.history = some d from hd]
      exact ht
  | historyStored hat =>
    refine .go hold _ {} (hempty rfl) fun x _ hleft => .inr ?_
    rw [Left, hat] at hleft
    exact hleft
  | call hat =>
    refine .go hold _ {} (fun _ => rfl) fun x _ hleft => .inr ?_
    rw [Left, hat] at hleft
    exact hleft.imp_right (Or.imp_right fun holder => ⟨_, rfl, holder⟩)
  | tagsDone hat htags =>
    refine .go hold _ {} (hempty rfl) fun x _ hleft => .inr ?_
    rw [Left, hat, Tagged, htags] at hleft
    refine hleft.resolve_right ?_
    rintro ⟨t, ht, -⟩
    cases ht
  | @tagPresent t tags hat htags hpresent hinspect =>
    refine .go hold _ {} (hempty rfl) (fun x hx hleft => ?_) id
    rw [Left, hat, Tagged, htags] at hleft
    rw [Left, show ({ p with tags } : Process C D).place = .nextTag from hat]
    rcases hleft with hfail | ⟨r, hr, holder⟩
    · exact .inr (.inl hfail)
    rcases mem_cons.1 hr with rfl | hr
    · refine .inl (hcut ?_ x hx holder)
      simp [cutsOf, hstack, hat, htags, hpresent, hinspect]
    · exact .inr (.inr ⟨r, hr, holder⟩)
  | @pullTag t tags hat htags =>
    refine .go hold _ {} (hempty rfl) fun x _ hleft => .inr ?_
    rw [Left, hat, Tagged, htags] at hleft
    rcases hleft with hfail | ⟨r, hr, holder⟩
    · exact .inl hfail
    · rcases mem_cons.1 hr with rfl | hr
      · exact .inr (.inr holder)
      · exact .inr (.inl ⟨r, hr, holder⟩)
  | stop hat hretval =>
    refine hdone (fun x hx => ?_) (by intro h; cases h)
    rw [Left, hat, hretval] at hx
    cases hx
  | allStored hat | rootPresent hat | certificatePresent hat | noMetaInfo hat | reflogStored hat
  | noReflog hat | preloaded hat =>
    exact hdone (fun x hx => by rw [Left, hat] at hx; exact hx) (by intro h; cases h)
  | storeCertificate hat | storeMetaInfo hat =>
    exact hstored (fun x hx => by rw [Left, hat] at hx; exact hx) (by intro h; cases h)
  | storeManifest hat =>
    refine .run (hold.next {} (fun _ h => h) (fun o ho => ?_) (hempty rfl)
      (fun x _ hx => ?_) (by intro h; cases h))
    · exact ho.imp_right (mem_append_left _)
    · rw [Left, hat] at hx
      exact hx.elim
  | finish hat hinflight =>
    have hcome : ∀ x, avail x → Wanted repo p.manifest x → Coming s.objects p (.catalog x) := by
      intro x hx hwanted
      refine (hold.wanted x hx hwanted).resolve_right fun hleft => ?_
      rw [Left, hat] at hleft
      exact hleft
    exact .run ⟨hold.history, hold.threshold, hempty rfl, fun x hx hwanted => .inl (hcome x hx hwanted),
      fun _ x hx hwanted => here_of_coming hinflight (hcome x hx hwanted)⟩

theorem Tracking.step (h : Tracking repo avail s) (hclosing : Closing repo s) {e}
    (hguard : Unbroken repo avail s e) (hstep : step repo s e = some s') :
    Tracking repo avail s' := by
  -- only the place, the tags and the calls matter for what is left
  have hkeep : ∀ {p q : Process C D}, s.process = some p → SameWalk p q → q.stack = p.stack →
      Tracking repo avail (s.run q) := by
    intro p q hp hsame hstack
    refine .go (h p hp) q hsame.toSameRun (fun hne => ?_) (fun x _ hx => .inr ?_)
      (fun hfin => hsame.place.symm.trans hfin)
    · rw [hstack] at hne
      exact hsame.place.trans ((h p hp).pulling hne)
    · rw [Left, Tagged, hsame.place, hsame.manifest, hsame.retval, hsame.tags, hstack]
      exact hx
  cases move_of_step repo hstep with
  | start options manifest workers =>
    exact .run ⟨hguard.1.1, hguard.1.2, fun hne => absurd rfl hne, fun x _ hx => .inr hx, nofun⟩
  | main hp hstack hmove => exact h.main hp hstack hguard hmove
  | pull hp hstack hmove => exact h.pull hclosing hp hstack hguard hmove
  | read hp | work hp | countChunk hp => exact hkeep hp {} rfl
  | @storeChunk p i c hp =>
    exact .store (h p hp) { p with jobs := p.jobs.set i (c, .count) } {} (h p hp).pulling
      (fun x _ hx => .inr hx) (fun hfin => hfin)
  | @upload p i u hp hu =>
    have hold := h p hp
    exact .run (hold.next {} (objects_land s u) (fun _ => coming_land hu) hold.pulling
      (fun x _ hx => .inr hx) (fun hfin => hfin))
  | @late i u hu =>
    intro p hp
    have hprocess : s.process = some p := by
      cases u with
      | manifest m => exact hp
      | object o => exact hp
    have hold := h p hprocess
    have hsub := objects_land { s with orphans := s.orphans.eraseIdx i } u
    exact hold.next {} hsub (fun _ => Or.imp_left (@hsub _)) hold.pulling
      (fun x _ hx => .inr hx) (fun hfin => hfin)
  | kill hp => exact .abandon s _

theorem tracking_of_reach (h : (system repo).Reach (Unbroken repo avail) s) :
    Tracking repo avail s := by
  have hboth : Closing repo s ∧ Tracking repo avail s := by
    refine h.invariant (P := fun s => Closing repo s ∧ Tracking repo avail s) (fun s hs => ?_)
      fun s e s' hs hguard hstep => ⟨hs.1.step hstep, hs.2.step hs.1 hguard hstep⟩
    have hreach : (system repo).Reach System.anyStep s := .init hs
    refine ⟨closing_of_reach hreach, fun p hp => ?_⟩
    cases hs
    cases hp
  exact hboth.2

/-! ## The history -/

/-- If nothing that is still available is missing behind the root catalogs at which a walk is
cut, a run that returns success leaves every revision of the history at the destination, with
everything below it. -/
theorem history_replicated (repo : Repository C D) (avail : C → Prop) {s : State C D}
    {p : Process C D} (h : (system repo).Reach (Unbroken repo avail) s) (hp : s.process = some p)
    (hfinished : p.place = .finished) : ∀ x, avail x → Wanted repo p.manifest x →
      .catalog x ∈ s.objects ∧ ∀ o, Below repo x o → o ∈ s.objects := by
  intro x hx hwanted
  have hpresent := (tracking_of_reach h p hp).finished hfinished x hx hwanted
  exact ⟨hpresent, fun o ho => below_present h hpresent ho⟩

end

/-! ## Runs -/

section

/-- Two revisions and a tag of an older line, with a chunk each. -/
def twoRevisions : Repository Nat Nat where
  chunks h := [h + 10]
  nestedCatalogs _ := []
  previousRevision h := if h = 2 then some 1 else none
  lastModified _ := 5
  tags _ := [7]

def headManifest : Manifest Nat Nat := ⟨2, 30, some 20, none, true⟩

/-- A run until it calls `Pull` for the head. -/
def begin : List (Event Nat Nat) :=
  .start { pullHistory := true } headManifest 1 :: (mains 1 ++ uploads 1 ++ mains 2)

/-- One call of `Pull` until the catalog is at the destination. -/
def pullRevision : List (Event Nat Nat) := pullChunks ++ mains 4 ++ uploads 1

/-- From the end of the walk to the end of the run. -/
def publish : List (Event Nat Nat) := mains 6 ++ uploads 1 ++ mains 2 ++ uploads 1 ++ mains 1

/-- A run that is killed, and one that brings two revisions and the tag. -/
def wholeHistory : List (Event Nat Nat) :=
  begin.concat .kill ++ begin ++ pullRevision ++ mains 1 ++ pullRevision ++ mains 2 ++
    pullRevision ++ publish

theorem history_replicated_twoRevisions :
    ∃ s p, (system twoRevisions).Reach (Unbroken twoRevisions fun _ => True) s ∧
      s.process = some p ∧ p.manifest = headManifest ∧ ∀ x, Wanted twoRevisions p.manifest x →
        .catalog x ∈ s.objects ∧ ∀ o, Below twoRevisions x o → o ∈ s.objects := by
  have hrun : (wholeHistory.foldlM (System.guarded (Uncut twoRevisions) (step twoRevisions)) {}).map
      (fun s => s.process.map fun p => (p.place, p.manifest)) =
      some (some (.finished, headManifest)) := by decide
  obtain ⟨s, hs, hend⟩ := map_eq_some_iff.1 hrun
  obtain ⟨p, hp, hat⟩ := map_eq_some_iff.1 hend
  obtain ⟨hfinished, hmanifest⟩ := Prod.mk.inj hat
  have huncut : (system twoRevisions).Reach (Uncut twoRevisions) s :=
    System.Reach.followGuarded (S := system twoRevisions) (fun _ _ _ h => h) (.init rfl) hs
  have hreach : (system twoRevisions).Reach (Unbroken twoRevisions fun _ => True) s :=
    huncut.mono fun _ _ => unbroken_of_uncut
  exact ⟨s, p, hreach, hp, hmanifest, fun x hx =>
    history_replicated twoRevisions (fun _ => True) hreach hp hfinished x trivial hx⟩

/-- A run that is killed after the head is stored, and one that finds it present. -/
def resumedHistory : List (Event Nat Nat) :=
  (begin ++ pullRevision).concat .kill ++ begin ++ mains 4 ++ pullRevision ++ publish

/-- The run after an interrupted one succeeds without the previous revision. -/
theorem previous_revision_skipped :
    ∃ s p, (system twoRevisions).Reach (fun _ => Requested) s ∧ s.process = some p ∧
      p.place = .finished ∧ Wanted twoRevisions p.manifest 1 ∧ .catalog 1 ∉ s.objects := by
  have hrun : (resumedHistory.foldlM (System.guarded (fun _ => Requested) (step twoRevisions)) {}).map
      (fun s => (s.process.map fun p => (p.place, p.manifest), decide (.catalog 1 ∈ s.objects))) =
      some (some (.finished, headManifest), false) := by decide
  obtain ⟨s, hs, hend⟩ := map_eq_some_iff.1 hrun
  obtain ⟨hprocess, hmissing⟩ := Prod.mk.inj hend
  obtain ⟨p, hp, hat⟩ := map_eq_some_iff.1 hprocess
  obtain ⟨hfinished, hmanifest⟩ := Prod.mk.inj hat
  refine ⟨s, p, System.Reach.followGuarded (S := system twoRevisions) (fun _ _ _ h => h)
    (.init rfl) hs, hp, hfinished, ?_, of_decide_eq_false hmissing⟩
  rw [hmanifest]
  exact .inl (Older.older rfl Older.here)

end

end

end Cvmfs.Replication
