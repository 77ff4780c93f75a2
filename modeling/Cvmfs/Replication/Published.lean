import Cvmfs.Replication.Closed
import Mathlib.Data.Fintype.Basic

/-! # The published manifest

The manifest is scheduled last, but scheduling is not storing: between the certificate and
the manifest the only wait is the one before the upload of the reflog. A replica without a
reflog has no such wait. -/

namespace Cvmfs.Replication

open Lib List

section

variable {C D : Type} {repo : Repository C D} {objs objs' : List (Object C D)}
  {p p' : Process C D} {s s' : State C D} {m : Manifest C D}

/-- The objects that a manifest names are present. -/
structure ManifestOk (objs : List (Object C D)) (m : Manifest C D) : Prop where
  root : .catalog m.catalogHash ∈ objs
  certificate : .certificate m.certificate ∈ objs
  history : ∀ h ∈ m.history, .history h ∈ objs
  metaInfo : ∀ h ∈ m.metaInfo, .metaInfo h ∈ objs

theorem ManifestOk.mono (h : ManifestOk objs m) (hsub : objs ⊆ objs') : ManifestOk objs' m :=
  ⟨hsub h.root, hsub h.certificate, fun d hd => hsub (h.history d hd),
    fun d hd => hsub (h.metaInfo d hd)⟩

/-- The manifest is scheduled by a run that has waited for the certificate and the meta info,
or at a moment when these are present. -/
def Careful (s : State C D) : Event C D → Prop
  | .main _ => ∀ p ∈ s.process, p.stack = [] → p.place = .manifest →
    p.options.preloadCache = false → p.options.reflog = true ∨
      (.certificate p.manifest.certificate ∈ s.objects ∧
        ∀ h ∈ p.manifest.metaInfo, .metaInfo h ∈ s.objects)
  | _ => True

instance (s : State C D) (e : Event C D) [DecidableEq C] [DecidableEq D] :
    Decidable (Careful s e) := by
  unfold Careful
  split <;> infer_instance

/-! ## What has come of the manifest's objects -/

/-- What a run that is not for a preloaded cache has stored of its manifest's objects. -/
def NamedAt (objs : List (Object C D)) (p : Process C D) : Place C → Prop
  | .history => True
  | .historyWait => ∀ h ∈ p.manifest.history, Coming objs p (.history h)
  | .certificate =>
    (∀ h ∈ p.manifest.history, .history h ∈ objs) ∧ .catalog p.manifest.catalogHash ∈ objs
  | .metaInfo =>
    (∀ h ∈ p.manifest.history, .history h ∈ objs) ∧ .catalog p.manifest.catalogHash ∈ objs ∧
      Coming objs p (.certificate p.manifest.certificate)
  | .reflog =>
    (∀ h ∈ p.manifest.history, .history h ∈ objs) ∧ .catalog p.manifest.catalogHash ∈ objs ∧
      Coming objs p (.certificate p.manifest.certificate) ∧
      ∀ h ∈ p.manifest.metaInfo, Coming objs p (.metaInfo h)
  | .manifest =>
    (∀ h ∈ p.manifest.history, .history h ∈ objs) ∧ .catalog p.manifest.catalogHash ∈ objs ∧
      (p.options.reflog = true → .certificate p.manifest.certificate ∈ objs ∧
        ∀ h ∈ p.manifest.metaInfo, .metaInfo h ∈ objs)
  | .lastWait => True
  | .finished => True
  | _ => ∀ h ∈ p.manifest.history, .history h ∈ objs

structure Named (objs : List (Object C D)) (p : Process C D) : Prop where
  manifests : ∀ m, .manifest m ∈ p.inflight → ManifestOk objs m
  place : p.options.preloadCache = false → NamedAt objs p p.place
  pulling : p.stack ≠ [] → p.place = .pulling

/-- Every manifest that is published, or may be by an upload in flight, is in order. -/
structure Naming (s : State C D) : Prop where
  published : ∀ m ∈ s.published, ManifestOk s.objects m
  orphans : ∀ m, .manifest m ∈ s.orphans → ManifestOk s.objects m
  process : ∀ p, s.process = some p → Named s.objects p

structure SameTask (p p' : Process C D) : Prop where
  manifest : p'.manifest = p.manifest := by rfl
  options : p'.options = p.options := by rfl

/-- The run has the same task and the same uploads. -/
structure SameRun (p p' : Process C D) : Prop extends SameTask p p' where
  inflight : p'.inflight = p.inflight := by rfl

theorem NamedAt.mono {place} (h : NamedAt objs p place) (hsub : objs ⊆ objs')
    (hcoming : ∀ o, Coming objs p o → Coming objs' p' o) (hsame : SameTask p p') :
    NamedAt objs' p' place := by
  obtain ⟨hmanifest, hoptions⟩ := hsame
  have hhistory : (∀ h ∈ p.manifest.history, Object.history h ∈ objs) →
      ∀ h ∈ p'.manifest.history, Object.history h ∈ objs' := by
    rw [hmanifest]
    exact fun hall d hd => hsub (hall d hd)
  cases place with
  | history | lastWait | finished => trivial
  | historyWait =>
    rw [NamedAt, hmanifest]
    exact fun d hd => hcoming _ (h d hd)
  | certificate =>
    refine ⟨hhistory h.1, ?_⟩
    rw [hmanifest]
    exact hsub h.2
  | metaInfo =>
    refine ⟨hhistory h.1, ?_⟩
    rw [hmanifest]
    exact ⟨hsub h.2.1, hcoming _ h.2.2⟩
  | reflog =>
    refine ⟨hhistory h.1, ?_⟩
    rw [hmanifest]
    exact ⟨hsub h.2.1, hcoming _ h.2.2.1, fun d hd => hcoming _ (h.2.2.2 d hd)⟩
  | manifest =>
    refine ⟨hhistory h.1, ?_⟩
    rw [hmanifest, hoptions]
    exact ⟨hsub h.2.1, fun hreflog =>
      ⟨hsub (h.2.2 hreflog).1, fun d hd => hsub ((h.2.2 hreflog).2 d hd)⟩⟩
  | _ => exact hhistory h

/-! ## Steps -/

section

variable (h : Naming s)
include h

theorem Naming.run (hp : Named s.objects p) : Naming (s.run p) := by
  refine ⟨h.published, h.orphans, fun p' hp' => ?_⟩
  cases hp'
  exact hp

theorem Naming.abandon (hp : s.process = some p) : Naming (s.abandon p) := by
  refine ⟨h.published, fun m hm => ?_, fun p' hp' => ?_⟩
  · rcases mem_append.1 hm with hm | hm
    · exact h.orphans m hm
    · exact (h.process p hp).manifests m hm
  · cases hp'

theorem Naming.object (o : Object C D) : (∀ m ∈ s.published, ManifestOk (o :: s.objects) m) ∧
      ∀ m, .manifest m ∈ s.orphans → ManifestOk (o :: s.objects) m :=
  ⟨fun m hm => (h.published m hm).mono (subset_cons_self _ _),
    fun m hm => (h.orphans m hm).mono (subset_cons_self _ _)⟩

/-- `Store` keeps the manifests in order. What is named after it may use that the object is
coming. -/
theorem Naming.store (hp : s.process = some p) (q : Process C D)
    (hsame : SameRun p q) (hpulling : q.stack ≠ [] → q.place = .pulling) {o}
    (hplace : ∀ {objs' : List (Object C D)} {p' : Process C D}, p.options.preloadCache = false →
      s.objects ⊆ objs' → (∀ o', Coming s.objects p o' → Coming objs' p' o') → SameTask p p' →
      Coming objs' p' o → NamedAt objs' p' q.place) : Naming (s.store q o) := by
  have hold := h.process p hp
  have hsub : s.objects ⊆ o :: s.objects := subset_cons_self _ _
  unfold State.store
  split
  · rename_i hpreload
    refine ⟨(h.object o).1, (h.object o).2, fun p' hp' => ?_⟩
    cases hp'
    refine ⟨fun m hm => ?_, fun hnot => absurd (hpreload.symm.trans hnot) nofun, hpulling⟩
    rw [hsame.inflight] at hm
    exact (hold.manifests m hm).mono hsub
  refine h.run ⟨fun m hm => ?_, fun hpreload => ?_, hpulling⟩
  · rcases mem_append.1 hm with hm | hm
    · rw [hsame.inflight] at hm
      exact hold.manifests m hm
    · cases mem_singleton.1 hm
  refine hplace (hsame.options ▸ hpreload) (fun _ h => h) (fun o' ho' => ?_) { hsame with }
    (.inr (mem_append_right _ (mem_singleton_self _)))
  refine ho'.imp_right fun hmem => mem_append_left _ ?_
  rw [hsame.inflight]
  exact hmem

omit h in
theorem Named.of_same (h : Named objs p) (hsame : SameRun p p') (hplace : p'.place = p.place)
    (hpulling : p'.stack ≠ [] → p.place = .pulling) : Named objs p' := by
  refine ⟨fun m hm => ?_, fun hpreload => ?_, fun hne => hplace.trans (hpulling hne)⟩
  · rw [hsame.inflight] at hm
    exact h.manifests m hm
  rw [hsame.options] at hpreload
  rw [hplace]
  refine (h.place hpreload).mono (fun _ h => h) (fun o ho => ?_) hsame.toSameTask
  rw [Coming, hsame.inflight]
  exact ho

theorem Naming.upload (hp : s.process = some p) {i u} (hu : p.inflight[i]? = some u) :
    Naming ((s.land u).run { p with inflight := p.inflight.eraseIdx i }) := by
  have hold := h.process p hp
  have hsub := objects_land s u
  have hnext : Named (s.land u).objects { p with inflight := p.inflight.eraseIdx i } :=
    ⟨fun m hm => (hold.manifests m (mem_of_mem_eraseIdx hm)).mono hsub,
      fun hpreload => (hold.place hpreload).mono hsub (fun _ => coming_land hu) {}, hold.pulling⟩
  cases u with
  | manifest m =>
    refine ⟨fun m' hm' => ?_, h.orphans, fun p' hp' => ?_⟩
    · cases hm'
      exact hold.manifests m (mem_of_getElem? hu)
    · cases hp'
      exact hnext
  | object o =>
    refine ⟨(h.object o).1, (h.object o).2, fun p' hp' => ?_⟩
    cases hp'
    exact hnext

theorem Naming.late {i u} (hu : s.orphans[i]? = some u) :
    Naming (({ s with orphans := s.orphans.eraseIdx i }).land u) := by
  have hmem := mem_of_getElem? hu
  cases u with
  | manifest m =>
    refine ⟨fun m' hm' => ?_, fun m' hm' => h.orphans m' (mem_of_mem_eraseIdx hm'), h.process⟩
    cases hm'
    exact h.orphans m hmem
  | object o =>
    have hsub : s.objects ⊆ o :: s.objects := subset_cons_self _ _
    refine ⟨(h.object o).1, fun m' hm' => (h.object o).2 m' (mem_of_mem_eraseIdx hm'),
      fun p hp => ?_⟩
    have hold := h.process p hp
    exact ⟨fun m' hm' => (hold.manifests m' hm').mono hsub, fun hpreload =>
      (hold.place hpreload).mono hsub (fun _ => Or.imp_left (@hsub _)) {}, hold.pulling⟩

theorem Naming.pull (hp : s.process = some p) {f fs} (hstack : p.stack = f :: fs)
    {outcome} (hmove : PullMove repo s p f fs outcome s') : Naming s' := by
  have hold := h.process p hp
  have hpulling : p.place = .pulling := by
    refine hold.pulling ?_
    rw [hstack]
    exact cons_ne_nil _ _
  have hkeep : ∀ {q : Process C D}, SameRun p q → q.place = p.place → Naming (s.run q) :=
    fun hsame hplace => h.run (hold.of_same hsame hplace fun _ => hpulling)
  cases hmove with
  | store =>
    refine h.store hp { p with
      stack := { f with phase := .done true (repo.previousRevision f.hash) } :: fs }
      {} (fun _ => hpulling) fun hpreload hsub hcoming hsame _ => ?_
    exact (hold.place hpreload).mono hsub hcoming hsame
  | @done outcome ok previous =>
    cases fs with
    | nil =>
      have hhistory := hold.place
      rw [hpulling] at hhistory
      unfold returnFrom
      dsimp only
      split
      · exact h.run ⟨hold.manifests, hhistory, fun hne => absurd rfl hne⟩
      · exact h.run ⟨hold.manifests, hhistory, fun hne => absurd rfl hne⟩
    | cons parent fs =>
      unfold returnFrom
      dsimp only
      split
      · exact hkeep {} rfl
      · split
        · exact hkeep {} rfl
        · exact hkeep {} rfl
  | _ => exact hkeep {} rfl

theorem Naming.main (hp : s.process = some p) (hstack : p.stack = []) {outcome}
    (hcareful : Careful s (.main outcome)) (hmove : MainMove repo s p s') : Naming s' := by
  have hold := h.process p hp
  have hplace := hold.place
  have hempty : ∀ {place : Place C}, (p.goto place).stack ≠ [] → (p.goto place).place = .pulling :=
    fun hne => absurd hstack hne
  have hgoto : ∀ {place : Place C}, (p.options.preloadCache = false → NamedAt s.objects p place) →
      Naming (s.run (p.goto place)) := fun hnamed => h.run ⟨hold.manifests, hnamed, hempty⟩
  cases hmove with
  | fail => exact h.abandon hp
  | @storeHistory d _ hhistory =>
    refine h.store hp ({ p with tags := repo.tags d }.goto .historyWait) {}
      (fun hne => absurd hstack hne) fun _ _ _ hsame ho => ?_
    intro d' hd
    rw [hsame.manifest, hhistory] at hd
    cases hd
    exact ho
  | noHistory _ hnone =>
    refine hgoto fun hpreload d hd => ?_
    rw [hnone d hd] at hpreload
    cases hpreload
  | historyStored hat hinflight =>
    rw [hat] at hplace
    exact hgoto fun hpreload d hd => here_of_coming hinflight (hplace hpreload d hd)
  | call hat =>
    rw [hat] at hplace
    exact h.run ⟨hold.manifests, hplace, fun _ => rfl⟩
  | tagsDone hat | stop hat | allStored hat =>
    rw [hat] at hplace
    exact hgoto hplace
  | tagPresent => exact h.run (hold.of_same {} rfl fun hne => absurd hstack hne)
  | pullTag hat =>
    rw [hat] at hplace
    exact h.run ⟨hold.manifests, hplace, fun hne => absurd hstack hne⟩
  | rootPresent hat hroot =>
    rw [hat] at hplace
    exact hgoto fun hpreload => ⟨hplace hpreload, hroot⟩
  | certificatePresent hat hpresent =>
    rw [hat] at hplace
    exact hgoto fun hpreload =>
      ⟨(hplace hpreload).1, (hplace hpreload).2, .inl hpresent⟩
  | storeCertificate hat =>
    rw [hat] at hplace
    refine h.store hp (p.goto .metaInfo) {} hempty fun hpreload hsub hcoming hsame ho => ?_
    obtain ⟨hhistory, hroot⟩ := (hplace hpreload).mono hsub hcoming hsame
    refine ⟨hhistory, hroot, ?_⟩
    rw [hsame.manifest]
    exact ho
  | noMetaInfo hat hnone =>
    rw [hat] at hplace
    refine hgoto fun hpreload => ?_
    obtain ⟨hhistory, hroot, hcertificate⟩ := hplace hpreload
    refine ⟨hhistory, hroot, hcertificate, fun d hd => ?_⟩
    rw [hnone] at hd
    cases hd
  | storeMetaInfo hat hsome =>
    rw [hat] at hplace
    refine h.store hp (p.goto .reflog) {} hempty fun hpreload hsub hcoming hsame ho => ?_
    obtain ⟨hhistory, hroot, hcertificate⟩ := (hplace hpreload).mono hsub hcoming hsame
    refine ⟨hhistory, hroot, hcertificate, fun d hd => ?_⟩
    rw [hsame.manifest, hsome] at hd
    cases hd
    exact ho
  | reflogStored hat hinflight =>
    rw [hat] at hplace
    refine hgoto fun hpreload => ?_
    obtain ⟨hhistory, hroot, hcertificate, hmeta⟩ := hplace hpreload
    exact ⟨hhistory, hroot, fun _ => ⟨here_of_coming hinflight hcertificate,
      fun d hd => here_of_coming hinflight (hmeta d hd)⟩⟩
  | noReflog hat hreflog =>
    rw [hat] at hplace
    refine hgoto fun hpreload => ?_
    obtain ⟨hhistory, hroot, -, -⟩ := hplace hpreload
    refine ⟨hhistory, hroot, fun hyes => ?_⟩
    rw [show p.options.reflog = true from hyes, hpreload] at hreflog
    cases hreflog
  | preloaded | finish => exact hgoto fun _ => trivial
  | storeManifest hat hpreload =>
    rw [hat] at hplace
    obtain ⟨hhistory, hroot, hwaited⟩ := hplace hpreload
    refine h.run ⟨fun m hm => ?_, fun _ => trivial, hempty⟩
    rcases mem_append.1 hm with hm | hm
    · exact hold.manifests m hm
    · cases mem_singleton.1 hm
      obtain ⟨hcertificate, hmeta⟩ := (hcareful p hp hstack hat hpreload).elim hwaited id
      exact ⟨hroot, hcertificate, hhistory, hmeta⟩

end

section

variable [DecidableEq C] [DecidableEq D]

theorem Naming.step (h : Naming s) {e} (hcareful : Careful s e) (hstep : step repo s e = some s') :
    Naming s' := by
  cases move_of_step repo hstep with
  | start => exact h.run ⟨nofun, fun _ => trivial, fun hne => absurd rfl hne⟩
  | main hp hstack hmove => exact h.main hp hstack hcareful hmove
  | pull hp hstack hmove => exact h.pull hp hstack hmove
  | read hp | work hp | countChunk hp =>
    exact h.run ((h.process _ hp).of_same {} rfl (h.process _ hp).pulling)
  | @storeChunk p i c hp =>
    refine h.store hp { p with jobs := p.jobs.set i (c, .count) } {}
      (h.process _ hp).pulling fun hpreload hsub hcoming hsame _ => ?_
    exact ((h.process _ hp).place hpreload).mono hsub hcoming hsame
  | upload hp hu => exact h.upload hp hu
  | late hu => exact h.late hu
  | kill hp => exact h.abandon hp

theorem naming_of_reach (h : (system repo).Reach Careful s) : Naming s := by
  refine h.invariant (P := Naming) ?_ fun s e s' hs hcareful hstep => hs.step hcareful hstep
  intro s hs
  cases hs
  refine ⟨nofun, nofun, fun p hp => ?_⟩
  cases hp

/-! ## The replica -/

/-- The chunks and the nested catalogs below a catalog. -/
inductive Below (repo : Repository C D) : C → Object C D → Prop
  | chunk {h : C} {c : D} : c ∈ repo.chunks h → Below repo h (.chunk c)
  | nested {h n : C} : n ∈ repo.nestedCatalogs h → Below repo h (.catalog n)
  | deeper {h n : C} {o : Object C D} : n ∈ repo.nestedCatalogs h → Below repo n o → Below repo h o

omit [DecidableEq C] [DecidableEq D] in
theorem Closing.below (h : Closing repo s) {c o} (ho : Below repo c o) (hc : .catalog c ∈ s.objects) :
    o ∈ s.objects := by
  induction ho with
  | chunk hmem => exact (h.closed _ hc).1 _ hmem
  | nested hmem => exact (h.closed _ hc).2 _ hmem
  | deeper hmem _ ih => exact ih ((h.closed _ hc).2 _ hmem)

/-- Whatever the order of the uploads and wherever runs are killed, a catalog is present only
with everything below it. This is what the shortcut for present catalogs rests on. -/
theorem below_present {guard : State C D → Event C D → Prop} (h : (system repo).Reach guard s) {c o}
    (hc : .catalog c ∈ s.objects) (ho : Below repo c o) : o ∈ s.objects :=
  (closing_of_reach h).below ho hc

/-- A replica is closed downwards at every moment, and so is its manifest if runs without a
reflog schedule it only after the certificate and the meta info are stored. -/
theorem replica_closed (repo : Repository C D) {s : State C D} (h : (system repo).Reach Careful s) :
    (∀ c o, .catalog c ∈ s.objects → Below repo c o → o ∈ s.objects) ∧
      ∀ m ∈ s.published, ManifestOk s.objects m :=
  ⟨fun _ _ hc ho => below_present h hc ho, (naming_of_reach h).published⟩

end

/-! ## Runs -/

section

/-- Two catalogs with a chunk each; the only tag is the head. -/
def twoCatalogs : Repository Nat Nat where
  chunks h := [h + 10]
  nestedCatalogs h := if h = 1 then [2] else []
  previousRevision _ := none
  lastModified _ := 5
  tags _ := [1]

/-- Steps of `Main` that do not fail. -/
def mains (n : Nat) : List (Event Nat Nat) := replicate n (.main .ok)

def uploads (n : Nat) : List (Event Nat Nat) := replicate n (.upload 0)

/-- A worker handles a chunk. -/
def fetchChunk : List (Event Nat Nat) := [.read, .work 0, .work 0, .work 0, .work 0]

/-- One call of `Pull` until it is done with its single chunk. -/
def pullChunks : List (Event Nat Nat) := mains 4 ++ fetchChunk ++ mains 2 ++ uploads 1

/-- A snapshot from the first step to the manifest. -/
def snapshot : List (Event Nat Nat) :=
  .start {} ⟨1, 30, some 20, some 40, true⟩ 1 :: (mains 1 ++ uploads 1 ++ mains 2 ++ pullChunks ++
    mains 1 ++ pullChunks ++ mains 4 ++ uploads 1 ++ mains 4 ++ uploads 1 ++ mains 7 ++ uploads 2 ++
    mains 2 ++ uploads 1)

theorem replica_closed_twoCatalogs :
    ∃ s, (system twoCatalogs).Reach Careful s ∧ s.published = some ⟨1, 30, some 20, some 40, true⟩ ∧
      (∀ c o, .catalog c ∈ s.objects → Below twoCatalogs c o → o ∈ s.objects) ∧
      ∀ m ∈ s.published, ManifestOk s.objects m := by
  have hrun : (snapshot.foldlM (System.guarded Careful (step twoCatalogs)) {}).map State.published =
      some (some ⟨1, 30, some 20, some 40, true⟩) := by decide
  obtain ⟨s, hs, hpublished⟩ := Option.map_eq_some_iff.1 hrun
  have hreach : (system twoCatalogs).Reach Careful s :=
    System.Reach.followGuarded (S := system twoCatalogs) (fun _ _ _ h => h) (.init rfl) hs
  exact ⟨s, hreach, hpublished, replica_closed twoCatalogs hreach⟩

/-- A snapshot without a reflog in which the manifest lands before the certificate. -/
def hastySnapshot : List (Event Nat Nat) :=
  .start { reflog := false } ⟨2, 30, none, none, true⟩ 1 ::
    (mains 2 ++ pullChunks ++ mains 4 ++ uploads 1 ++ mains 8).concat (.upload 1)

/-- Without a reflog nothing waits for the certificate. -/
theorem certificate_not_stored : ∃ s, (system twoCatalogs).Reach System.anyStep s ∧
      s.published = some ⟨2, 30, none, none, true⟩ ∧ .certificate 30 ∉ s.objects := by
  have hrun : (hastySnapshot.foldlM (step twoCatalogs) {}).map
      (fun s => (s.published, decide (.certificate 30 ∈ s.objects))) =
      some (some ⟨2, 30, none, none, true⟩, false) := by decide
  obtain ⟨s, hs, hend⟩ := Option.map_eq_some_iff.1 hrun
  obtain ⟨hpublished, hmissing⟩ := Prod.mk.inj hend
  exact ⟨s, System.Reach.follow (S := system twoCatalogs) (fun _ _ _ h => h) (.init rfl) hs,
    hpublished, of_decide_eq_false hmissing⟩

end

end

end Cvmfs.Replication
