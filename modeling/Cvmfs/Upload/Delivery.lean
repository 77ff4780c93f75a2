import Cvmfs.Upload.Conservation

/-! # Sessions deliver every object

At the end of a session every committed bucket has been uploaded once. A commit that
waits for the queue of jobs is served, because the upload thread empties the queue;
only the tube of results is never emptied before the end of the session, so the number
of packs is limited. The producer does not send objects of `2 ^ 32` bytes as a whole. -/

namespace Cvmfs.Upload

open List ObjectPack Nat
open Crypto (Bytes)
open Receiver (kMaxObjects)
open Lib

namespace Session

variable {p : Params} {s s' : Session}

/-! ## The end of a session -/

section

variable (h : s.Sound)
include h

theorem Sound.all_uploaded (hresults : s.uploadResults = [])
    (hst : ∀ a r, s.stage ≠ .recording a r) : s.uploaded.map Prod.fst = s.dispatched := by
  have hjobs := h.line.jobs
  have hnodup : (s.dispatched.map UploadJob.result).Nodup := by
    rw [h.line.numbered]
    exact nodup_range
  rw [← hjobs, map_append, map_append] at hnodup
  have hrest : s.worker.toList ++ s.uploadJobs = [] := by
    refine eq_nil_iff_forall_not_mem.2 fun j hj => ?_
    have hmem : j ∈ s.dispatched := by
      rw [← hjobs, append_assoc]
      exact mem_append_right _ hj
    have hlt : j.result < s.dispatched.length := by
      have := mem_map_of_mem (f := UploadJob.result) hmem
      rwa [h.line.numbered, mem_range] at this
    rcases h.line.results j.result hlt with hc | hc | ⟨a, ha⟩
    · rw [hresults] at hc
      exact absurd hc not_mem_nil
    · rw [append_assoc, ← map_append] at hnodup
      refine disjoint_of_nodup_append hnodup ?_ (mem_map_of_mem hj)
      rwa [map_map]
    · exact hst _ _ ha
  rwa [append_assoc, hrest, append_nil] at hjobs

theorem Sound.finalized {r} (hst : s.stage = .finalized r) :
    s.uploaded.map Prod.fst = s.dispatched ∧
    s.dispatched.flatMap (·.pack.buckets) = s.committed.map Prod.fst ∧
    s.bytesCommitted = s.bytesDispatched := by
  have hphase := h.phase
  rw [Phase, hst] at hphase
  obtain ⟨hdrained, hresults⟩ := hphase
  have hbooks : Books s.heap s.fresh s.activeHandles (s.dispatched.map (·.pack.load))
      s.committed s.bytesCommitted := by
    have hb := h.books
    cases hq : s.currentPack with
    | none => simpa [loads, ownPack, hst, hq] using hb
    | some q =>
      rw [loads_of_current hq (by simp [hst])] at hb
      rw [load, hdrained.current q hq] at hb
      exact hb.of_snoc_empty.2
  refine ⟨h.all_uploaded hresults (by simp [hst]), ?_, ?_⟩
  · have := hbooks.kept
    rwa [flatMap_map] at this
  have := h.line.bytes
  rw [pendingBytes, hst, add_zero] at this
  rw [this, hbooks.total, map_map]
  rfl

theorem Sound.uploaded_arrived {r} (hst : s.stage = .finalized r) :
    (s.uploaded.flatMap (·.2.1), s.uploaded.flatMap (·.2.2)) = arrived (s.committed.map Prod.snd) := by
  obtain ⟨hall, hkept, -⟩ := h.finalized hst
  have hbuckets : s.committed.map Prod.snd = s.uploaded.flatMap fun u => s.objects u.1.pack := by
    have hjobs : s.uploaded.flatMap (fun u => s.objects u.1.pack) =
        (s.uploaded.map Prod.fst).flatMap fun j => j.pack.buckets.map s.heap := by
      rw [flatMap_map]
      rfl
    rw [hjobs, hall, ← map_flatMap, hkept, map_map]
    exact map_congr_left fun c hc => (h.books.content c hc).symm
  rw [hbuckets, arrived, map_flatMap, flatMap_assoc]
  exact congrArg₂ Prod.mk (flatMap_congr fun u hu => by rw [h.line.objects u hu, arrived])
    (flatMap_congr fun u hu => by rw [h.line.objects u hu, arrived])

theorem Sound.sent (hsent : s.commitSent = true) : ∃ r, s.stage = .finalized r := by
  have hphase := h.phase
  unfold Phase at hphase
  split at hphase
  case h_6 r hst => exact ⟨r, hst⟩
  all_goals simp [hsent] at hphase

/-! ## Progress -/

/-- Steps of the committing thread and of the upload thread. -/
def Event.internal : Event → Bool
  | .proceed | .takeJob | .doUpload true _ => true
  | _ => false

/-- How far a commit is from its end. -/
def rank (s : Session) : Nat :=
  match s.stage with
  | .committing c _ =>
    match s.currentPack with
    | none => 1
    | some q => if q.full (s.heap c.handle).size then 10 else 1
  | .dispatching _ => 8
  | .recording _ _ => 4
  | _ => 0

/-- A bound for the internal steps until a commit returns. -/
def work (s : Session) : Nat := s.rank + (2 * s.uploadJobs.length + s.worker.toList.length)

variable {c : Commit}

omit h in
theorem not_free_of_commits (hc : Stage.commits s.stage = some c) : s.stage ≠ .free := by
  intro hst
  rw [hst] at hc
  cases hc

/-- A commit goes on, and its next step is closer to its end. -/
def Advances (c : Commit) (s s' : Session) : Prop :=
  (c.handle, true) ∈ s'.answers ∨ Stage.commits s'.stage = some c ∧ s'.work < s.work

theorem Sound.tryCommit_advances {again} (hst : s.stage = .committing c again) :
    Advances c s (s.tryCommit p c again) := by
  obtain ⟨q, hq, -, hact, -⟩ := h.current hst
  have hsound : (s.tryCommit p c again).Sound := h.tryCommit hst
  have htried := tryCommit_tried (p := p) (c := c) hq again
  revert htried hsound
  generalize s.tryCommit p c again = s'
  intro hsound htried
  have hrank : ∀ n, q.full n → n = (s.heap c.handle).size → s.rank = 10 := by
    rintro n hfull rfl
    simp [rank, hst, hq, hfull]
  cases htried with
  | committed b hb hspace => exact .inl (mem_append_right _ (.head _))
  | replaced b hb hfull hnone =>
    refine .inr ⟨rfl, ?_⟩
    rw [work, work, hrank b.size hfull (by rw [hb]; rfl)]
    refine Nat.add_lt_add_right ?_ _
    obtain ⟨-, -, -, hagain⟩ := hsound.phase
    obtain ⟨q', hq', hspace⟩ := hagain rfl
    cases hq'
    simp only [rank, if_neg hspace]
    decide
  | dispatched b hb hfull hsome =>
    refine .inr ⟨rfl, ?_⟩
    rw [work, work, hrank b.size hfull (by rw [hb]; rfl)]
    exact Nat.add_lt_add_right (show 8 < 10 by decide) _

theorem Sound.pushResult_advances {a r} (hst : s.stage = .recording a r)
    (hc : Stage.commits s.stage = some c) : Advances c s (s.pushResult a r) := by
  have hphase := (h.pushResult hst).phase
  rw [hst] at hc
  cases a with
  | finalize f => cases hc
  | retry c' newPack =>
    obtain rfl := Option.some.inj hc
    obtain ⟨-, -, -, hagain⟩ := hphase
    obtain ⟨q', hq', hspace⟩ := hagain rfl
    obtain rfl := Option.some.inj hq'
    refine .inr ⟨rfl, ?_⟩
    have hspace' : ¬newPack.full (s.heap c'.handle).size := hspace
    simp only [work, rank, hst, Session.pushResult, hspace', if_false]
    omega

variable {e : Event}

theorem Sound.internal_advances (hc : Stage.commits s.stage = some c)
    (he : e.internal = true) (hs : s.step p e = some s') : Advances c s s' := by
  cases move_of_step hs with
  | tryCommit hst =>
    rw [hst] at hc
    cases hc
    exact h.tryCommit_advances hst
  | @pushJob a q hst hq =>
    rw [hst] at hc
    refine .inr ⟨?_, ?_⟩
    · cases a with
      | retry c' newPack => exact hc
      | finalize f => cases hc
    · simp only [work, rank, hst, Session.pushJob, length_append, length_singleton]
      omega
  | pushResult hst _ => exact h.pushResult_advances hst hc
  | takeJob hworker hjobs =>
    refine .inr ⟨hc, ?_⟩
    simp only [work, hworker, hjobs, length_cons, Option.toList_none, Option.toList_some, length_nil]
    exact Nat.add_lt_add_left (by omega) _
  | doUpload hworker =>
    refine .inr ⟨hc, ?_⟩
    simp only [work, hworker, length_cons, Option.toList_none, Option.toList_some, length_nil]
    exact Nat.add_lt_add_left (by omega) _
  | newBucket | addToBucket | commitBucket | panic | finalize | collect | conclude => cases he

end

theorem external_keeps (hc : Stage.commits s.stage = some c) (he : e.internal = false)
    (hs : s.step p e = some s') : Stage.commits s'.stage = some c ∧ s'.work = s.work := by
  cases move_of_step hs with
  | tryCommit | pushJob | pushResult | takeJob | doUpload => cases he
  | newBucket hst | commitBucket hst | finalize hst | collect hst | conclude hst =>
    rw [hst] at hc
    cases hc
  | panic => exact ⟨hc, rfl⟩
  | @addToBucket i buf _ hne =>
    refine ⟨hc, ?_⟩
    simp only [work, rank, addToBucket]
    cases hst : s.stage with
    | committing c' again =>
      rw [hst] at hne
      have hsame : i ≠ c'.handle := fun heq => hne (congrArg some heq.symm)
      simp only [Function.update_of_ne hsame.symm]
    | _ => rfl

variable {a : Nat × Bool}

theorem answers_step (hs : s.step p e = some s') (ha : a ∈ s.answers) : a ∈ s'.answers := by
  cases move_of_step hs with
  | tryCommit hst =>
    simp only [tryCommit]
    split
    · exact mem_append_left _ ha
    · split
      · split <;> exact ha
      · exact mem_append_left _ ha
  | pushResult hst _ =>
    simp only [pushResult]
    split <;> exact ha
  | finalize hst _ =>
    unfold finalize
    split
    · exact ha
    · split <;> exact ha
  | newBucket | addToBucket | commitBucket | pushJob | takeJob | doUpload | panic | collect
  | conclude => exact ha

variable {es : List Event}

theorem answers_run (hs : es.foldlM (Session.step p) s = some s') (ha : a ∈ s.answers) :
    a ∈ s'.answers := by
  induction es generalizing s with
  | nil =>
    cases hs
    exact ha
  | cons e es ih =>
    rw [foldlM_cons] at hs
    obtain ⟨t, ht, hs⟩ := Option.bind_eq_some_iff.1 hs
    exact ih hs (answers_step ht ha)

theorem Sound.returns (h : s.Sound) (hc : Stage.commits s.stage = some c)
    (hs : es.foldlM (Session.step p) s = some s') (hmany : s.work < es.countP Event.internal) :
    (c.handle, true) ∈ s'.answers := by
  induction es generalizing s with
  | nil => exact absurd hmany (not_lt_zero _)
  | cons e es ih =>
    rw [foldlM_cons] at hs
    obtain ⟨t, ht, hs⟩ := Option.bind_eq_some_iff.1 hs
    cases he : e.internal with
    | false =>
      obtain ⟨hc', hwork⟩ := external_keeps hc he ht
      rw [countP_cons_of_neg (by simp [he])] at hmany
      exact ih (h.step ht) hc' hs (hwork ▸ hmany)
    | true =>
      rw [countP_cons_of_pos he] at hmany
      rcases h.internal_advances hc he ht with hdone | ⟨hc', hlt⟩
      · exact answers_run hs hdone
      · exact ih (h.step ht) hc' hs (by omega)

theorem Sound.not_stuck (h : s.Sound) (hc : Stage.commits s.stage = some c)
    (hqueue : 0 < p.maxQueueSize) (hpanic : s.panicked = false)
    (hmany : s.dispatched.length ≤ kMaxNumJobs) :
    ∃ e : Event, e.internal = true ∧ (s.step p e).isSome := by
  have hphase := h.phase
  unfold Phase at hphase
  split at hphase
  next hst => exact absurd hst (not_free_of_commits hc)
  next c' again hst => exact ⟨.proceed, rfl, by simp [Session.step, hpanic, Session.proceed, hst]⟩
  next a hst =>
    obtain ⟨⟨q, hq, -⟩, -⟩ := hphase
    by_cases hfull : s.uploadJobs.length = p.maxQueueSize
    · -- the upload thread makes room
      cases hworker : s.worker with
      | some job =>
        obtain ⟨rooms, hall⟩ := exists_produce ((s.objects job.pack).map Bucket.content)
        exact ⟨.doUpload true rooms, rfl, by simp [Session.step, hpanic, hworker, hall]⟩
      | none =>
        cases hjobs : s.uploadJobs with
        | nil =>
          rw [hjobs, length_nil] at hfull
          exact absurd hfull (Nat.ne_of_lt hqueue)
        | cons job jobs => exact ⟨.takeJob, rfl, by simp [Session.step, hpanic, hworker, hjobs]⟩
    · exact ⟨.proceed, rfl, by simp [Session.step, hpanic, Session.proceed, hst, hq, hfull]⟩
  next a r hst =>
    have hshort := h.line.short
    simp only [isRecording, hst] at hshort
    have hroom : s.uploadResults.length ≠ kMaxNumJobs := by omega
    exact ⟨.proceed, rfl, by simp [Session.step, hpanic, Session.proceed, hst, hroom]⟩
  next f hst =>
    rw [hst] at hc
    cases hc
  next r hst =>
    rw [hst] at hc
    cases hc

theorem Sound.loads_short (h : s.Sound) {j} (hj : j ∈ s.dispatched) :
    j.pack.buckets.length ≤ kMaxObjects := by
  refine (h.books.load j.pack.load ?_).2
  exact mem_append_left _ (mem_map_of_mem (f := fun j => j.pack.load) hj)

/-- A session delivers every object: `CommitBucket` answers nothing but `true`, a dispatched
pack owns no open bucket and is not too large, the commit request follows the uploads, and
in the end the uploads announce the committed buckets, one for one, and hold all their bytes,
provided that each has less than `2 ^ 32` of them. A call of `CommitBucket` is never stuck and
returns after a bounded number of steps of its own and of the upload thread, as long as the tube
of results, which only `Finalize` empties, takes the packs. -/
theorem session_delivers (p : Params) (hqueue : 0 < p.maxQueueSize) (s : Session)
    (hs : (sessions p).Reach System.anyStep s) : (∀ a ∈ s.answers, a.2 = true) ∧
    (∀ j ∈ s.dispatched, j.pack.openBuckets = ∅ ∧ j.pack.buckets.length ≤ kMaxObjects) ∧
    (s.commitSent = true → s.uploaded.map Prod.fst = s.dispatched) ∧ (∀ r, s.stage = .finalized r →
      s.dispatched.flatMap (·.pack.buckets) = s.committed.map Prod.fst ∧
      (s.committed.map Prod.fst).Nodup ∧ s.uploaded.map Prod.fst = s.dispatched ∧
      s.uploaded.flatMap (·.2.1) = s.committed.map (·.2.item) ∧
      ((∀ c ∈ s.committed, c.2.size < 2 ^ 32) →
        s.uploaded.flatMap (·.2.2) = s.committed.flatMap (·.2.content)) ∧
      s.bytesCommitted = s.bytesDispatched) ∧ ∀ c, Stage.commits s.stage = some c →
      (∀ (es : List Event) (s' : Session), es.foldlM (Session.step p) s = some s' →
        s.work < es.countP Event.internal → (c.handle, true) ∈ s'.answers) ∧
      (s.panicked = false → s.dispatched.length ≤ kMaxNumJobs →
        ∃ e : Event, e.internal = true ∧ (s.step p e).isSome) := by
  have h := sound_of_reach hs
  refine ⟨?_, fun j hj => ⟨h.line.closed j hj, h.loads_short hj⟩, ?_, ?_, ?_⟩
  · intro a ha
    rw [h.answers] at ha
    obtain ⟨c, -, rfl⟩ := mem_map.1 ha
    rfl
  · intro hsent
    obtain ⟨r, hst⟩ := h.sent hsent
    exact (h.finalized hst).1
  · intro r hst
    obtain ⟨hall, hkept, hbytes⟩ := h.finalized hst
    obtain ⟨hitems, hpayload⟩ := Prod.mk.inj (h.uploaded_arrived hst)
    refine ⟨hkept, (nodup_append.1 h.books.nodup).2.1, hall, ?_, fun hshort => ?_, hbytes⟩
    · rw [hitems, map_map]
      rfl
    · rw [hpayload, flatMap_map]
      exact flatMap_congr fun c hc => sentPart_of_short (hshort c hc)
  · intro c hc
    exact ⟨fun es s' hrun hmany => h.returns hc hrun hmany,
      fun hpanic hmany => h.not_stuck hc hqueue hpanic hmany⟩

/-- Two objects, the second of which does not fit into the pack of the first one. -/
def twoPacks : List Event :=
  [.newBucket, .newBucket, .addToBucket 1 [4, 5], .addToBucket 0 [1, 2, 3],
    .commitBucket ⟨.cas, ⟨.sha1, replicate 20 0, rfl⟩, 0, 0, ""⟩, .proceed,
    .commitBucket ⟨.cas, ⟨.sha1, replicate 20 1, rfl⟩, 67, 1, ""⟩, .proceed, .proceed, .proceed,
    .takeJob, .proceed,
    .finalize ⟨true, "old", "new"⟩, .proceed, .doUpload true [2, 2], .proceed, .takeJob, .collect,
    .doUpload true [9], .collect, .conclude true]

theorem session_delivers_twoPacks : ∃ s, twoPacks.foldlM (Session.step ⟨4, 10⟩) {} = some s ∧
    s.stage = .finalized true ∧ s.dispatched.length = 2 ∧
    s.uploaded.flatMap (·.2.2) = s.committed.flatMap (·.2.content) := by
  have hrun : twoPacks.foldlM (Session.step ⟨4, 10⟩) {} =
      some ((twoPacks.foldlM (Session.step ⟨4, 10⟩) {}).getD {}) := rfl
  have hreach := System.Reach.follow (S := sessions ⟨4, 10⟩) (fun _ _ _ h => h) (.init rfl) hrun
  exact ⟨_, hrun, rfl, rfl, ((session_delivers ⟨4, 10⟩ (by decide) _ hreach).2.2.2.1 true
    rfl).2.2.2.2.1 (by decide)⟩

/-- A session with one object, up to its upload. -/
def largeObject (object : Bytes) : List Event :=
  [.newBucket, .addToBucket 0 object, .commitBucket ⟨.cas, ⟨.sha1, replicate 20 0, rfl⟩, 0, 0, ""⟩,
    .proceed, .finalize ⟨true, "old", "new"⟩, .proceed, .proceed, .takeJob]

theorem largeObject_run {object : Bytes} (h : object.length = 2 ^ 32 + 5) :
    ∃ s, (largeObject object).foldlM (Session.step ⟨2 ^ 33, 10⟩) {} = some s ∧ s.uploaded = [] ∧
      s.committed.map (·.2.content) = [object] ∧ s.worker.isSome ∧
      ∀ job ∈ s.worker, (s.objects job.pack).map Bucket.content = [object] := by
  have hne : object ≠ [] := by
    rintro rfl
    cases h
  have hcontent : ∀ c i t n, ((({} : Bucket).add object).label c i t n).content = object := by
    simp [Bucket.add, Bucket.label, hne]
  simp [largeObject, Session.step, Session.newBucket, Session.addToBucket, Session.proceed,
    Session.tryCommit, Session.finalize, Session.pushJob, Session.pushResult, ObjectPack.newBucket,
    ObjectPack.full, ObjectPack.commitBucket, Session.objects, Bucket.size, hcontent, h, kMaxObjects,
    kMaxNumJobs, Stage.commits]

/-- What remains of an object is counted in an `unsigned`: of `2 ^ 32 + 5` bytes that were
committed, five are sent. -/
theorem large_object_cut : ∃ object : Bytes, object.length = 2 ^ 32 + 5 ∧
    ∃ s, (largeObject object).foldlM (Session.step ⟨2 ^ 33, 10⟩) {} = some s ∧
      s.committed.map (·.2.content) = [object] ∧ s.worker.isSome ∧
      ∀ rooms s', s.step ⟨2 ^ 33, 10⟩ (.doUpload true rooms) = some s' →
        s'.uploaded.map (·.2.2) = [object.take 5] := by
  have hlength : (replicate (2 ^ 32 + 5) (0 : UInt8)).length = 2 ^ 32 + 5 := length_replicate
  revert hlength
  generalize replicate (2 ^ 32 + 5) (0 : UInt8) = object
  intro hlength
  obtain ⟨s, hs, huploaded, hcommitted, hworking, hobjects⟩ := largeObject_run hlength
  refine ⟨object, hlength, s, hs, hcommitted, hworking, fun rooms s' hs' => ?_⟩
  cases move_of_step hs' with
  | doUpload hworker =>
    have hpart : sentPart object = object.take 5 := by
      rw [sentPart, hlength]
      rfl
    rw [huploaded, nil_append, map_singleton, arrived, ← flatMap_map, hobjects _ hworker,
      flatMap_singleton, hpart]

end Session

end Cvmfs.Upload
