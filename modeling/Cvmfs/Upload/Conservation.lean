import Mathlib.Algebra.BigOperators.Group.List.Basic
import Cvmfs.Upload.SessionContext

/-! # Conservation of buckets

What a session keeps in every step: a bucket is open and owned by one pack, or it is
committed and in exactly one pack, with the content it had when it was committed; the
byte counters count the packs; every dispatched pack is in the queue, with the upload
thread, or uploaded. -/

namespace Cvmfs.Upload

open List Function Option Nat Prod
open Crypto (Bytes)
open Receiver (kMaxObjects)

/-! ## Books -/

/-- What counts of a pack: its size and its committed buckets. -/
def ObjectPack.load (q : ObjectPack) : Nat × List Nat := (q.size, q.buckets)

/-- Buckets, the packs they are committed to and the number of bytes in these packs. -/
structure Books (heap : Nat → Bucket) (fresh : Nat) (active : List Nat)
    (loads : List (Nat × List Nat)) (committed : List (Nat × Bucket)) (bytes : Nat) : Prop where
  nodup : (active ++ committed.map fst).Nodup
  lt : ∀ h ∈ active ++ committed.map fst, h < fresh
  kept : loads.flatMap snd = committed.map fst
  content : ∀ c ∈ committed, heap c.1 = c.2
  load : ∀ l ∈ loads, l.1 = (l.2.map fun h => (heap h).size).sum ∧ l.2.length ≤ kMaxObjects
  total : bytes = (loads.map fst).sum
  fits : ∀ h, (heap h).Fits

namespace Books

variable {heap heap' : Nat → Bucket} {fresh : Nat} {active : List Nat}
  {loads : List (Nat × List Nat)} {committed : List (Nat × Bucket)} {bytes : Nat}

variable {h : Nat}

section

variable (hb : Books heap fresh active loads committed bytes)
include hb

theorem update {b} (hh : h ∉ committed.map fst) (hfits : b.Fits) :
    Books (Function.update heap h b) fresh active loads committed bytes := by
  have hsame : ∀ h' ∈ committed.map fst, Function.update heap h b h' = heap h' := by
    intro h' hh'
    rw [Function.update_of_ne]
    rintro rfl
    exact hh hh'
  refine ⟨hb.nodup, hb.lt, hb.kept, ?_, ?_, hb.total, ?_⟩
  · intro c hc
    rw [hsame c.1 (mem_map_of_mem hc), hb.content c hc]
  · intro l hl
    refine ⟨?_, (hb.load l hl).2⟩
    rw [(hb.load l hl).1]
    congr 1
    refine map_congr_left fun h' hh' => ?_
    rw [hsame h' (hb.kept ▸ mem_flatMap.2 ⟨l, hl, hh'⟩)]
  · intro h'
    rcases eq_or_ne h' h with rfl | hne
    · rwa [update_self]
    · rw [update_of_ne hne]
      exact hb.fits h'

theorem active_notMem (hh : h ∈ active) : h ∉ committed.map fst :=
  fun hc => disjoint_of_nodup_append hb.nodup hh hc

theorem new : Books (Function.update heap fresh {}) (fresh + 1) (active ++ [fresh]) loads committed
      bytes := by
  have hfresh : fresh ∉ active ++ committed.map fst :=
    fun h => lt_irrefl _ (hb.lt _ h)
  have hperm : (active ++ [fresh] ++ committed.map fst).Perm
      (fresh :: (active ++ committed.map fst)) := by
    rw [append_assoc]
    exact perm_middle
  have hb' := hb.update (fun hc => hfresh (mem_append_right _ hc)) Bucket.fits_new
  refine ⟨?_, ?_, hb'.kept, hb'.content, hb'.load, hb'.total, hb'.fits⟩
  · exact hperm.nodup_iff.2 (nodup_cons.2 ⟨hfresh, hb.nodup⟩)
  intro h hh
  rcases mem_cons.1 (hperm.mem_iff.1 hh) with rfl | hh
  · exact lt_succ_self _
  · exact lt_succ_of_lt (hb.lt h hh)

theorem snoc_empty : Books heap fresh active (loads ++ [(0, [])]) committed bytes := by
  refine ⟨hb.nodup, hb.lt, ?_, hb.content, ?_, ?_, hb.fits⟩
  · simpa using hb.kept
  · intro l hl
    rcases mem_append.1 hl with hl | hl
    · exact hb.load l hl
    · rw [mem_singleton.1 hl]
      exact ⟨rfl, zero_le _⟩
  · simpa using hb.total

end

theorem of_snoc_empty {n} (hb : Books heap fresh active (loads ++ [(n, [])]) committed bytes) :
    n = 0 ∧ Books heap fresh active loads committed bytes := by
  have hn : n = 0 := (hb.load (n, []) (by simp)).1
  refine ⟨hn, hb.nodup, hb.lt, ?_, hb.content, ?_, ?_, hb.fits⟩
  · simpa using hb.kept
  · exact fun l hl => hb.load l (mem_append_left _ hl)
  · simpa [hn] using hb.total

theorem commit {n bs b} (hb : Books heap fresh active (loads ++ [(n, bs)]) committed bytes)
    (hh : h ∈ active) (hfits : b.Fits) (hlen : bs.length < kMaxObjects) :
    Books (Function.update heap h b) fresh (active.filter (· ≠ h))
      (loads ++ [(n + b.size, bs ++ [h])]) (committed ++ [(h, b)]) (bytes + b.size) := by
  have hnot := hb.active_notMem hh
  have hb' := hb.update hnot hfits
  have hactive : active.Nodup := (nodup_append.1 hb.nodup).1
  have hperm : (active.filter (· ≠ h) ++ (committed ++ [(h, b)]).map fst).Perm
      (active ++ committed.map fst) := by
    rw [map_append, map_singleton, ← append_assoc]
    have herase : active.filter (· ≠ h) = active.erase h := by
      rw [hactive.erase_eq_filter]
      refine filter_congr fun h' _ => ?_
      rw [Bool.eq_iff_iff]
      simp
    rw [herase]
    refine (perm_append_singleton _ _).trans ?_
    rw [← cons_append]
    exact (perm_cons_erase hh).symm.append_right _
  refine ⟨hperm.nodup_iff.2 hb.nodup, fun h' hh' => hb.lt h' (hperm.mem_iff.1 hh'), ?_, ?_, ?_, ?_,
    hb'.fits⟩
  · have := hb.kept
    simp only [flatMap_append, flatMap_singleton, map_append, map_singleton,
      ← append_assoc] at this ⊢
    rw [this]
  · intro c hc
    rcases mem_append.1 hc with hc | hc
    · exact hb'.content c hc
    · rw [mem_singleton.1 hc]
      exact update_self ..
  · intro l hl
    rcases mem_append.1 hl with hl | hl
    · exact hb'.load l (mem_append_left _ hl)
    rw [mem_singleton.1 hl]
    have hlast := (hb'.load (n, bs) (by simp)).1
    refine ⟨?_, by simpa using succ_le_of_lt hlen⟩
    rw [map_append, sum_append_nat, map_singleton, sum_singleton, update_self]
    exact congrArg (· + b.size) hlast
  · rw [hb.total]
    simp [add_assoc]

end Books

namespace Session

/-! ## Invariant -/

/-- The current pack, unless it is already among the dispatched ones. -/
def ownPack (s : Session) : List ObjectPack :=
  match s.stage with
  | .recording _ _ => []
  | _ => s.currentPack.toList

def loads (s : Session) : List (Nat × List Nat) :=
  s.dispatched.map (·.pack.load) ++ s.ownPack.map ObjectPack.load

/-- Bytes counted as dispatched before the job is in the queue. -/
def pendingBytes (s : Session) : Nat :=
  match s.stage, s.currentPack with
  | .dispatching _, some q => q.size
  | _, _ => 0

def isRecording (s : Session) : Nat :=
  match s.stage with
  | .recording _ _ => 1
  | _ => 0

/-- What arrives of buckets: the entries for them, and the objects as far as they are sent. -/
def arrived (bs : List Bucket) : List Item × Bytes :=
  (bs.map Bucket.item, bs.flatMap fun b => sentPart b.content)

/-- The way of the dispatched packs. -/
structure Line (s : Session) : Prop where
  closed : ∀ j ∈ s.dispatched, j.pack.openBuckets = ∅
  numbered : s.dispatched.map UploadJob.result = range s.dispatched.length
  jobs : s.uploaded.map fst ++ s.worker.toList ++ s.uploadJobs = s.dispatched
  results : ∀ r < s.dispatched.length, r ∈ s.uploadResults ∨
    r ∈ s.uploaded.map (·.1.result) ∨ ∃ a, s.stage = .recording a r
  short : s.uploadResults.length + s.isRecording ≤ s.dispatched.length
  objects : ∀ u ∈ s.uploaded, u.2 = arrived (s.objects u.1.pack)
  bytes : s.bytesDispatched = (s.dispatched.map (·.pack.size)).sum + s.pendingBytes

/-- The open buckets are owned by the current pack. -/
structure Owned (current : Option ObjectPack) (active : List Nat) : Prop where
  some : ∀ q, current = some q → q.openBuckets = active.toFinset
  none : current = none → active = []

/-- The new pack of a commit owns the open buckets and has space for the one at hand. -/
structure Replaced (heap : Nat → Bucket) (active : List Nat) (c : Commit)
    (newPack : ObjectPack) : Prop where
  mem : c.handle ∈ active
  opened : newPack.openBuckets = active.toFinset
  empty : newPack.load = (0, [])
  space : (heap c.handle).size ≤ newPack.limit

def Pending (heap : Nat → Bucket) (active : List Nat) : After → Prop
  | .retry c newPack => Replaced heap active c newPack
  | .finalize _ => active = []

/-- Nothing is left for a pack. -/
structure Drained (current : Option ObjectPack) (active : List Nat) : Prop where
  active : active = []
  current : ∀ q, current = some q → q.buckets = []

def Phase (s : Session) : Prop :=
  match s.stage with
  | .free => Owned s.currentPack s.activeHandles ∧ s.commitSent = false
  | .committing c again => Owned s.currentPack s.activeHandles ∧
    c.handle ∈ s.activeHandles ∧ s.commitSent = false ∧
    (again = true → ∃ q, s.currentPack = some q ∧ ¬q.full (s.heap c.handle).size)
  | .dispatching a => (∃ q, s.currentPack = some q ∧ q.openBuckets = ∅) ∧
    Pending s.heap s.activeHandles a ∧ s.commitSent = false
  | .recording a r => Pending s.heap s.activeHandles a ∧ s.commitSent = false ∧
    r + 1 = s.dispatched.length
  | .collecting _ => Drained s.currentPack s.activeHandles ∧ s.commitSent = false
  | .finalized _ => Drained s.currentPack s.activeHandles ∧ s.uploadResults = []

structure Sound (s : Session) : Prop where
  books : Books s.heap s.fresh s.activeHandles s.loads s.committed s.bytesCommitted
  line : s.Line
  phase : s.Phase
  answers : s.answers = s.committed.map fun c => (c.1, true)

theorem sound_init : Sound {} where
  books := ⟨by simp, by simp, rfl, by simp, by simp [loads, ownPack], rfl, fun _ => Bucket.fits_new⟩
  line := ⟨by simp, rfl, rfl, by simp, by simp [isRecording], by simp, rfl⟩
  phase := ⟨⟨by simp, fun _ => rfl⟩, rfl⟩
  answers := rfl

variable {p : Params} {s s' : Session}

theorem Sound.dispatched_committed (h : s.Sound) {j} (hj : j ∈ s.dispatched) {b}
    (hb : b ∈ j.pack.buckets) : b ∈ s.committed.map fst := by
  rw [← h.books.kept]
  refine mem_flatMap.2 ⟨j.pack.load, ?_, hb⟩
  exact mem_append_left _ (mem_map_of_mem (f := fun j => j.pack.load) hj)

theorem Line.uploaded_dispatched (h : s.Line) {u} (hu : u ∈ s.uploaded) : u.1 ∈ s.dispatched := by
  rw [← h.jobs]
  exact mem_append_left _ (mem_append_left _ (mem_map_of_mem hu))

variable {i : Nat}

theorem Sound.contents_update (h : s.Sound) (hi : i ∉ s.committed.map fst) (b : Bucket) {u}
    (hu : u ∈ s.uploaded) : u.2 = arrived (u.1.pack.buckets.map (update s.heap i b)) := by
  rw [h.line.objects u hu]
  refine congrArg arrived (map_congr_left fun h' hh' => ?_)
  rw [update_of_ne]
  rintro rfl
  exact hi (h.dispatched_committed (h.line.uploaded_dispatched hu) hh')

theorem Sound.update (h : s.Sound) {b} (hi : i ∉ s.committed.map fst) (hfits : b.Fits) :
    Books (update s.heap i b) s.fresh s.activeHandles s.loads s.committed
      s.bytesCommitted ∧ Line { s with heap := update s.heap i b } :=
  ⟨h.books.update hi hfits, h.line.closed, h.line.numbered, h.line.jobs, h.line.results,
    h.line.short, fun _ hu => h.contents_update hi b hu, h.line.bytes⟩

/-! ## Steps -/

theorem Sound.owned (h : s.Sound) (hst : s.stage = .free) :
    Owned s.currentPack s.activeHandles ∧ s.commitSent = false := by
  have := h.phase
  rwa [Phase, hst] at this

theorem Sound.fresh_notMem (h : s.Sound) : s.fresh ∉ s.committed.map fst :=
  fun hc => lt_irrefl _ (h.books.lt _ (mem_append_right _ hc))

variable {q : ObjectPack}

theorem loads_of_current (hq : s.currentPack = some q) (hst : ∀ a r, s.stage ≠ .recording a r) :
    s.loads = s.dispatched.map (·.pack.load) ++ [q.load] := by
  unfold loads ownPack
  split
  next a r hrec => exact absurd hrec (hst a r)
  · rw [hq]
    rfl

theorem Sound.newBucket (h : s.Sound) (hst : s.stage = .free) : (s.newBucket p).Sound := by
  obtain ⟨howned, hsent⟩ := h.owned hst
  have hbooks := h.books.new
  have hline := (h.update h.fresh_notMem Bucket.fits_new).2
  have hst' : (s.newBucket p).stage = .free := hst
  refine ⟨?_, ?_, ?_, h.answers⟩
  · rw [loads_of_current rfl (by simp [hst'])]
    cases hq : s.currentPack with
    | none =>
      have hloads : s.loads = s.dispatched.map (·.pack.load) := by
        simp [loads, ownPack, hst, hq]
      rw [hloads] at hbooks
      simpa [Session.newBucket, hq, ObjectPack.newBucket, ObjectPack.load] using hbooks.snoc_empty
    | some q =>
      rw [loads_of_current hq (by simp [hst])] at hbooks
      simpa [Session.newBucket, hq, ObjectPack.newBucket, ObjectPack.load] using hbooks
  · refine ⟨hline.1, hline.2, hline.3, ?_, ?_, hline.6, ?_⟩
    · simpa [Session.newBucket, hst] using hline.4
    · simpa [Session.newBucket, isRecording, hst] using hline.5
    · simpa [Session.newBucket, pendingBytes, hst] using hline.7
  have hopen : (s.currentPack.getD { limit := p.maxPackSize }).openBuckets =
      s.activeHandles.toFinset := by
    cases hq : s.currentPack with
    | none => simp [howned.none hq]
    | some q => exact howned.some q hq
  rw [Phase, hst']
  refine ⟨⟨?_, fun hnone => absurd hnone (by simp [Session.newBucket])⟩, hsent⟩
  intro q hq
  cases hq
  simp only [Session.newBucket, ObjectPack.newBucket, hopen]
  ext x
  simp

theorem Sound.addToBucket (h : s.Sound) (hi : i ∈ s.activeHandles)
    (hfree : (Stage.commits s.stage).map Commit.handle ≠ some i) (buf : Bytes) :
    (s.addToBucket i buf).Sound := by
  obtain ⟨hbooks, hline⟩ := h.update (h.books.active_notMem hi) ((h.books.fits i).add buf)
  refine ⟨hbooks, hline, ?_, h.answers⟩
  have hphase := h.phase
  have hsame : ∀ c : Commit, Stage.commits s.stage = some c →
      (s.addToBucket i buf).heap c.handle = s.heap c.handle := by
    intro c hc
    rw [hc] at hfree
    exact update_of_ne (fun heq => hfree (congrArg some heq)) ..
  unfold Phase at hphase ⊢
  have hstage : (s.addToBucket i buf).stage = s.stage := rfl
  rw [hstage]
  match hst : s.stage with
  | .free | .collecting _ | .finalized _ =>
    rw [hst] at hphase
    obtain ⟨hfst, hsnd⟩ := hphase
    exact ⟨⟨hfst.1, hfst.2⟩, hsnd⟩
  | .committing c again =>
    rw [hst] at hphase
    obtain ⟨howned, hact, hsent, hagain⟩ := hphase
    refine ⟨⟨howned.1, howned.2⟩, hact, hsent, ?_⟩
    rwa [hsame c (by rw [hst]; rfl)]
  | .dispatching (.finalize f) | .recording (.finalize f) _ =>
    rw [hst] at hphase
    exact hphase
  | .dispatching (.retry c newPack) =>
    rw [hst] at hphase
    obtain ⟨hcur, ⟨hact, hopen, hempty, hspace⟩, hsent⟩ := hphase
    refine ⟨hcur, ⟨hact, hopen, hempty, ?_⟩, hsent⟩
    rwa [hsame c (by rw [hst]; rfl)]
  | .recording (.retry c newPack) r =>
    rw [hst] at hphase
    obtain ⟨⟨hact, hopen, hempty, hspace⟩, hsent, hr⟩ := hphase
    refine ⟨⟨hact, hopen, hempty, ?_⟩, hsent, hr⟩
    rwa [hsame c (by rw [hst]; rfl)]

theorem Sound.stage (h : s.Sound) (stage : Stage) (hst : s.stage = .free)
    (hfree : ∀ a, stage ≠ .dispatching a ∧ ∀ r, stage ≠ .recording a r)
    (hphase : Phase { s with stage }) : Sound { s with stage } := by
  have hown : ownPack { s with stage } = s.ownPack := by
    unfold ownPack
    split
    next a r heq => exact absurd heq ((hfree a).2 r)
    · rw [hst]
  have hbytes : pendingBytes { s with stage } = s.pendingBytes := by
    unfold pendingBytes
    split
    next a q heq _ => exact absurd heq (hfree a).1
    · rw [hst]
  have hrec : isRecording { s with stage } = s.isRecording := by
    unfold isRecording
    split
    next a r heq => exact absurd heq ((hfree a).2 r)
    · rw [hst]
  refine ⟨?_, ⟨h.line.1, h.line.2, h.line.3, ?_, ?_, h.line.6, ?_⟩, hphase, h.answers⟩
  · have := h.books
    rwa [loads, ← hown] at this
  · intro r hr
    refine (h.line.results r hr).imp_right fun hc => hc.imp_right fun ⟨a, ha⟩ => ?_
    exact absurd (hst.symm.trans ha) (by simp)
  · rw [hrec]
    exact h.line.short
  · rw [hbytes]
    exact h.line.bytes

variable {c : Commit}

theorem Sound.commitBucket (h : s.Sound) (hst : s.stage = .free) (hc : c.handle ∈ s.activeHandles) :
    Sound { s with stage := .committing c false } := by
  obtain ⟨howned, hsent⟩ := h.owned hst
  exact h.stage (.committing c false) hst (by simp)
    ⟨howned, hc, hsent, fun hno => absurd hno (by decide)⟩

theorem size_le_newSize {b} (h : b.Fits) : b.size ≤ newSize p b := by
  have := h.holds
  unfold newSize
  split <;> omega

theorem not_full_of_empty {n} (hempty : q.load = (0, [])) (hn : n ≤ q.limit) : ¬q.full n := by
  obtain ⟨hsize, hbuckets⟩ : q.size = 0 ∧ q.buckets = [] := Prod.mk.inj hempty
  unfold ObjectPack.full
  rw [hsize, hbuckets, length_nil]
  have : 0 < kMaxObjects := by decide
  omega

/-- What a commit does with the current pack. -/
inductive Tried (p : Params) (s : Session) (c : Commit) (q : ObjectPack) : Session → Prop
  | committed (b : Bucket) (hb : b = (s.heap c.handle).label c.type c.id c.suffix c.name)
      (hspace : ¬q.full b.size) :
    Tried p s c q { s with
      heap := update s.heap c.handle b
      currentPack := some (q.commitBucket c.handle b.size)
      activeHandles := s.activeHandles.filter (· ≠ c.handle)
      bytesCommitted := s.bytesCommitted + b.size
      stage := .free
      committed := s.committed ++ [(c.handle, b)]
      answers := s.answers ++ [(c.handle, true)] }
  | replaced (b : Bucket) (hb : b = (s.heap c.handle).label c.type c.id c.suffix c.name)
      (hfull : q.full b.size) (hnone : q.buckets = []) :
    Tried p s c q { s with
      heap := update s.heap c.handle b
      currentPack := some { limit := newSize p b, openBuckets := s.activeHandles.toFinset }
      stage := .committing c true }
  | dispatched (b : Bucket) (hb : b = (s.heap c.handle).label c.type c.id c.suffix c.name)
      (hfull : q.full b.size) (hsome : q.buckets ≠ []) :
    Tried p s c q { s with
      heap := update s.heap c.handle b
      currentPack := some { q with openBuckets := q.openBuckets \ s.activeHandles.toFinset }
      bytesDispatched := s.bytesDispatched + q.size
      stage := .dispatching (.retry c
        { limit := newSize p b, openBuckets := s.activeHandles.toFinset }) }

theorem tryCommit_tried (hq : s.currentPack = some q) (again : Bool) :
    Tried p s c q (s.tryCommit p c again) := by
  simp only [tryCommit, hq, ObjectPack.transferAll_eq, Finset.empty_union]
  split
  next hfull =>
    split
    next hnone => exact .replaced _ rfl hfull hnone
    next hsome => exact .dispatched _ rfl hfull hsome
  next hspace =>
    have hsize : (q.commitBucket c.handle ((s.heap c.handle).label c.type c.id c.suffix c.name).size).size -
        q.size = ((s.heap c.handle).label c.type c.id c.suffix c.name).size := by
      simp [ObjectPack.commitBucket]
    rw [hsize]
    exact .committed _ rfl hspace

section

variable (h : s.Sound)
include h

theorem Sound.current {again} (hst : s.stage = .committing c again) :
    ∃ q, s.currentPack = some q ∧ q.openBuckets = s.activeHandles.toFinset ∧
      c.handle ∈ s.activeHandles ∧ s.commitSent = false := by
  have hphase := h.phase
  rw [Phase, hst] at hphase
  obtain ⟨howned, hact, hsent, -⟩ := hphase
  cases hq : s.currentPack with
  | none =>
    rw [howned.none hq] at hact
    exact absurd hact not_mem_nil
  | some q => exact ⟨q, rfl, howned.some q hq, hact, hsent⟩

theorem Sound.tryCommit {again} (hst : s.stage = .committing c again) :
    (s.tryCommit p c again).Sound := by
  obtain ⟨q, hq, hopen, hact, hsent⟩ := h.current hst
  have hbooks := h.books
  rw [loads_of_current hq (by simp [hst])] at hbooks
  have htried := tryCommit_tried (p := p) (c := c) hq again
  revert htried
  generalize s.tryCommit p c again = s'
  intro htried
  have hfits : ((s.heap c.handle).label c.type c.id c.suffix c.name).Fits :=
    (h.books.fits c.handle).label ..
  have hline := (h.update (h.books.active_notMem hact) hfits).2
  have hresults : ∀ r < s.dispatched.length, r ∈ s.uploadResults ∨
      r ∈ s.uploaded.map (·.1.result) := by
    intro r hr
    rcases hline.results r hr with hc | hc | ⟨a, ha⟩
    · exact .inl hc
    · exact .inr hc
    · exact absurd (hst.symm.trans ha) (by simp)
  have hshort : s.uploadResults.length ≤ s.dispatched.length :=
    (le_add_right _ _).trans h.line.short
  have hbytes : s.bytesDispatched = (s.dispatched.map (·.pack.size)).sum := by
    have := h.line.bytes
    rwa [pendingBytes, hst, add_zero] at this
  have hshort' : s.uploadResults.length + 0 ≤ s.dispatched.length := hshort
  have hresults' : ∀ {stage : Stage}, ∀ r < s.dispatched.length, r ∈ s.uploadResults ∨
      r ∈ s.uploaded.map (·.1.result) ∨ ∃ a, stage = .recording a r :=
    fun r hr => (hresults r hr).imp_right .inl
  have hspace : (Function.update s.heap c.handle
      ((s.heap c.handle).label c.type c.id c.suffix c.name) c.handle).size ≤
      newSize p ((s.heap c.handle).label c.type c.id c.suffix c.name) := by
    rw [update_self]
    exact size_le_newSize hfits
  cases htried with
  | committed b hb hfree =>
    subst hb
    have hlen : q.buckets.length < kMaxObjects := Nat.lt_of_not_le fun hle => hfree (.inl hle)
    refine ⟨?_, ⟨hline.1, hline.2, hline.3, hresults', hshort', ?_, hbytes⟩, ⟨⟨?_, ?_⟩, hsent⟩, ?_⟩
    · exact hbooks.commit hact hfits hlen
    · exact hline.6
    · intro q' hq'
      cases hq'
      simp only [ObjectPack.commitBucket, hopen]
      ext x
      simp [and_comm]
    · exact fun hnone => absurd hnone (by simp)
    · simp [h.answers]
  | replaced b hb hfull hnone =>
    subst hb
    have hload : q.load = (q.size, []) := by rw [ObjectPack.load, hnone]
    rw [hload] at hbooks
    have hempty := hbooks.of_snoc_empty.2.snoc_empty.update (h.books.active_notMem hact) hfits
    refine ⟨hempty, ⟨hline.1, hline.2, hline.3, hresults', hshort', hline.6, hbytes⟩,
      ⟨⟨?_, ?_⟩, hact, hsent, fun _ => ⟨_, rfl, ?_⟩⟩, h.answers⟩
    · intro q' hq'
      cases hq'
      rfl
    · exact fun hnone => absurd hnone (by simp)
    · exact not_full_of_empty rfl hspace
  | dispatched b hb hfull hsome =>
    subst hb
    have hkept := hbooks.update (h.books.active_notMem hact) hfits
    refine ⟨hkept, ⟨hline.1, hline.2, hline.3, hresults', hshort', hline.6, ?_⟩,
      ⟨⟨_, rfl, ?_⟩, ⟨hact, rfl, rfl, ?_⟩, hsent⟩, h.answers⟩
    · simp only [pendingBytes]
      rw [hbytes]
    · simp [hopen]
    · exact hspace

/-! ## Dispatching -/

theorem Sound.pushJob {a} (hst : s.stage = .dispatching a)
    (hq : s.currentPack = some q) : (s.pushJob q a).Sound := by
  have hphase := h.phase
  rw [Phase, hst] at hphase
  obtain ⟨⟨q', hq', hclosed⟩, hpending, hsent⟩ := hphase
  cases hq.symm.trans hq'
  have hbooks := h.books
  rw [loads_of_current hq (by simp [hst])] at hbooks
  have hline := h.line
  refine ⟨?_, ⟨?_, ?_, ?_, ?_, ?_, hline.6, ?_⟩, ⟨?_, hsent, ?_⟩, h.answers⟩
  · simpa [loads, ownPack, Session.pushJob] using hbooks
  · intro j hj
    rcases mem_append.1 hj with hj | hj
    · exact hline.closed j hj
    · rw [mem_singleton.1 hj]
      exact hclosed
  · simp only [Session.pushJob, map_append, hline.numbered, length_append, map_singleton,
      length_singleton, range_succ]
  · simp only [Session.pushJob]
    rw [← append_assoc, hline.jobs]
  · intro r hr
    simp only [Session.pushJob, length_append, length_singleton] at hr
    rcases Nat.lt_succ_iff_lt_or_eq.1 hr with hr | rfl
    · rcases hline.results r hr with hc | hc | ⟨a', ha'⟩
      · exact .inl hc
      · exact .inr (.inl hc)
      · exact absurd (hst.symm.trans ha') (by simp)
    · exact .inr (.inr ⟨a, rfl⟩)
  · have := hline.short
    simp only [Session.pushJob, isRecording, length_append, length_singleton]
    omega
  · have := hline.bytes
    simp only [pendingBytes, hst, hq] at this
    simp [Session.pushJob, pendingBytes, this]
  · cases a with
    | retry c newPack => exact { hpending with }
    | finalize f => exact hpending
  · simp [Session.pushJob]

theorem Sound.pushResult {a r} (hst : s.stage = .recording a r) : (s.pushResult a r).Sound := by
  have hphase := h.phase
  rw [Phase, hst] at hphase
  obtain ⟨hpending, hsent, hr⟩ := hphase
  have hbooks := h.books
  have hloads : s.loads = s.dispatched.map (·.pack.load) := by simp [loads, ownPack, hst]
  rw [hloads] at hbooks
  have hline := h.line
  have hresults : ∀ r' < s.dispatched.length, r' ∈ s.uploadResults ++ [r] ∨
      r' ∈ s.uploaded.map (·.1.result) := by
    intro r' hr'
    rcases hline.results r' hr' with hc | hc | ⟨a', ha'⟩
    · exact .inl (mem_append_left _ hc)
    · exact .inr hc
    · cases hst.symm.trans ha'
      exact .inl (mem_append_right _ (.head _))
  have hshort : (s.uploadResults ++ [r]).length ≤ s.dispatched.length := by
    simpa [isRecording, hst] using hline.short
  have hbytes : s.bytesDispatched = (s.dispatched.map (·.pack.size)).sum := by
    simpa [pendingBytes, hst] using hline.bytes
  cases a with
  | retry c newPack =>
    refine ⟨?_, ⟨hline.1, hline.2, hline.3, fun r' hr' => (hresults r' hr').imp_right .inl,
      hshort, hline.6, hbytes⟩, ⟨⟨?_, ?_⟩, hpending.mem, hsent, fun _ => ⟨_, rfl, ?_⟩⟩, h.answers⟩
    · have := hbooks.snoc_empty
      rw [← hpending.empty] at this
      exact this
    · intro q hq
      cases hq
      exact hpending.opened
    · exact fun hnone => absurd hnone (by simp [Session.pushResult])
    · exact not_full_of_empty hpending.empty hpending.space
  | finalize f =>
    refine ⟨?_, ⟨hline.1, hline.2, hline.3, fun r' hr' => (hresults r' hr').imp_right .inl,
      hshort, hline.6, hbytes⟩, ⟨⟨hpending, ?_⟩, hsent⟩, h.answers⟩
    · simpa [loads, ownPack, Session.pushResult] using hbooks
    · exact fun q hq => absurd hq (by simp [Session.pushResult])

/-! ## Uploads and the end of a session -/

theorem Sound.takeJob {job jobs} (hworker : s.worker = none)
    (hjobs : s.uploadJobs = job :: jobs) :
    Sound { s with worker := some job, uploadJobs := jobs } := by
  refine ⟨h.books, ⟨h.line.1, h.line.2, ?_, h.line.4, h.line.5, h.line.6, h.line.7⟩, h.phase,
    h.answers⟩
  have := h.line.jobs
  rw [hworker, hjobs] at this
  simpa using this

theorem Sound.doUpload {job} (hworker : s.worker = some job) :
    Sound { s with
      worker := none
      uploaded := s.uploaded ++ [(job, arrived (s.objects job.pack))] } := by
  refine ⟨h.books, ⟨h.line.1, h.line.2, ?_, ?_, h.line.5, ?_, h.line.7⟩, h.phase, h.answers⟩
  · have := h.line.jobs
    rw [hworker] at this
    simpa using this
  · intro r hr
    refine (h.line.results r hr).imp_right fun hc => hc.imp_left fun hc => ?_
    rw [map_append]
    exact mem_append_left _ hc
  intro u hu
  rcases mem_append.1 hu with hu | hu
  · exact h.line.objects u hu
  · rw [mem_singleton.1 hu]
    rfl

theorem Sound.finalize (hst : s.stage = .free) (hact : s.activeHandles = [])
    (f : Finalize) : (s.finalize f).Sound := by
  obtain ⟨howned, hsent⟩ := h.owned hst
  unfold Session.finalize
  split
  next hq =>
    exact h.stage (.collecting f) hst (by simp)
      ⟨⟨hact, fun q hq' => absurd (hq.symm.trans hq') (by simp)⟩, hsent⟩
  next q hq =>
    split
    next hnone =>
      refine h.stage (.collecting f) hst (by simp) ⟨⟨hact, fun q' hq' => ?_⟩, hsent⟩
      cases hq.symm.trans hq'
      exact hnone
    have hbooks := h.books
    rw [loads_of_current hq (by simp [hst])] at hbooks
    have hline := h.line
    refine ⟨?_, ⟨hline.1, hline.2, hline.3, ?_, ?_, hline.6, ?_⟩,
      ⟨⟨q, hq, ?_⟩, hact, hsent⟩, h.answers⟩
    · simpa [loads, ownPack, hq] using hbooks
    · simpa [hst] using hline.4
    · simpa [isRecording, hst] using hline.5
    · have := hline.bytes
      simp only [pendingBytes, hst] at this
      simp [pendingBytes, hq, this]
    · rw [howned.some q hq, hact]
      rfl

theorem Sound.collect {f r results} (hst : s.stage = .collecting f)
    (hresults : s.uploadResults = r :: results) (hset : r ∈ s.uploaded.map (·.1.result)) :
    Sound { s with uploadResults := results } := by
  have hphase := h.phase
  rw [Phase, hst] at hphase
  refine ⟨h.books, ⟨h.line.1, h.line.2, h.line.3, ?_, ?_, h.line.6, h.line.7⟩, ?_, h.answers⟩
  · intro r' hr'
    have := h.line.results r' hr'
    rw [hresults, mem_cons] at this
    rcases this with (rfl | hc) | hc | hc
    · exact .inr (.inl hset)
    · exact .inl hc
    · exact .inr (.inl hc)
    · exact .inr (.inr hc)
  · have := h.line.short
    rw [hresults, length_cons] at this
    simp only [isRecording, hst] at this ⊢
    omega
  · rw [show ({ s with uploadResults := results } : Session).stage = .collecting f from hst]
    exact ⟨⟨hphase.1.1, hphase.1.2⟩, hphase.2⟩

theorem Sound.concluded {f} (hst : s.stage = .collecting f)
    (hresults : s.uploadResults = []) (r sent : Bool) :
    Sound { s with stage := .finalized r, commitSent := sent } := by
  have hphase := h.phase
  rw [Phase, hst] at hphase
  refine ⟨?_, ⟨h.line.1, h.line.2, h.line.3, ?_, ?_, h.line.6, ?_⟩,
    ⟨⟨hphase.1.1, hphase.1.2⟩, hresults⟩, h.answers⟩
  · simpa [loads, ownPack, hst] using h.books
  · simpa [hst] using h.line.4
  · simpa [isRecording, hst] using h.line.5
  · simpa [pendingBytes, hst] using h.line.7

end

theorem conclude_eq (s : Session) (f : Finalize) (ok : Bool) :
    ∃ r sent, s.conclude f ok = { s with stage := .finalized r, commitSent := sent } := by
  simp only [conclude]
  split
  · split
    · exact ⟨false, s.commitSent, rfl⟩
    · exact ⟨_, true, rfl⟩
  · exact ⟨_, s.commitSent, rfl⟩

/-- What a step can do, and when. -/
inductive Move (p : Params) (s : Session) : Event → Session → Prop
  | newBucket (hst : s.stage = .free) : Move p s .newBucket (s.newBucket p)
  | addToBucket {i : Nat} {buf} (hi : i ∈ s.activeHandles)
      (hfree : (Stage.commits s.stage).map Commit.handle ≠ some i) :
    Move p s (.addToBucket i buf) (s.addToBucket i buf)
  | commitBucket {c : Commit} (hst : s.stage = .free) (hc : c.handle ∈ s.activeHandles) :
    Move p s (.commitBucket c) { s with stage := .committing c false }
  | tryCommit {c : Commit} {again} (hst : s.stage = .committing c again) :
    Move p s .proceed (s.tryCommit p c again)
  | pushJob {a} {q : ObjectPack} (hst : s.stage = .dispatching a) (hq : s.currentPack = some q) :
    Move p s .proceed (s.pushJob q a)
  | pushResult {a r} (hst : s.stage = .recording a r) (hroom : s.uploadResults.length ≠ kMaxNumJobs) :
    Move p s .proceed (s.pushResult a r)
  | takeJob {job jobs} (hworker : s.worker = none) (hjobs : s.uploadJobs = job :: jobs) :
    Move p s .takeJob { s with worker := some job, uploadJobs := jobs }
  | doUpload {job rooms} (hworker : s.worker = some job) :
    Move p s (.doUpload true rooms) { s with
      worker := none
      uploaded := s.uploaded ++ [(job, arrived (s.objects job.pack))] }
  | panic {rooms} : Move p s (.doUpload false rooms) { s with panicked := true }
  | finalize {f} (hst : s.stage = .free) (hact : s.activeHandles = []) :
    Move p s (.finalize f) (s.finalize f)
  | collect {f r results} (hst : s.stage = .collecting f) (hresults : s.uploadResults = r :: results)
      (hset : r ∈ s.uploaded.map (·.1.result)) :
    Move p s .collect { s with uploadResults := results }
  | conclude {f ok} (hst : s.stage = .collecting f) (hresults : s.uploadResults = [])
      (r sent : Bool) :
    Move p s (.conclude ok) { s with stage := .finalized r, commitSent := sent }

theorem move_of_proceed (hs : s.proceed p = some s') : Move p s .proceed s' := by
  unfold Session.proceed at hs
  split at hs
  next c again hst =>
    cases hs
    exact .tryCommit hst
  next a hst =>
    split at hs
    · cases hs
    next q hq =>
      split at hs
      · cases hs
      · cases hs
        exact .pushJob hst hq
  next a r hst =>
    obtain ⟨hroom, ⟨⟩⟩ := ite_none_left_eq_some.1 hs
    exact .pushResult hst hroom
  · cases hs

theorem move_of_step {e} (hs : s.step p e = some s') : Move p s e s' := by
  cases e <;> simp only [Session.step, ite_none_left_eq_some, not_or, not_not] at hs
  case newBucket =>
    obtain ⟨⟨-, hst⟩, ⟨⟩⟩ := hs
    exact .newBucket hst
  case addToBucket i buf =>
    obtain ⟨⟨-, hi, hfree⟩, ⟨⟩⟩ := hs
    exact .addToBucket hi hfree
  case commitBucket c =>
    obtain ⟨⟨-, hst, hc⟩, ⟨⟩⟩ := hs
    exact .commitBucket hst hc
  case proceed => exact move_of_proceed hs.2
  case takeJob =>
    split at hs
    next job jobs hworker hjobs =>
      obtain ⟨-, ⟨⟩⟩ := ite_none_left_eq_some.1 hs
      exact .takeJob hworker hjobs
    · cases hs
  case doUpload ok rooms =>
    split at hs
    · cases hs
    next job hworker =>
      obtain ⟨-, hs⟩ := ite_none_left_eq_some.1 hs
      cases ok with
      | true =>
        obtain ⟨hall, ⟨⟩⟩ := ite_none_right_eq_some.1 hs
        rw [produce_complete hall, flatMap_map]
        exact .doUpload hworker
      | false =>
        cases hs
        exact .panic
  case finalize f =>
    obtain ⟨⟨-, hst, hact⟩, ⟨⟩⟩ := hs
    exact .finalize hst hact
  case collect =>
    split at hs
    next f r results hst hresults =>
      simp only [ite_none_left_eq_some, not_or, not_not] at hs
      obtain ⟨⟨-, hset⟩, ⟨⟩⟩ := hs
      exact .collect hst hresults hset
    · cases hs
  case conclude ok =>
    split at hs
    next f hst =>
      simp only [ite_none_left_eq_some, not_or, not_not] at hs
      obtain ⟨⟨-, hresults⟩, ⟨⟩⟩ := hs
      obtain ⟨r, sent, hconc⟩ := conclude_eq s f ok
      rw [hconc]
      exact .conclude hst hresults r sent
    · cases hs

theorem Sound.step (h : s.Sound) {e} (hs : s.step p e = some s') : s'.Sound := by
  cases move_of_step hs with
  | newBucket hst => exact h.newBucket hst
  | addToBucket hi hfree => exact h.addToBucket hi hfree _
  | commitBucket hst hc => exact h.commitBucket hst hc
  | tryCommit hst => exact h.tryCommit hst
  | pushJob hst hq => exact h.pushJob hst hq
  | pushResult hst => exact h.pushResult hst
  | takeJob hworker hjobs => exact h.takeJob hworker hjobs
  | doUpload hworker => exact h.doUpload hworker
  | panic =>
    exact ⟨h.books, ⟨h.line.1, h.line.2, h.line.3, h.line.4, h.line.5, h.line.6, h.line.7⟩,
      h.phase, h.answers⟩
  | finalize hst hact => exact h.finalize hst hact _
  | collect hst hresults hset => exact h.collect hst hresults hset
  | conclude hst hresults r sent => exact h.concluded hst hresults r sent

theorem sound_of_reach (h : (sessions p).Reach Lib.System.anyStep s) : s.Sound :=
  h.invariant (P := Sound) (fun s (hinit : s = {}) => hinit ▸ sound_init)
    fun _ _ _ hs _ hstep => hs.step hstep

end Session

end Cvmfs.Upload
