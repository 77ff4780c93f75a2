import Cvmfs.Ingestion.Completion
import Mathlib.Algebra.BigOperators.Fin

/-! # Every file is registered once

A file is due when it is fully chunked and none of its chunks is in fly. Before that no
callback gets as far as dispatching it, because the chunks that are still to be stopped or
to be registered are counted. The registration that makes it due finds no other callback
behind its own registration in a careful run, so that one callback is left to dispatch the
file, and nobody is left to use it. -/

namespace Cvmfs.Ingestion.Completion

open Lib Function List FileState State Option ChunkName Nat

/-! ## The actions of the chunking stage -/

variable (l l' : List ChunkAction)

theorem createsOf_append : createsOf (l ++ l') = createsOf l ++ createsOf l' := filterMap_append

theorem stopsOf_append : stopsOf (l ++ l') = stopsOf l ++ stopsOf l' :=
  filterMap_append

@[simp] theorem createsOf_stops (l : List ChunkName) : createsOf (l.map .stop) = [] := by
  simp [createsOf]

@[simp] theorem stopsOf_stops (l : List ChunkName) : stopsOf (l.map .stop) = l := by
  simp [stopsOf, filterMap_map]

def cutActions (cuts : Nat) : List ChunkAction :=
  (range cuts).flatMap fun i => [.stop (.piece i), .create (.piece (i + 1))]

theorem createsOf_cutActions (cuts : Nat) :
    piece 0 :: createsOf (cutActions cuts) = (range (cuts + 1)).map .piece := by
  induction cuts with
  | zero => rfl
  | succ cuts ih =>
    rw [range_succ, map_append, ← ih, cutActions, range_succ, flatMap_append, createsOf_append]
    rfl

theorem stopsOf_cutActions (cuts : Nat) : stopsOf (cutActions cuts) = (range cuts).map .piece := by
  induction cuts with
  | zero => rfl
  | succ cuts ih =>
    rw [range_succ, map_append, ← ih, cutActions, range_succ, flatMap_append, stopsOf_append]
    rfl

variable (l : Layout)

theorem Layout.creates_perm : (createsOf l.actions).Perm (stopsOf l.actions) := by
  obtain ⟨may, legacy, cuts⟩ := l
  cases may with
  | false => exact .refl _
  | true =>
    have hstops : stopsOf (cutActions cuts) ++ [.piece cuts] =
        .piece 0 :: createsOf (cutActions cuts) := by
      rw [createsOf_cutActions, stopsOf_cutActions, range_succ, map_append]
      rfl
    cases legacy with
    | false =>
      show (createsOf ((.create (.piece 0) :: cutActions cuts) ++ _)).Perm
        (stopsOf ((.create (.piece 0) :: cutActions cuts) ++ _))
      rw [createsOf_append, stopsOf_append]
      show (piece 0 :: createsOf (cutActions cuts) ++ []).Perm
        (stopsOf (cutActions cuts) ++ [piece cuts])
      rw [hstops, append_nil]
    | true =>
      show (createsOf ((.create (.piece 0) :: .create .bulk :: cutActions cuts) ++ _)).Perm
        (stopsOf ((.create (.piece 0) :: .create .bulk :: cutActions cuts) ++ _))
      rw [createsOf_append, stopsOf_append]
      show (piece 0 :: bulk :: createsOf (cutActions cuts) ++ []).Perm
        (stopsOf (cutActions cuts) ++ ([piece cuts] ++ [bulk]))
      rw [← append_assoc, hstops, append_nil]
      exact (Perm.swap _ _ _).trans (perm_append_singleton _ _).symm

/-- The file is not fully chunked yet, and will be before its last chunk is stopped. -/
inductive Unfinished : List ChunkAction → Prop
  | create (c : ChunkName) {rest : List ChunkAction} : Unfinished rest → Unfinished (.create c :: rest)
  | stop (c : ChunkName) {rest : List ChunkAction} : Unfinished rest → Unfinished (.stop c :: rest)
  | last {ending : List ChunkName} : ending ≠ [] →
    Unfinished (.setIsFullyChunked :: ending.map .stop)

theorem Unfinished.append {creating rest} (h : .setIsFullyChunked ∉ creating)
    (hrest : Unfinished rest) : Unfinished (creating ++ rest) := by
  induction creating with
  | nil => exact hrest
  | cons a creating ih =>
    rw [mem_cons, not_or] at h
    cases a with
    | create c => exact .create c (ih h.2)
    | stop c => exact .stop c (ih h.2)
    | setIsFullyChunked => exact absurd rfl h.1

theorem Layout.ending_ne_nil : l.ending ≠ [] := by
  unfold ending
  split
  · exact cons_ne_nil _ _
  · exact cons_ne_nil _ _

theorem Layout.unfinished : Unfinished l.actions := by
  refine .append ?_ (.last l.ending_ne_nil)
  unfold creating
  split
  · split <;> simp
  · simp

/-! ## The invariant of a file -/

section

variable {File : Type} [DecidableEq File] {n : Nat} {layout : File → Layout}
  {s s' : State File n} {f : File}

/-- Fully chunked with no chunk in fly: `IsProcessed` would return true. -/
def FileState.Due (x : FileState) : Prop := x.isFullyChunked = true ∧ x.nchunksInFly = 0

structure FileState.Counted (l : Layout) (x : FileState) : Prop where
  names : (stopsOf x.todo ++ x.inPipeline ++ x.registered).Perm (stopsOf l.actions)
  inFly : x.nchunksInFly + (createsOf x.todo).length = (stopsOf x.todo).length + x.inPipeline.length
  chunking : x.isFullyChunked = false → Unfinished x.todo
  chunked : x.isFullyChunked = true → ∃ ending : List ChunkName, x.todo = ending.map .stop

structure Sound (layout : File → Layout) (s : State File n) (f : File) : Prop where
  counted : (s.file f).Counted (layout f)
  unused : (s.file f).usedAfter = false
  seen : ∀ t, s.task t = some (f, .loadNchunksInFly) → (s.file f).isFullyChunked = true
  early : ¬(s.file f).Due → (s.file f).dispatched = 0 ∧ ∀ t, s.task t ≠ some (f, .dispatchAny)
  late : (s.file f).Due →
    ((s.file f).dispatched = 0 ∧ ∃ t, s.Busy f t ∧ ∀ t', s.Busy f t' → t' = t) ∨
    ((s.file f).dispatched = 1 ∧ ∀ t, ¬s.Busy f t)

namespace FileState

variable {l : Layout} {x : FileState}

theorem Counted.of_due (h : x.Counted l) (hdue : x.Due) :
    x.todo = [] ∧ x.inPipeline = [] ∧ x.registered.Perm (stopsOf l.actions) := by
  obtain ⟨ending, htodo⟩ := h.chunked hdue.1
  have hnames := h.names
  have hfly := h.inFly
  rw [hdue.2, htodo, createsOf_stops, stopsOf_stops] at hfly
  simp only [length_nil, cast_zero, add_zero] at hfly
  have hending : ending = [] := length_eq_zero_iff.1 (by omega)
  have hpipeline : x.inPipeline = [] := length_eq_zero_iff.1 (by omega)
  rw [htodo, hending, hpipeline] at hnames
  exact ⟨by rw [htodo, hending]; rfl, hpipeline, hnames⟩

theorem Counted.not_due (h : x.Counted l) (hne : x.todo ≠ [] ∨ x.inPipeline ≠ []) : ¬x.Due := by
  intro hdue
  obtain ⟨htodo, hpipeline, -⟩ := h.of_due hdue
  exact hne.elim (fun hne => hne htodo) fun hne => hne hpipeline

theorem access_of_fresh (h : x.dispatched = 0) : x.access = x := by
  obtain ⟨_, _, _, _, _, _, _⟩ := x
  cases h
  simp [access]

section

variable (h : x.Counted l) {a rest} (htodo : x.todo = a :: rest)
include h htodo

theorem Counted.stop_of_chunked (hflag : x.isFullyChunked = true) :
    ∃ c, ∃ ending : List ChunkName, a = .stop c ∧ rest = ending.map .stop := by
  obtain ⟨ending, heq⟩ := h.chunked hflag
  rw [htodo] at heq
  cases ending with
  | nil => cases heq
  | cons c ending => exact ⟨c, ending, (cons.inj heq).1, (cons.inj heq).2⟩

theorem Counted.perform :
    ({ x with todo := rest }.perform a).Counted l := by
  have hnames := h.names
  have hfly := h.inFly
  have hchunking := h.chunking
  have hchunked := h.stop_of_chunked htodo
  rw [htodo] at hnames hfly hchunking
  cases a with
  | create c =>
    refine ⟨hnames, ?_, fun hflag => ?_, fun hflag => ?_⟩
    · show x.nchunksInFly + 1 + ((createsOf rest).length : Int) = _
      have hcons : (createsOf (.create c :: rest)).length = (createsOf rest).length + 1 := rfl
      rw [hcons] at hfly
      show _ = ((stopsOf rest).length : Int) + x.inPipeline.length
      have hstops : stopsOf (.create c :: rest) = stopsOf rest := rfl
      rw [hstops] at hfly
      omega
    · cases hchunking hflag with
      | create _ hrest => exact hrest
    · obtain ⟨_, _, heq, -⟩ := hchunked hflag
      cases heq
  | setIsFullyChunked =>
    refine ⟨hnames, hfly, nofun, fun _ => ?_⟩
    cases hflag : x.isFullyChunked with
    | true =>
      obtain ⟨_, _, heq, -⟩ := hchunked hflag
      cases heq
    | false =>
      cases hchunking hflag with
      | last _ => exact ⟨_, rfl⟩
  | stop c =>
    refine ⟨?_, ?_, fun hflag => ?_, fun hflag => ?_⟩
    · refine Perm.trans ?_ hnames
      show (stopsOf rest ++ (x.inPipeline ++ [c]) ++ x.registered).Perm
        (c :: (stopsOf rest ++ x.inPipeline ++ x.registered))
      rw [← append_assoc, append_assoc _ [c]]
      exact perm_middle
    · have hstops : (stopsOf (.stop c :: rest)).length = (stopsOf rest).length + 1 := rfl
      have hcreates : createsOf (.stop c :: rest) = createsOf rest := rfl
      rw [hstops, hcreates] at hfly
      show x.nchunksInFly + ((createsOf rest).length : Int) =
        ((stopsOf rest).length : Int) + ((x.inPipeline ++ [c]).length : Nat)
      rw [length_append, length_singleton]
      omega
    · cases hchunking hflag with
      | stop _ hrest => exact hrest
    · obtain ⟨_, ending, -, heq⟩ := hchunked hflag
      exact ⟨ending, heq⟩

theorem Counted.perform_not_due :
    ¬({ x with todo := rest }.perform a).Due := by
  intro hdue
  obtain ⟨hrest, hpipeline, -⟩ := (h.perform htodo).of_due hdue
  cases a with
  | create c =>
    obtain ⟨_, _, heq, -⟩ := h.stop_of_chunked htodo hdue.1
    cases heq
  | setIsFullyChunked =>
    cases hflag : x.isFullyChunked with
    | true =>
      obtain ⟨_, _, heq, -⟩ := h.stop_of_chunked htodo hflag
      cases heq
    | false =>
      have hunfinished := h.chunking hflag
      rw [htodo] at hunfinished
      cases hunfinished with
      | last hne => exact hne (map_eq_nil_iff.1 hrest)
  | stop c => exact append_ne_nil_of_right_ne_nil _ (cons_ne_nil c []) hpipeline

end

theorem Counted.registerChunk (h : x.Counted l) {c} (hc : c ∈ x.inPipeline) :
    (x.registerChunk c).Counted l := by
  have hperm := perm_cons_erase hc
  refine ⟨?_, ?_, h.chunking, h.chunked⟩
  · have hout : (stopsOf x.todo ++ x.inPipeline.erase c ++ (x.registered ++ [c])).Perm
        (c :: (stopsOf x.todo ++ x.inPipeline.erase c ++ x.registered)) := by
      rw [← append_assoc]
      exact perm_append_singleton _ _
    have hin : (stopsOf x.todo ++ (c :: x.inPipeline.erase c) ++ x.registered).Perm
        (c :: (stopsOf x.todo ++ x.inPipeline.erase c ++ x.registered)) := by
      rw [append_assoc, append_assoc, cons_append]
      exact perm_middle
    have hback := (hperm.symm.append_left (stopsOf x.todo)).append_right x.registered
    exact hout.trans (hin.symm.trans (hback.trans h.names))
  · have hlen := hperm.length_eq
    have hfly := h.inFly
    rw [length_cons] at hlen
    show x.nchunksInFly - 1 + ((createsOf x.todo).length : Int) =
      ((stopsOf x.todo).length : Int) + (x.inPipeline.erase c).length
    omega

end FileState

/-! ## Steps -/

omit [DecidableEq File] in
theorem Sound.congr (h : Sound layout s f) (hfile : s'.file f = s.file f)
    (htask : ∀ t p, s'.task t = some (f, p) ↔ s.task t = some (f, p)) : Sound layout s' f := by
  have hbusy : ∀ t, s'.Busy f t ↔ s.Busy f t := fun t => by
    rw [busy_iff, busy_iff]
    exact exists_congr fun p => htask t p
  refine ⟨?_, ?_, fun t ht => ?_, fun hdue => ?_, fun hdue => ?_⟩
  · rw [hfile]
    exact h.counted
  · rw [hfile]
    exact h.unused
  · rw [hfile]
    exact h.seen t ((htask _ _).1 ht)
  · rw [hfile] at hdue ⊢
    exact ⟨(h.early hdue).1, fun t ht => (h.early hdue).2 t ((htask _ _).1 ht)⟩
  · rw [hfile] at hdue ⊢
    simp only [hbusy]
    exact h.late hdue

variable {t : Fin n}

def Place.left : Place → Nat
  | .loadIsFullyChunked => 3
  | .loadNchunksInFly => 2
  | .dispatchAny => 1

def FileState.left (x : FileState) : Nat := 5 * x.todo.length + 4 * x.inPipeline.length

def left : Option (File × Place) → Nat
  | none => 0
  | some (_, p) => p.left

theorem State.chunk_inv (h : s.chunk f = some s') : ∃ a rest, (s.file f).todo = a :: rest ∧
    s' = s.setFile f ({ (s.file f).access with todo := rest }.perform a) := by
  unfold chunk at h
  split at h
  · cases h
  · exact ⟨_, _, ‹_›, (some.inj h).symm⟩

theorem State.advance_inv (h : s.advance t = some s') : ∃ f p x, ∃ q : Option Place,
    s.task t = some (f, p) ∧ s' = (s.setFile f x).setTask t (q.map fun p => (f, p)) ∧
      x.left = (s.file f).left ∧ Completion.left (q.map fun p => (f, p)) < p.left := by
  unfold advance at h
  split at h
  · cases h
  · rename_i f ht
    cases h
    split
    · exact ⟨f, _, _, some .loadNchunksInFly, ht, rfl, rfl, lt_succ_self 2⟩
    · exact ⟨f, _, _, none, ht, rfl, rfl, succ_pos 2⟩
  · rename_i f ht
    cases h
    split
    · exact ⟨f, _, _, some .dispatchAny, ht, rfl, rfl, lt_succ_self 1⟩
    · exact ⟨f, _, _, none, ht, rfl, rfl, succ_pos 1⟩
  · rename_i f ht
    cases h
    exact ⟨f, _, _, none, ht, rfl, rfl, succ_pos 0⟩

theorem task_setTask {t' : Fin n} {q : Option Place} {x : FileState} {p : Place}
    (h : ((s.setFile f x).setTask t (q.map fun p => (f, p))).task t' = some (f, p)) :
    (t' = t ∧ q = some p) ∨ s.task t' = some (f, p) := by
  by_cases htt : t' = t
  · subst htt
    rw [task_setTask_self] at h
    cases q with
    | none => cases h
    | some p' =>
      cases h
      exact .inl ⟨rfl, rfl⟩
  · rw [task_setTask_of_ne _ htt] at h
    exact .inr h

omit [DecidableEq File] in
theorem Sound.fresh_of_busy (h : Sound layout s f) (ht : s.Busy f t) :
    (s.file f).dispatched = 0 := by
  by_cases hdue : (s.file f).Due
  · rcases h.late hdue with hlate | hlate
    · exact hlate.1
    · exact absurd ht (hlate.2 t)
  · exact (h.early hdue).1

theorem Sound.chunk (h : Sound layout s f) (hstep : s.chunk f = some s') : Sound layout s' f := by
  obtain ⟨a, rest, htodo, rfl⟩ := chunk_inv hstep
  have hnot := h.counted.not_due (.inl (by rw [htodo]; exact cons_ne_nil _ _))
  have hfresh := (h.early hnot).1
  rw [access_of_fresh hfresh]
  refine ⟨?_, ?_, fun t ht => ?_, fun _ => ?_, fun hdue => ?_⟩
  all_goals rw [file_setFile_self] at *
  · exact h.counted.perform htodo
  · cases a <;> exact h.unused
  · have hflag := h.seen t ht
    cases a with
    | setIsFullyChunked => rfl
    | create _ | stop _ => exact hflag
  · refine ⟨?_, (h.early hnot).2⟩
    cases a <;> exact hfresh
  · exact absurd hdue (h.counted.perform_not_due htodo)

variable {c : ChunkName}

section

variable (h : Sound layout s f)
include h

theorem Sound.handle (hstep : s.handle f c = some s') : Sound layout s' f := by
  obtain ⟨hc, ⟨⟩⟩ := ite_none_right_eq_some.1 hstep
  have hnot : ¬(s.file f).Due := by
    refine h.counted.not_due ?_
    rcases hc with hc | ⟨hc, -⟩
    · exact .inr (ne_nil_of_mem hc)
    · refine .inl fun hnil => ?_
      rw [hnil] at hc
      cases hc
  rw [access_of_fresh (h.early hnot).1]
  exact h.congr (file_setFile_self ..) fun _ _ => Iff.rfl

theorem Sound.onChunkComplete (hcareful : Careful s (.onChunkComplete t f c))
    (hstep : s.onChunkComplete t f c = some s') : Sound layout s' f := by
  obtain ⟨hc, ⟨⟩⟩ := ite_none_right_eq_some.1 hstep
  have hnot := h.counted.not_due (.inr (ne_nil_of_mem hc.2))
  have hfresh := (h.early hnot).1
  rw [access_of_fresh hfresh]
  set x := (s.file f).registerChunk c
  have hfile : ((s.setFile f x).setTask t (some (f, .loadIsFullyChunked))).file f = x :=
    file_setFile_self ..
  have htask (t' p) := @task_setTask _ _ n s f t t' (some .loadIsFullyChunked) x p
  refine ⟨?_, ?_, fun t' ht' => ?_, fun _ => ?_, fun hdue => ?_⟩
  all_goals rw [hfile] at *
  · exact h.counted.registerChunk hc.2
  · exact h.unused
  · exact (htask t' _ ht').elim (fun heq => nomatch heq.2) (h.seen t')
  · refine ⟨hfresh, fun t' ht' => ?_⟩
    exact (htask t' _ ht').elim (fun heq => nomatch heq.2) ((h.early hnot).2 t')
  · -- the last chunk: the guard leaves this callback alone with the file
    have hlast : (s.file f).nchunksInFly = 1 := by
      have hzero : (s.file f).nchunksInFly - 1 = 0 := hdue.2
      omega
    have halone := hcareful hdue.1 hlast
    refine .inl ⟨hfresh, t, busy_iff.2 ⟨_, task_setTask_self ..⟩, fun t' hbusy => ?_⟩
    obtain ⟨p, ht'⟩ := busy_iff.1 hbusy
    rcases htask t' p ht' with ⟨heq, -⟩ | ht'
    · exact heq
    · exact absurd (busy_iff.2 ⟨p, ht'⟩) (halone t')

theorem Sound.load (hbusy : s.Busy f t) {q : Option Place}
    (hseen : q = some .loadNchunksInFly → (s.file f).isFullyChunked = true)
    (hdispatch : q = some .dispatchAny → (s.file f).Due) (hend : q = none → ¬(s.file f).Due) :
    Sound layout ((s.setFile f (s.file f).access).setTask t (q.map fun p => (f, p))) f := by
  rw [access_of_fresh (h.fresh_of_busy hbusy)]
  have hfile : ((s.setFile f (s.file f)).setTask t (q.map fun p => (f, p))).file f = s.file f :=
    file_setFile_self ..
  refine ⟨?_, ?_, fun t' ht' => ?_, fun hnot => ?_, fun hdue => ?_⟩
  all_goals rw [hfile] at *
  · exact h.counted
  · exact h.unused
  · exact (task_setTask ht').elim (fun heq => hseen heq.2) (h.seen t')
  · refine ⟨(h.early hnot).1, fun t' ht' => ?_⟩
    exact (task_setTask ht').elim (fun heq => hnot (hdispatch heq.2)) ((h.early hnot).2 t')
  · rcases h.late hdue with ⟨hfresh, t₀, -, hunique⟩ | ⟨-, hnobody⟩
    · obtain rfl := hunique t hbusy
      refine .inl ⟨hfresh, t, ?_, fun t' ht' => ?_⟩
      · cases q with
        | none => exact absurd hdue (hend rfl)
        | some p => exact busy_iff.2 ⟨p, task_setTask_self ..⟩
      · obtain ⟨p, hp⟩ := busy_iff.1 ht'
        exact (task_setTask hp).elim And.left fun hp => hunique t' (busy_iff.2 ⟨p, hp⟩)
    · exact absurd hbusy (hnobody t)

theorem Sound.dispatchAny (ht : s.task t = some (f, .dispatchAny)) :
    Sound layout ((s.setFile f { s.file f with
      dispatched := (s.file f).dispatched + 1 }).setTask t none) f := by
  have hbusy : s.Busy f t := busy_iff.2 ⟨_, ht⟩
  have hdue : (s.file f).Due := by
    by_contra hnot
    exact (h.early hnot).2 t ht
  have hfresh := h.fresh_of_busy hbusy
  rcases h.late hdue with ⟨-, t₀, -, hunique⟩ | ⟨-, hnobody⟩
  · obtain rfl := hunique t hbusy
    set x := { s.file f with dispatched := (s.file f).dispatched + 1 } with hx
    have hfile : ((s.setFile f x).setTask t none).file f = x := file_setFile_self ..
    have hnobody : ∀ t', ¬((s.setFile f x).setTask t none).Busy f t' := by
      intro t' ht'
      obtain ⟨p, hp⟩ := busy_iff.1 ht'
      rcases task_setTask (q := none) hp with ⟨-, heq⟩ | hp'
      · cases heq
      · obtain rfl := hunique t' (busy_iff.2 ⟨p, hp'⟩)
        rw [task_setTask_self] at hp
        cases hp
    refine ⟨?_, ?_, fun t' ht' => ?_, fun hnot => ?_, fun _ => .inr ⟨?_, hnobody⟩⟩
    all_goals rw [hfile] at *
    · exact ⟨h.counted.names, h.counted.inFly, h.counted.chunking, h.counted.chunked⟩
    · exact h.unused
    · exact absurd (busy_iff.2 ⟨_, ht'⟩) (hnobody t')
    · exact absurd hdue hnot
    · rw [hx, hfresh]
  · exact absurd hbusy (hnobody t)

theorem Sound.advance (hbusy : s.Busy f t) (hstep : s.advance t = some s') : Sound layout s' f := by
  obtain ⟨p, ht⟩ := State.busy_iff.1 hbusy
  unfold State.advance at hstep
  rw [ht] at hstep
  cases p with
  | loadIsFullyChunked =>
    cases hstep
    cases hflag : (s.file f).isFullyChunked with
    | true => exact h.load hbusy (q := some .loadNchunksInFly) (fun _ => hflag) nofun nofun
    | false =>
      refine h.load hbusy (q := none) nofun nofun fun _ hdue => ?_
      rw [hdue.1] at hflag
      cases hflag
  | loadNchunksInFly =>
    cases hstep
    have hflag := h.seen t ht
    by_cases hzero : (s.file f).nchunksInFly = 0
    · rw [if_pos hzero]
      exact h.load hbusy (q := some .dispatchAny) nofun (fun _ => ⟨hflag, hzero⟩) nofun
    · rw [if_neg hzero]
      exact h.load hbusy (q := none) nofun nofun fun _ hdue => hzero hdue.2
  | dispatchAny =>
    cases hstep
    exact h.dispatchAny ht

end

def Event.about (s : State File n) : Event File n → Option File
  | .chunk f => some f
  | .handle f _ => some f
  | .onChunkComplete _ f _ => some f
  | .advance t => (s.task t).map Prod.fst

variable {e : Event File n}

/-- A step changes one file, and one task, which is idle or has a callback of that file. -/
theorem step_inv (hstep : step s e = some s') : ∃ g x, e.about s = some g ∧
    (s' = s.setFile g x ∨ ∃ t, ∃ q : Option Place, (∀ g' p, s.task t = some (g', p) → g' = g) ∧
      s' = (s.setFile g x).setTask t (q.map fun p => (g, p))) := by
  cases e with
  | chunk g =>
    obtain ⟨a, rest, -, rfl⟩ := chunk_inv hstep
    exact ⟨g, _, rfl, .inl rfl⟩
  | handle g c =>
    obtain ⟨-, ⟨⟩⟩ := ite_none_right_eq_some.1 hstep
    exact ⟨g, _, rfl, .inl rfl⟩
  | onChunkComplete t g c =>
    obtain ⟨⟨hidle, -⟩, ⟨⟩⟩ := ite_none_right_eq_some.1 hstep
    refine ⟨g, _, rfl, .inr ⟨t, some .loadIsFullyChunked, fun g' p hp => ?_, rfl⟩⟩
    cases hidle.symm.trans hp
  | advance t =>
    obtain ⟨g, p, x, q, ht, rfl, -⟩ := advance_inv hstep
    refine ⟨g, x, congrArg (Option.map Prod.fst) ht, .inr ⟨t, q, fun g' p' hp => ?_, rfl⟩⟩
    cases ht.symm.trans hp
    rfl

theorem step_other (hstep : step s e = some s') (hne : e.about s ≠ some f) :
    s'.file f = s.file f ∧ ∀ t p, s'.task t = some (f, p) ↔ s.task t = some (f, p) := by
  obtain ⟨g, x, habout, hs'⟩ := step_inv hstep
  have hg : g ≠ f := fun heq => hne (heq ▸ habout)
  rcases hs' with rfl | ⟨t, q, ht, rfl⟩
  · exact ⟨file_setFile_of_ne _ hg.symm _, fun _ _ => Iff.rfl⟩
  refine ⟨file_setFile_of_ne _ hg.symm _, fun t' p => ?_⟩
  by_cases htt : t' = t
  · subst htt
    rw [task_setTask_self]
    refine iff_of_false (fun heq => ?_) fun hp => hg (ht f p hp).symm
    cases q with
    | none => cases heq
    | some p' =>
      cases heq
      exact hg rfl
  · rw [task_setTask_of_ne _ htt]
    exact Iff.rfl

theorem Sound.step (h : Sound layout s f) (hcareful : Careful s e) (hstep : step s e = some s') :
    Sound layout s' f := by
  by_cases habout : e.about s = some f
  · cases e with
    | chunk g =>
      cases habout
      exact h.chunk hstep
    | handle g c =>
      cases habout
      exact h.handle hstep
    | onChunkComplete t g c =>
      cases habout
      exact h.onChunkComplete hcareful hstep
    | advance t => exact h.advance habout hstep
  · obtain ⟨hfile, htask⟩ := step_other hstep habout
    exact h.congr hfile htask

omit [DecidableEq File] in
theorem sound_start (f : File) : Sound layout (start (n := n) layout) f := by
  refine ⟨⟨?_, ?_, fun _ => (layout f).unfinished, nofun⟩, rfl, nofun, fun _ => ⟨rfl, nofun⟩,
    fun hdue => nomatch hdue.1⟩
  · show (stopsOf (layout f).actions ++ [] ++ []).Perm _
    rw [append_nil, append_nil]
  · show 0 + ((createsOf (layout f).actions).length : Int) = (stopsOf (layout f).actions).length + 0
    rw [(layout f).creates_perm.length_eq]
    omega

theorem sound_of_reach (h : (system layout n).Reach Careful s) (f : File) : Sound layout s f := by
  refine h.invariant (P := fun s => Sound layout s f) ?_ ?_
  · rintro s rfl
    exact sound_start f
  · intro s e s' hsound hcareful hstep
    exact hsound.step hcareful hstep

/-! ## Work that is left -/

/-- The steps that are left, other than reading file items. -/
def work [Fintype File] (s : State File n) : Nat := ∑ f, (s.file f).left + ∑ t, left (s.task t)

theorem sum_update {ι α : Type} [Fintype ι] [DecidableEq ι] (w : α → Nat) (v : ι → α) (i : ι)
    (x : α) : ∑ j, w (update v i x j) + w (v i) = ∑ j, w (v j) + w x := by
  have hupdate : (fun j => w (update v i x j)) = update (w ∘ v) i (w x) := comp_update w v i x
  rw [hupdate, Finset.sum_update_of_mem (Finset.mem_univ i), Finset.sdiff_singleton_eq_erase,
    ← Finset.add_sum_erase Finset.univ (fun j => w (v j)) (Finset.mem_univ i)]
  simp only [comp_apply]
  omega

theorem work_setFile [Fintype File] (f : File) (x : FileState) :
    work (s.setFile f x) + (s.file f).left = work s + x.left := by
  have := sum_update FileState.left s.file f x
  simp only [work, setFile]
  omega

omit [DecidableEq File] in
theorem work_setTask [Fintype File] (t : Fin n) (p : Option (File × Place)) :
    work (s.setTask t p) + left (s.task t) = work s + left p := by
  have := sum_update left s.task t p
  simp only [work, setTask]
  omega

theorem left_perform {x : FileState} {a : ChunkAction} {rest : List ChunkAction}
    (htodo : x.todo = a :: rest) :
    ({ x.access with todo := rest }.perform a).left < x.left := by
  have hlen : x.todo.length = rest.length + 1 := by rw [htodo, length_cons]
  cases a with
  | create c | setIsFullyChunked =>
    simp only [FileState.perform, FileState.left, FileState.access]; omega
  | stop c =>
    simp only [FileState.perform, FileState.left, FileState.access, length_append, length_singleton]
    omega

theorem work_chunk [Fintype File] (hstep : s.chunk f = some s') : work s' < work s := by
  obtain ⟨a, rest, htodo, rfl⟩ := chunk_inv hstep
  have hwork := work_setFile (s := s) f ({ (s.file f).access with todo := rest }.perform a)
  have hleft := left_perform htodo
  omega

theorem work_onChunkComplete [Fintype File] (hstep : s.onChunkComplete t f c = some s') :
    work s' < work s := by
  obtain ⟨hc, ⟨⟩⟩ := ite_none_right_eq_some.1 hstep
  have hfile := work_setFile (s := s) f ((s.file f).access.registerChunk c)
  have htask := work_setTask (s := s.setFile f ((s.file f).access.registerChunk c)) t
    (some (f, .loadIsFullyChunked))
  have hidle : left (s.task t) = 0 := by rw [hc.1]; rfl
  have hlen := length_erase_of_mem hc.2
  have hpos := length_pos_of_mem hc.2
  have hleft : ((s.file f).access.registerChunk c).left + 4 = (s.file f).left := by
    simp only [FileState.left, FileState.registerChunk, FileState.access, hlen]
    omega
  have hplace : left (some (f, Place.loadIsFullyChunked)) = 3 := rfl
  rw [task_setFile] at htask
  omega

theorem work_advance [Fintype File] (hstep : s.advance t = some s') : work s' < work s := by
  obtain ⟨f, p, x, q, ht, rfl, hx, hq⟩ := advance_inv hstep
  have hfile := work_setFile (s := s) f x
  have htask := work_setTask (s := s.setFile f x) t (q.map fun p => (f, p))
  have hp : left (s.task t) = p.left := by rw [ht]; rfl
  rw [task_setFile] at htask
  omega

theorem work_step [Fintype File] (hstep : step s e = some s') : work s' ≤ work s := by
  cases e with
  | chunk f => exact (work_chunk hstep).le
  | onChunkComplete t f c => exact (work_onChunkComplete hstep).le
  | advance t => exact (work_advance hstep).le
  | handle f c =>
    obtain ⟨-, ⟨⟩⟩ := ite_none_right_eq_some.1 hstep
    have hfile := work_setFile (s := s) f (s.file f).access
    have hleft : (s.file f).access.left = (s.file f).left := rfl
    omega

omit [DecidableEq File] in
theorem Sound.dispatched_of_idle (h : Sound layout s f) (htodo : (s.file f).todo = [])
    (hpipeline : (s.file f).inPipeline = []) (hidle : ∀ t, ¬s.Busy f t) :
    (s.file f).dispatched = 1 := by
  have hflag : (s.file f).isFullyChunked = true := by
    by_contra hflag
    have hunfinished := h.counted.chunking (Bool.eq_false_iff.2 hflag)
    rw [htodo] at hunfinished
    cases hunfinished
  have hfly := h.counted.inFly
  rw [htodo, hpipeline] at hfly
  have hdue : (s.file f).Due := ⟨hflag, by simpa [createsOf, stopsOf] using hfly⟩
  rcases h.late hdue with ⟨-, t, hbusy, -⟩ | ⟨hone, -⟩
  · exact absurd hbusy (hidle t)
  · exact hone

theorem exists_work [Fintype File] (h : Sound layout s f) (hn : 0 < n)
    (hdispatched : (s.file f).dispatched ≠ 1) :
    ∃ e s', Careful s e ∧ step s e = some s' ∧ work s' < work s := by
  by_cases hbusy : ∃ t, s.task t ≠ none
  · obtain ⟨t, ht⟩ := hbusy
    obtain ⟨⟨g, p⟩, hp⟩ := ne_none_iff_exists'.1 ht
    obtain ⟨s', hs'⟩ : ∃ s', s.advance t = some s' := by
      unfold advance
      rw [hp]
      cases p <;> exact ⟨_, rfl⟩
    exact ⟨.advance t, s', trivial, hs', work_advance hs'⟩
  have hnone : ∀ t, s.task t = none := fun t => by
    by_contra ht
    exact hbusy ⟨t, ht⟩
  have hidle : ∀ g t, ¬s.Busy g t := fun g t hg => by
    obtain ⟨p, hp⟩ := busy_iff.1 hg
    rw [hnone t] at hp
    cases hp
  cases htodo : (s.file f).todo with
  | cons a rest =>
    obtain ⟨s', hs'⟩ : ∃ s', s.chunk f = some s' := by
      unfold chunk
      rw [htodo]
      exact ⟨_, rfl⟩
    exact ⟨.chunk f, s', trivial, hs', work_chunk hs'⟩
  | nil =>
    cases hpipeline : (s.file f).inPipeline with
    | cons c rest =>
      have hc : c ∈ (s.file f).inPipeline := by
        rw [hpipeline]
        exact .head _
      obtain ⟨s', hs'⟩ : ∃ s', s.onChunkComplete ⟨0, hn⟩ f c = some s' := by
        unfold onChunkComplete
        rw [if_pos ⟨hnone _, hc⟩]
        exact ⟨_, rfl⟩
      exact ⟨.onChunkComplete ⟨0, hn⟩ f c, s', fun _ _ => hidle f, hs', work_onChunkComplete hs'⟩
    | nil => exact absurd (h.dispatched_of_idle htodo hpipeline (hidle f)) hdispatched

/-! ## Every file is registered once -/

/-- A file is dispatched at most once, only when it is fully chunked and all its chunk items
are registered, and it is not used any more then. -/
structure Once (layout : File → Layout) (s : State File n) (f : File) : Prop where
  atMostOnce : (s.file f).dispatched ≤ 1
  complete : ((s.file f).dispatched ≠ 0 ∨ ∃ t, s.task t = some (f, .dispatchAny)) →
    (s.file f).isFullyChunked = true ∧ (s.file f).registered.Perm (createsOf (layout f).actions)
  unused : (s.file f).usedAfter = false

omit [DecidableEq File] in
theorem Sound.once (h : Sound layout s f) : Once layout s f := by
  refine ⟨?_, fun hdispatch => ?_, h.unused⟩
  · by_cases hdue : (s.file f).Due
    · rcases h.late hdue with ⟨hzero, -⟩ | ⟨hone, -⟩
      · omega
      · exact hone.le
    · rw [(h.early hdue).1]
      exact zero_le 1
  · have hdue : (s.file f).Due := by
      by_contra hnot
      obtain ⟨hzero, hnobody⟩ := h.early hnot
      exact hdispatch.elim (fun hne => hne hzero) fun ⟨t, ht⟩ => hnobody t ht
    obtain ⟨-, -, hregistered⟩ := h.counted.of_due hdue
    exact ⟨hdue.1, hregistered.trans (layout f).creates_perm.symm⟩

/-- In every careful run, every file is dispatched at most once and only when complete, and
is not used afterwards. The run goes on until all files are dispatched: as long as one is
not, there is a careful step that lessens the work, which no step increases. -/
theorem registered_once [Fintype File] (hn : 0 < n) (h : (system layout n).Reach Careful s) :
    (∀ f, Once layout s f) ∧ ((∀ f, (s.file f).dispatched = 1) ∨
        ∃ e s', Careful s e ∧ step s e = some s' ∧ work s' < work s) ∧
      ∀ e s', step s e = some s' → work s' ≤ work s := by
  refine ⟨fun f => (sound_of_reach h f).once, ?_, fun _ _ hstep => work_step hstep⟩
  by_cases hall : ∀ f, (s.file f).dispatched = 1
  · exact .inl hall
  · obtain ⟨f, hf⟩ := not_forall.1 hall
    exact .inr (exists_work (sound_of_reach h f) hn hf)

theorem careful_of_single {s : State File 1} {e : Event File 1} {s' : State File 1}
    (hstep : step s e = some s') : Careful s e := by
  cases e with
  | onChunkComplete t f c =>
    obtain ⟨hc, -⟩ := ite_none_right_eq_some.1 hstep
    intro _ _ t' hbusy
    obtain ⟨p, hp⟩ := busy_iff.1 hbusy
    rw [Subsingleton.elim t' t, hc.1] at hp
    cases hp
  | chunk f | handle f c | advance t => trivial

theorem reach_careful_of_single {s : State File 1} (h : (system layout 1).Reach System.anyStep s) :
    (system layout 1).Reach Careful s := by
  induction h with
  | init hinit => exact .init hinit
  | step _ _ hstep ih => exact ih.step (careful_of_single hstep) hstep

/-- **With a single upload task** every run registers every file once, and a file without work
and callbacks is dispatched. -/
theorem once_of_single {s : State File 1} (h : (system layout 1).Reach System.anyStep s) (f) :
    Once layout s f ∧ ((s.file f).todo = [] → (s.file f).inPipeline = [] → (∀ t, ¬s.Busy f t) →
      (s.file f).dispatched = 1) := by
  have hsound := sound_of_reach (reach_careful_of_single h) f
  exact ⟨hsound.once, hsound.dispatched_of_idle⟩

def inTurn (t : Fin 1) : List (Event Unit 1) :=
  replicate 5 (.chunk ()) ++ [.onChunkComplete t () (.piece 0), .advance t, .advance t,
    .onChunkComplete t () (.piece 1), .advance t, .advance t, .advance t]

theorem once_of_single_inTurn :
    ∃ s : State Unit 1, Once (fun _ => ⟨true, false, 1⟩) s () ∧ (s.file ()).dispatched = 1 := by
  have hrun : ((inTurn 0).foldlM step (start fun _ => ⟨true, false, 1⟩)).map (fun s =>
      ((s.file ()).todo, (s.file ()).inPipeline, s.task 0)) = some ([], [], none) := by decide
  obtain ⟨s, hs, hidle⟩ := map_eq_some_iff.1 hrun
  simp only [Prod.mk.injEq] at hidle
  obtain ⟨honce, hdone⟩ := once_of_single (.follow (fun _ _ _ h => h) (.init rfl) hs) ()
  exact ⟨s, honce, hdone hidle.1 hidle.2.1 (by simp [Busy, hidle])⟩

end

/-! ## Runs -/

section

variable {File : Type} [DecidableEq File] {n : Nat}

/-- A careful step, computed. -/
def carefully (s : State File n) (e : Event File n) : Option (State File n) :=
  if Careful s e then step s e else none

theorem careful_of_carefully {layout : File → Layout} {s s' : State File n} {e : Event File n}
    (h : carefully s e = some s') : Careful s e ∧ (system layout n).step s e s' :=
  ite_none_right_eq_some.1 h

end

def twoPieces : Unit → Layout := fun _ => ⟨true, false, 1⟩

/-- The chunking stage is done with the file, both pieces are in the pipeline. -/
def chunked : List (Event Unit 2) := replicate 5 (.chunk ())

def upload (t : Fin 2) (i : Nat) : Event Unit 2 := .onChunkComplete t () (.piece i)

theorem registered_once_twoPieces :
    ∃ s, (system twoPieces 2).Reach Careful s ∧ (s.file ()).dispatched = 1 ∧
      Once twoPieces s () := by
  have hrun : ((chunked ++ [upload 0 0, .advance 0, .advance 0, upload 1 1, .advance 1, .advance 1,
      .advance 1]).foldlM carefully (start twoPieces)).map (fun s => (s.file ()).dispatched) =
      some 1 := by decide
  obtain ⟨s, hs, hone⟩ := map_eq_some_iff.1 hrun
  have hreach : (system twoPieces 2).Reach Careful s :=
    System.Reach.followIf (S := system twoPieces 2) (fun _ _ _ h => careful_of_carefully h)
      (.init rfl) hs
  exact ⟨s, hreach, hone, (registered_once (by decide) hreach).1 ()⟩

/-- Two upload tasks register the two pieces before either tests whether the file is
processed: both dispatch it, and the second one reads it after it was dispatched. -/
theorem dispatched_twice :
    ∃ s, (system twoPieces 2).Reach System.anyStep s ∧ (s.file ()).dispatched = 2 ∧
      (s.file ()).usedAfter = true := by
  have hrun : ((chunked ++ [upload 0 0, upload 1 1, .advance 0, .advance 0, .advance 0, .advance 1,
      .advance 1, .advance 1]).foldlM step (start twoPieces)).map
      (fun s => ((s.file ()).dispatched, (s.file ()).usedAfter)) = some (2, true) := by decide
  obtain ⟨s, hs, hvalues⟩ := map_eq_some_iff.1 hrun
  refine ⟨s, ?_, congrArg Prod.fst hvalues, congrArg Prod.snd hvalues⟩
  exact System.Reach.follow (S := system twoPieces 2) (fun _ _ _ h => h) (.init rfl) hs

end Cvmfs.Ingestion.Completion
