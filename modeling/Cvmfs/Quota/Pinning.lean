import Cvmfs.Quota.Gauge

/-! # No abort, and pinned files stay

A clean-up before an insert can fail only if the rows it must not touch are larger
than the threshold. These are the rows of pinned chunks, which fit as long as the
limit is not lowered below twice the pinned size, and blocked rows that an earlier
clean-up left behind. -/

namespace Cvmfs.Quota

open Lib Table

namespace State

variable {sizeOf : Hash → Nat} {s s' : State} {cmds : List Command}

/-- The reservations fit below the threshold and cover what is blocked or held, and
no file that is held is to be unlinked. -/
structure Protected (s : State) : Prop where
  threshold : s.pinned ≤ s.cleanupThreshold
  blocked : ∀ {h e}, s.cacheCatalog.find? h = some e → e.flag = .blocked →
    s.pinnedChunks.contains h = true
  held : ∀ {h}, h ∈ s.held → s.pinnedChunks.contains h = true
  kept : ∀ {h}, h ∈ s.trash → h ∉ s.held

/-! ## Commands -/

theorem Consistent.pinnedRows_le (h : Consistent sizeOf cmds s) : s.pinnedRows ≤ s.pinned := by
  have hrows : s.pinnedRows =
      s.cacheCatalog.sum fun x _ => if s.pinnedChunks.contains x then sizeOf x else 0 :=
    sum_congr fun x e he => by rw [h.rows he]
  have hchunks : s.pinnedTotal = s.pinnedChunks.sum fun x _ => sizeOf x :=
    sum_congr fun x n hn => h.chunks hn
  rw [hrows, h.pinned, hchunks]
  exact sum_le_of_contains

section

variable (h : Protected s)
include h

theorem Protected.doCleanup {isOpen} (hc : Consistent sizeOf cmds s)
    (hopen : ∀ j, s.OpenPinned (isOpen j)) : (s.doCleanup s.cleanupThreshold isOpen).2 = true :=
  (doCleanup_spec hc.gauge hc.total_lt hc.distinct hopen).2 (fun _ _ => h.blocked)
    (hc.pinnedRows_le.trans h.threshold)

theorem Protected.cleanedUp (hc : CleanedUp s s') : Protected s' := by
  have hframe := hc.frame
  have hpin : s'.pinned = s.pinned := by rw [hframe]
  have hthr : s'.cleanupThreshold = s.cleanupThreshold := by rw [hframe]
  have hchunks : s'.pinnedChunks = s.pinnedChunks := by rw [hframe]
  have hheld : s'.held = s.held := by rw [hframe]
  refine ⟨?_, fun {x e'} he' hb => ?_, fun {x} hx => ?_, fun {x} hx => ?_⟩
  · rw [hpin, hthr]
    exact h.threshold
  · rw [hchunks]
    obtain ⟨e, he, -, -, hf | ⟨-, hp | hbe⟩⟩ := hc.rows he'
    · exact h.blocked he (hf.symm.trans hb)
    · exact hp
    · exact h.blocked he hbe
  · rw [hchunks]
    exact h.held (hheld ▸ hx)
  rw [hheld]
  obtain ⟨new, hnew, hmem⟩ := hc.trash
  rw [hnew] at hx
  rcases List.mem_append.mp hx with hx | hx
  · exact h.kept hx
  intro hin
  have hp := h.held hin
  rw [(hmem x hx).1] at hp
  cases hp

variable {x : Hash} {n : Nat}

theorem Protected.insertOrReplace {isVolatile f} (hf : f ≠ .blocked) :
    Protected (s.insertOrReplace x n isVolatile f) := by
  refine { h with blocked := fun {y e} he hb => ?_ }
  rcases of_put he with ⟨-, rfl⟩ | ⟨-, he⟩
  · exact absurd hb hf
  · exact h.blocked he hb

theorem Protected.adjustRow {g seq}
    (hg : ∀ e, (g e).flag = .blocked → e.flag = .blocked) :
    Protected { s with cacheCatalog := s.cacheCatalog.adjust x g, seq := seq } := by
  refine { h with blocked := fun {y e} he hb => ?_ }
  obtain ⟨e₀, he₀, ⟨-, rfl⟩ | ⟨-, rfl⟩⟩ := of_adjust he
  · exact h.blocked he₀ (hg e₀ hb)
  · exact h.blocked he₀ hb

theorem Protected.insertEntry {isVolatile f isOpen}
    (hc : Consistent sizeOf cmds s) (hopen : ∀ j, s.OpenPinned (isOpen j)) (hf : f ≠ .blocked) :
    ∃ s', s.insertEntry x n isVolatile f isOpen = some s' ∧ Protected s' := by
  have hroom : ∃ s₁, s.makeRoom x n isOpen = some s₁ := by
    rw [makeRoom]
    split
    · exact ⟨_, if_pos (h.doCleanup hc hopen)⟩
    · exact ⟨_, rfl⟩
  obtain ⟨s₁, h₁⟩ := hroom
  have hi : s.insertEntry x n isVolatile f isOpen = some (s₁.insertOrReplace x n isVolatile f) := by
    rw [State.insertEntry, h₁]
    rfl
  obtain ⟨s₂, hclean, heq⟩ := insertEntry_cleanedUp hc hopen hi
  refine ⟨_, hi, ?_⟩
  rw [heq]
  exact (h.cleanedUp hclean).insertOrReplace hf

variable {c : Command}

theorem Protected.processCommand {isOpen} (hc : Consistent sizeOf cmds s)
    (hopen : ∀ j, s.OpenPinned (isOpen j)) :
    ∃ s', s.processCommand isOpen c = some s' ∧ Protected s' := by
  cases c with
  | touch x => exact ⟨_, rfl, h.adjustRow fun _ he => he⟩
  | unpin x =>
    refine ⟨_, rfl, h.adjustRow fun _ he => ?_⟩
    cases he
  | insert x n | insertVolatile x n | pin x n | pinRegular x n =>
    exact h.insertEntry hc hopen (by decide)

end

variable {isOpen : Nat → Nat → Hash → Bool}

section

variable (h : Protected s)
include h

theorem Protected.processCommandBunch (hc : Consistent sizeOf cmds s)
    (hsmall : Small cmds) (hopen : s.OpenSafe cmds isOpen) :
    ∃ s', processCommandBunch isOpen cmds s = some s' ∧ Protected s' := by
  induction cmds generalizing s isOpen with
  | nil => exact ⟨s, rfl, h⟩
  | cons c cs ih =>
    have hpin := fun j => hopen.openPinned 0 j
    obtain ⟨s₁, h₁, hp₁⟩ := h.processCommand (c := c) hc hpin
    obtain ⟨hc₁, hproc⟩ := hc.processCommand hsmall hpin h₁
    obtain ⟨s₂, h₂, hp₂⟩ := ih hp₁ hc₁ (fun d hd => hsmall d (.tail _ hd)) (hopen.tail hproc)
    refine ⟨s₂, ?_, hp₂⟩
    rw [State.processCommandBunch, h₁]
    exact h₂

theorem Protected.withBuffer (b : List Command) :
    Protected { s with commandBuffer := b } :=
  { h with }

theorem Protected.flush (hc : Consistent sizeOf s.commandBuffer s)
    (hsmall : Small s.commandBuffer) (hopen : s.OpenSafe s.commandBuffer isOpen) :
    ∃ s', s.flush isOpen = some s' ∧ Protected s' :=
  (h.withBuffer []).processCommandBunch (hc.withBuffer []) hsmall hopen

theorem Protected.enqueue (hq : Queueable sizeOf isOpen s c) :
    ∃ s', s.enqueue c isOpen = some s' ∧ Protected s' := by
  have hb := h.withBuffer (s.commandBuffer ++ [c])
  rw [State.enqueue]
  split
  · exact hb.flush (hq.consistent.withBuffer _) hq.small hq.openSafe
  · exact ⟨_, rfl, hb⟩

/-! ## Events -/

theorem Protected.reserve (hx : x ∉ s.trash) : Protected (s.reserve x n).1 := by
  have hkept : ∀ {y}, y ∈ s.trash → y ∉ x :: s.held := by
    intro y hy hmem
    rcases List.mem_cons.mp hmem with rfl | hmem
    · exact hx hy
    · exact h.kept hy hmem
  rw [State.reserve]
  split
  · rename_i hcon
    refine ⟨h.threshold, h.blocked, fun {y} hy => ?_, hkept⟩
    rcases List.mem_cons.mp hy with rfl | hy
    · exact hcon
    · exact h.held hy
  split
  · exact h
  rename_i hle
  have hmono : ∀ {y}, y = x ∨ s.pinnedChunks.contains y = true →
      (s.pinnedChunks.put x n).contains y = true := by
    intro y hy
    rw [contains, find?_put]
    split
    · rfl
    · exact hy.resolve_left ‹_›
  refine ⟨Nat.le_of_not_lt hle, fun he hb => hmono (.inr (h.blocked he hb)),
    fun {y} hy => hmono ?_, hkept⟩
  exact (List.mem_cons.mp hy).imp_right h.held

theorem Protected.unreserve (hrow : s.rowFlag x ≠ .blocked) (hheld : x ∉ s.held)
    (hpin : n ≤ s.pinned) (hlt : s.pinned < 2 ^ 64) :
    Protected { s with pinned := sub64 s.pinned n, pinnedChunks := s.pinnedChunks.erase x } := by
  have hmono : ∀ {y}, y ≠ x → s.pinnedChunks.contains y = true →
      (s.pinnedChunks.erase x).contains y = true := by
    intro y hyx hy
    rw [contains, find?_erase, if_neg hyx]
    exact hy
  refine ⟨?_, fun {y e} he hb => ?_, fun {y} hy => ?_, h.kept⟩
  · change sub64 s.pinned n ≤ s.cleanupThreshold
    rw [sub64_of_le hlt hpin]
    exact (Nat.sub_le _ _).trans h.threshold
  · refine hmono ?_ (h.blocked he hb)
    rintro rfl
    apply hrow
    rw [rowFlag, he]
    exact hb
  · refine hmono ?_ (h.held hy)
    rintro rfl
    exact hheld hy

end

theorem Protected.eraseRow {g} (h : Protected s) :
    Protected { s with cacheCatalog := s.cacheCatalog.erase x, gauge := g } :=
  { h with blocked := fun he hb => h.blocked (of_erase he).2 hb }

theorem not_mem_release (held : List Hash) (x : Hash) :
    x ∉ held.filter fun y => decide (y ≠ x) := by
  simp

theorem Protected.release (h : Protected s) (x : Hash) :
    Protected { s with held := s.held.filter fun y => decide (y ≠ x) } :=
  ⟨h.threshold, h.blocked, fun hy => h.held (List.mem_of_mem_filter hy),
    fun hy hmem => h.kept hy (List.mem_of_mem_filter hmem)⟩

theorem Consistent.chunk_le (h : Consistent sizeOf cmds s) (hn : s.pinnedChunks.find? x = some n) :
    n ≤ s.pinned ∧ s.pinned < 2 ^ 64 := by
  have hsum := sum_erase (fun _ (n : Nat) => n) hn
  have hlt := h.pinnedLt
  rw [h.pinned]
  rw [pinnedTotal] at hlt ⊢
  omega

theorem Protected.unpinChunk (h : Protected s) (fileExists : Bool) (hc : Consistent sizeOf cmds s)
    (hrow : s.rowFlag x ≠ .blocked) : Protected (s.unpinChunk x fileExists) := by
  have hrel := h.release x
  rw [State.unpinChunk]
  cases hn : s.pinnedChunks.find? x with
  | none => exact hrel
  | some n =>
    obtain ⟨hle, hlt⟩ := hc.chunk_le hn
    have hun := hrel.unreserve hrow (not_mem_release _ _) hle hlt
    dsimp only
    split
    · exact hun
    rw [removeOrphan]
    cases he : s.cacheCatalog.find? x with
    | none => exact hun
    | some e => exact hun.eraseRow

theorem Protected.addTrash (h : Protected s) (hx : x ∉ s.held) :
    Protected { s with trash := s.trash ++ [x] } := by
  refine { h with kept := fun {y} hy => ?_ }
  rcases List.mem_append.mp hy with hy | hy
  · exact h.kept hy
  · rw [List.mem_singleton.mp hy]
    exact hx

theorem Protected.removeEntry (h : Protected s) (hc : Consistent sizeOf [] s) :
    Protected (s.removeEntry x) := by
  have hrel := (h.release x).addTrash (not_mem_release _ _)
  rw [State.removeEntry]
  cases he : s.cacheCatalog.find? x with
  | none => exact hrel
  | some e =>
    have hrow := hrel.eraseRow (x := x) (g := sub64 s.gauge e.size)
    dsimp only
    split
    · exact hrow
    rename_i hf
    obtain ⟨hle, hlt⟩ := hc.chunk_le (hc.reserved he hf)
    refine hrow.unreserve ?_ (not_mem_release _ _) hle hlt
    rw [rowFlag]
    change (((s.cacheCatalog.erase x).find? x).map Entry.flag).getD .unpinned ≠ .blocked
    rw [find?_erase, if_pos rfl]
    decide

/-! ## Runs -/

/-- The steps that neither abort nor endanger a pinned file: those that keep the
counters right, except limits below twice the pinned size, unpins of a row that a
clean-up has left blocked, and pins of a file that is still to be unlinked. -/
def Pinnable (s : State) (l : Label) : Prop :=
  s.Accountable l ∧ match l.event with
    | .setLimit size => s.pinned ≤ (if s.spawned then getSize size else size) / 2
    | .unpin h _ => s.rowFlag h ≠ .blocked
    | .reserve h _ | .pinDirectly h _ => h ∉ s.trash
    | _ => True

theorem Starts.protected (h : Starts sizeOf s) : Protected s := by
  obtain ⟨hp, -, -, ht, hh, -⟩ := h.initial.idle
  refine ⟨hp ▸ Nat.zero_le _, fun he hb => ?_, fun hx => ?_, fun hx => ?_⟩
  · rw [h.initial.unpinned he] at hb
    cases hb
  · rw [hh] at hx
    cases hx
  · rw [ht] at hx
    cases hx

theorem Protected.exec {l} (h : Protected s) (hs : Sound sizeOf s) (hu : Uniform sizeOf l)
    (hp : s.Pinnable l) (hen : s.Enabled l.event) : ∃ s', s.exec l = some s' ∧ Protected s' := by
  obtain ⟨event, isOpen⟩ := l
  obtain ⟨ha, hp⟩ := hp
  cases event with
  | insert x n => exact h.enqueue (hs.queueable hu ha (.insert x n))
  | insertVolatile x n => exact h.enqueue (hs.queueable hu ha (.insertVolatile x n))
  | touch x => exact h.enqueue (hs.queueable hu ha (.touch x))
  | pin x n isCatalog =>
    cases isCatalog with
    | true => exact h.enqueue (hs.queueable hu ha (.pin x n))
    | false => exact h.enqueue (hs.queueable hu ha (.pinRegular x n))
  | unpin x fileExists =>
    exact (h.unpinChunk fileExists hs.consistent hp).enqueue
      (hs.queueable hu ha (.unpin x fileExists))
  | reserve x n =>
    exact ⟨_, rfl, h.reserve hp⟩
  | remove x =>
    obtain ⟨s₁, hf, hp₁⟩ := h.flush hs.consistent hs.small ha
    obtain ⟨hc₁, -⟩ := hs.consistent.flush hs.small ha hf
    exact ⟨_, Option.map_eq_some_iff.mpr ⟨s₁, hf, rfl⟩, hp₁.removeEntry hc₁⟩
  | cleanup leaveSize =>
    obtain ⟨s₁, hf, hp₁⟩ := h.flush hs.consistent hs.small ha
    obtain ⟨hc₁, hfl⟩ := hs.consistent.flush hs.small ha hf
    obtain ⟨-, hclean⟩ := hc₁.doCleanup (getSize leaveSize)
      fun j => OpenSafe.flushed ha hfl s.commandBuffer.length j
    exact ⟨_, Option.map_eq_some_iff.mpr ⟨s₁, hf, rfl⟩, hp₁.cleanedUp hclean⟩
  | setLimit size => exact ⟨_, rfl, { h with threshold := hp }⟩
  | setCleanupPolicy unusedFirst | spawn =>
    exact ⟨_, rfl, { h with }⟩
  | query => exact h.flush hs.consistent hs.small ha
  | pinDirectly x n =>
    obtain ⟨rfl, -⟩ := hu
    obtain ⟨hpin, htot, htrash, hopen⟩ := ha
    have hc := (hs.consistent.reserve hpin).1
    have hres : Protected (s.reserve x (sizeOf x)).1 := h.reserve hp
    change ∃ s', s.pinDirectly x (sizeOf x) (isOpen 0) = some s' ∧ Protected s'
    rw [State.pinDirectly]
    split
    · exact hres.insertEntry hc
        (fun j => (hopen.openPinned 0 j).reserved (reserve_reserved _ _ _)) (by decide)
    · exact ⟨_, rfl, hres⟩
  | cleanupDirectly leaveSize =>
    have hc := hs.consistent
    rw [hs.idle hen] at hc
    obtain ⟨-, hclean⟩ := hc.doCleanup leaveSize
      fun j => OpenSafe.openPinned ha 0 j
    exact ⟨_, rfl, h.cleanedUp hclean⟩
  | unlink x =>
    exact ⟨_, rfl, { h with kept := fun hy => h.kept (List.mem_of_mem_erase hy) }⟩

theorem Starts.reach_protected
    (h : (system (Starts sizeOf)).Reach (fun s l => Uniform sizeOf l ∧ s.Pinnable l) s) :
    Sound sizeOf s ∧ Protected s := by
  refine System.Reach.invariant (P := fun s => Sound sizeOf s ∧ Protected s)
    (fun _ (hs : Starts sizeOf _) => ⟨hs.sound, hs.protected⟩) ?_ h
  rintro s l s' ⟨hs, hp⟩ ⟨hu, hg⟩ ⟨hen, he⟩
  refine ⟨hs.exec hu hg.1 hen he, ?_⟩
  obtain ⟨s₁, h₁, hp₁⟩ := hp.exec hs hu hg hen
  rw [he] at h₁
  cases h₁
  exact hp₁

/-- **Pinned files are safe.** In every run whose steps meet the conditions, the next
such event goes through as well, and no file that is held is to be unlinked. -/
theorem no_abort_and_pins_kept
    (h : (system (Starts sizeOf)).Reach (fun s l => Uniform sizeOf l ∧ s.Pinnable l) s) :
    (∀ l, s.Enabled l.event → Uniform sizeOf l → s.Pinnable l → ∃ s', s.exec l = some s') ∧
      ∀ x ∈ s.trash, x ∉ s.held := by
  obtain ⟨hs, hp⟩ := Starts.reach_protected h
  refine ⟨fun l hen hu hg => ?_, fun x hx => hp.kept hx⟩
  obtain ⟨s', he, -⟩ := hp.exec hs hu hg hen
  exact ⟨s', he⟩

theorem no_abort_and_pins_kept_reserve : ∃ s, (system (Starts fun _ => 10)).Reach
        (fun s l => Uniform (fun _ => 10) l ∧ s.Pinnable l) s ∧ 1 ∈ s.held ∧ 1 ∉ s.trash ∧
      ∃ s', s.exec { event := .pin 1 10 true } = some s' := by
  have hnone : ∀ {s : State} {cmds}, s.OpenSafe cmds fun _ _ _ => false :=
    fun _ _ _ _ _ ho => by cases ho
  have h₀ : (system (Starts fun _ => 10)).Reach
      (fun s l => Uniform (fun _ => 10) l ∧ s.Pinnable l) (fresh 100 50) :=
    .init (fresh_starts 100 50)
  have h₁ := reach_exec (l := { event := .spawn }) h₀ rfl ⟨trivial, trivial, trivial⟩ rfl
  have h₂ := reach_exec (l := { event := .reserve 1 10 }) h₁ rfl
    ⟨⟨rfl, by decide⟩, (by decide : (_ : Nat) < 2 ^ 64), List.not_mem_nil⟩ rfl
  obtain ⟨hgo, hkept⟩ := no_abort_and_pins_kept h₂
  refine ⟨_, h₂, by decide, fun hx => hkept 1 hx (by decide), hgo { event := .pin 1 10 true } rfl
    ⟨rfl, by decide⟩ ⟨⟨by decide, by decide, by decide, rfl, hnone⟩, trivial⟩⟩

/-! ## Runs that abort or lose a pinned file -/

/-- The size of the object of an event. -/
def objectSize : Event → Nat
  | .insert _ n | .insertVolatile _ n | .reserve _ n | .pin _ n _ | .pinDirectly _ n => n
  | _ => 0

/-- No object is larger than the limit. -/
def Fits (s : State) (l : Label) : Prop := objectSize l.event ≤ s.limit

instance (s : State) (l : Label) : Decidable (s.Fits l) := inferInstanceAs (Decidable (_ ≤ _))

/-- A pinned file larger than the new threshold makes the next clean-up fail. -/
theorem lowered_limit_aborts :
    ∃ s l, (system fun s => Starts (fun h => if h = 1 then 50 else 5) s ∧
          s.cleanupThreshold < s.limit).Reach
        (fun s l => Uniform (fun h => if h = 1 then 50 else 5) l ∧ s.Fits l) s ∧
      s.Enabled l.event ∧ s.exec l = none := by
  refine ⟨_, { event := .query }, reach_events ⟨fresh_starts 100 50, by decide⟩
    [{ event := .spawn }, { event := .reserve 1 50 }, { event := .pin 1 50 true },
      { event := .setLimit 10 }, { event := .insert 2 5 }] rfl, ?_⟩
  exact ⟨rfl, rfl⟩

/-- A blocked row that was unpinned after all makes the clean-up of an earlier insert
fail: it is neither pinned nor a candidate. -/
theorem stale_block_aborts :
    ∃ s l, (system fun s => Starts (fun h => if h = 2 then 5 else 50) s ∧
          s.cleanupThreshold < s.limit).Reach
        (fun s l => Uniform (fun h => if h = 2 then 5 else 50) l ∧ s.Fits l) s ∧
      s.Enabled l.event ∧ s.exec l = none := by
  refine ⟨_, { event := .query }, reach_events ⟨fresh_starts 100 50, by decide⟩
    [{ event := .spawn }, { event := .reserve 1 50 }, { event := .pin 1 50 true },
      { event := .cleanup 0 }, { event := .insert 3 50 }, { event := .insert 2 5 },
      { event := .unpin 1 true }, { event := .reserve 3 50 }] rfl, ?_⟩
  exact ⟨rfl, rfl⟩

/-- A file can be pinned while it waits to be unlinked. -/
theorem pinned_file_unlinked :
    ∃ s, (system fun s => Starts (fun _ => 10) s ∧ s.cleanupThreshold < s.limit).Reach
        (fun s l => Uniform (fun _ => 10) l ∧ s.Fits l) s ∧ 1 ∈ s.trash ∧ 1 ∈ s.held := by
  exact ⟨_, reach_events ⟨fresh_starts 100 50, by decide⟩ [{ event := .spawn },
    { event := .insert 1 10 }, { event := .cleanup 0 }, { event := .reserve 1 10 }] rfl,
    by decide, by decide⟩

end State

end Cvmfs.Quota
