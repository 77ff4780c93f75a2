import Cvmfs.Quota.Accounting

/-! # Exact counters in every run

The events of the quota manager keep the counters exact as long as no size is cut,
no unpinned file is reported open, every pinned insert arrives while its
reservation stands, and files are new in the cache when they are inserted. The
runs at the end show what happens otherwise. -/

namespace Cvmfs.Quota

open Lib Table State Command Nat Option

namespace State

variable {sizeOf : Hash → Nat} {s s' : State} {cmds : List Command}

/-! ## The buffer -/

theorem Consistent.withBuffer (h : Consistent sizeOf cmds s) (b : List Command) :
    Consistent sizeOf cmds { s with commandBuffer := b } :=
  { h with }

/-- The invariant between two events. -/
structure Sound (sizeOf : Hash → Nat) (s : State) : Prop where
  consistent : Consistent sizeOf s.commandBuffer s
  small : Small s.commandBuffer
  idle : s.spawned = false → s.commandBuffer = []

variable {isOpen : Nat → Nat → Hash → Bool}

theorem Consistent.flush (h : Consistent sizeOf s.commandBuffer s) (hsmall : Small s.commandBuffer)
    (hopen : s.OpenSafe s.commandBuffer isOpen) (hf : s.flush isOpen = some s') :
    Consistent sizeOf [] s' ∧ Flushed { s with commandBuffer := [] } s.commandBuffer s' :=
  (h.withBuffer []).processCommandBunch hsmall hopen hf

theorem small_nil : Small [] := fun _ h => by cases h

variable {b : List Command} {c : Command}

theorem Small.snoc (h : Small b) (hc : ∀ x n, c.inserted = some (x, n) → n < 2 ^ 32) :
    Small (b ++ [c]) := by
  intro d hd x n hx
  rcases List.mem_append.mp hd with hd | hd
  · exact h d hd x n hx
  · exact hc x n (List.mem_singleton.mp hd ▸ hx)

theorem Sound.flush (h : Sound sizeOf s) (hopen : s.OpenSafe s.commandBuffer isOpen)
    (hf : s.flush isOpen = some s') : Sound sizeOf s' := by
  obtain ⟨hc, hfl⟩ := h.consistent.flush h.small hopen hf
  have hb : s'.commandBuffer = [] := hfl.commandBuffer
  exact ⟨hb ▸ hc, hb ▸ small_nil, fun _ => hb⟩

theorem Consistent.snoc (h : Consistent sizeOf b s) (hc : c.inserted = none)
    (hflag : ∀ x, s.pinnedChunks.contains x = false → (c.flagOf x).getD .unpinned = .unpinned) :
    Consistent sizeOf (b ++ [c]) s := by
  have hno : ∀ x, insertions (b ++ [c]) x = insertions b x := by
    intro x
    rw [insertions_snoc, if_neg, add_zero]
    rintro ⟨n, hn⟩
    rw [hc] at hn
    cases hn
  refine
    { h with
      total := by simpa [hc] using h.total
      sizes := fun {d x n} hd hx => ?_
      flags := fun {x} hx => ?_
      queued := fun {x} hx => by rw [hno]; exact h.queued hx
      trash := fun {x} hx => by rw [hno]; exact h.trash hx }
  · rcases List.mem_append.mp hd with hd | hd
    · exact h.sizes hd hx
    · rw [List.mem_singleton.mp hd, hc] at hx
      cases hx
  · rw [flagAfter_snoc, h.flags hx]
    exact hflag x hx

variable {x : Hash}

theorem Consistent.snoc_insert (h : Consistent sizeOf b s) (hc : c.inserted = some (x, sizeOf x))
    (htot : s.total + insertedSize b + sizeOf x < 2 ^ 64) (htrash : x ∉ s.trash)
    (hnew : s.pinnedChunks.contains x = true ∨ (s.cacheCatalog.find? x = none ∧ insertions b x = 0))
    (hflag : ∀ y, s.pinnedChunks.contains y = false → (c.flagOf y).getD .unpinned = .unpinned) :
    Consistent sizeOf (b ++ [c]) s := by
  have hins : ∀ y, c.Inserts y ↔ y = x := by
    intro y
    constructor
    · rintro ⟨n, hn⟩
      rw [hc] at hn
      cases hn
      rfl
    · rintro rfl
      exact ⟨_, hc⟩
  refine
    { h with
      total := by rw [insertedSize_snoc, hc]; simpa [add_assoc] using htot
      sizes := fun {d y n} hd hy => ?_
      flags := fun {y} hy => ?_
      queued := fun {y} hy => ?_
      trash := fun {y} hy => ?_ }
  · rcases List.mem_append.mp hd with hd | hd
    · exact h.sizes hd hy
    · rw [List.mem_singleton.mp hd, hc] at hy
      cases hy
      rfl
  · rw [flagAfter_snoc, h.flags hy]
    exact hflag y hy
  · obtain ⟨h₁, h₂⟩ := h.queued hy
    rw [insertions_snoc]
    by_cases hyx : y = x
    · subst hyx
      obtain ⟨hnone, hzero⟩ := hnew.resolve_left fun hp => by rw [hy] at hp; cases hp
      rw [if_pos ((hins y).mpr rfl), hzero]
      exact ⟨le_refl _, fun _ => hnone⟩
    · rw [if_neg fun hi => hyx ((hins y).mp hi)]
      exact ⟨h₁, h₂⟩
  · have hyx : y ≠ x := by
      rintro rfl
      exact htrash hy
    rw [insertions_snoc, if_neg fun hi => hyx ((hins y).mp hi)]
    exact h.trash hy

/-! ## Events that take effect at once -/

theorem pinned_sub {h n} (hc : Consistent sizeOf cmds s) (hn : s.pinnedChunks.find? h = some n) :
    sub64 s.pinned n = (s.pinnedChunks.erase h).sum fun _ n => n := by
  have hsum := sum_erase (fun _ (n : Nat) => n) hn
  have hlt := hc.pinnedLt
  rw [hc.pinned, pinnedTotal] at *
  rw [sub64_of_le hlt (by omega)]
  omega

section

variable (h : Consistent sizeOf cmds s)
include h

theorem Consistent.reserve (hlt : s.pinnedTotal + sizeOf x < 2 ^ 64) :
    Consistent sizeOf cmds (s.reserve x (sizeOf x)).1 ∧ ((s.reserve x (sizeOf x)).2 = true →
        (s.reserve x (sizeOf x)).1.pinnedChunks.contains x = true) := by
  rw [State.reserve]
  split
  · rename_i hx
    exact ⟨{ h with }, fun _ => hx⟩
  rename_i hx
  split
  · exact ⟨h, fun hf => by cases hf⟩
  have hnone : s.pinnedChunks.find? x = none := by
    rw [contains, Bool.not_eq_true, isSome_eq_false_iff, isNone_iff_eq_none] at hx
    exact hx
  have hsum := sum_put_of_none (fun _ (n : Nat) => n) hnone (v := sizeOf x)
  have hmono : ∀ {y}, (s.pinnedChunks.put x (sizeOf x)).contains y = false →
      s.pinnedChunks.contains y = false := by
    intro y hy
    rw [contains, find?_put] at hy
    split at hy
    · cases hy
    · exact hy
  refine ⟨
    { h with
      chunks := fun {y n} hy => ?_
      pinned := ?_
      pinnedLt := ?_
      flags := fun hy => h.flags (hmono hy)
      queued := fun hy => h.queued (hmono hy)
      trash := h.trash }, fun _ => ?_⟩
  · rcases of_put hy with ⟨rfl, rfl⟩ | ⟨-, hy⟩
    · rfl
    · exact h.chunks hy
  · change add64 s.pinned (sizeOf x) = (s.pinnedChunks.put x (sizeOf x)).sum fun _ n => n
    rw [hsum, h.pinned, add64_of_lt hlt, pinnedTotal, add_comm]
  · change ((s.pinnedChunks.put x (sizeOf x)).sum fun _ n => n) < 2 ^ 64
    rw [hsum, add_comm]
    exact hlt
  · exact contains_eq_true.mpr ⟨_, find?_put_self⟩

theorem Consistent.eraseRow {e} (he : s.cacheCatalog.find? x = some e)
    (hflag : flagAfter cmds x .unpinned = .unpinned) :
    Consistent sizeOf cmds
      { s with cacheCatalog := s.cacheCatalog.erase x, gauge := sub64 s.gauge e.size } := by
  have hsum := sum_erase (fun _ (e : Entry) => e.size) he
  have hlt := h.total_lt
  have htot := h.total
  have hg := h.gauge
  rw [State.total] at hlt htot hg
  have hnone : ∀ {y}, s.cacheCatalog.find? y = none → (s.cacheCatalog.erase x).find? y = none := by
    intro y hy
    rw [find?_erase, hy, ite_self]
  refine
    { h with
      rows := fun hy => h.rows (of_erase hy).2
      gauge := ?_
      total := ?_
      fresh := fun hy => h.fresh (of_erase hy).2
      distinct := fun _ _ _ _ hy hy' => h.distinct _ _ _ _ (of_erase hy).2 (of_erase hy').2
      flags := fun {y} hy => ?_
      queued := fun {y} hy => ?_
      trash := fun {y} hy => ?_ }
  · change sub64 s.gauge e.size = (s.cacheCatalog.erase x).sum fun _ e => e.size
    rw [sub64_of_le (by omega) (by omega)]
    omega
  · change ((s.cacheCatalog.erase x).sum fun _ e => e.size) + insertedSize cmds < 2 ^ 64
    omega
  · change flagAfter cmds y ((((s.cacheCatalog.erase x).find? y).map Entry.flag).getD _) = _
    rw [find?_erase]
    by_cases hyx : y = x
    · rw [if_pos hyx, hyx]
      exact hflag
    · rw [if_neg hyx]
      exact h.flags hy
  · obtain ⟨h₁, h₂⟩ := h.queued hy
    exact ⟨h₁, fun hone => hnone (h₂ hone)⟩
  · obtain ⟨h₁, h₂⟩ := h.trash hy
    exact ⟨hnone h₁, h₂⟩

theorem Consistent.unreserve {n} (hn : s.pinnedChunks.find? x = some n)
    (hflag : flagAfter cmds x (s.rowFlag x) = .unpinned)
    (hqueued : insertions cmds x ≤ 1 ∧ (insertions cmds x = 1 → s.cacheCatalog.find? x = none)) :
    Consistent sizeOf cmds
      { s with pinned := sub64 s.pinned n, pinnedChunks := s.pinnedChunks.erase x } := by
  have hsum := sum_erase (fun _ (n : Nat) => n) hn
  have hlt := h.pinnedLt
  rw [pinnedTotal] at hlt
  have hcon : ∀ {y}, (s.pinnedChunks.erase x).contains y = false →
      y = x ∨ s.pinnedChunks.contains y = false := by
    intro y hy
    rw [contains, find?_erase] at hy
    split at hy
    · exact .inl ‹_›
    · exact .inr hy
  refine
    { h with
      chunks := fun hy => h.chunks (of_erase hy).2
      pinned := pinned_sub h hn
      pinnedLt := ?_
      flags := fun {y} hy => ?_
      queued := fun {y} hy => ?_ }
  · change ((s.pinnedChunks.erase x).sum fun _ n => n) < 2 ^ 64
    omega
  · rcases hcon hy with rfl | hy
    · exact hflag
    · exact h.flags hy
  · rcases hcon hy with rfl | hy
    · exact hqueued
    · exact h.queued hy

theorem Consistent.withHeld (held : List Hash) :
    Consistent sizeOf cmds { s with held := held } :=
  { h with }

end

theorem Consistent.unpinChunk (h : Consistent sizeOf b s) (fileExists : Bool)
    (hb : insertions b x = 0) :
    Consistent sizeOf (b ++ [.unpin x]) (s.unpinChunk x fileExists) := by
  have hsnoc : Consistent sizeOf (b ++ [.unpin x])
      { s with held := s.held.filter fun y => decide (y ≠ x) } := by
    refine (h.withHeld _).snoc rfl fun y _ => ?_
    by_cases hy : x = y <;> simp [flagOf, hy]
  have hflag : ∀ f, flagAfter (b ++ [.unpin x]) x f = .unpinned := fun f => by
    simp [flagOf]
  have hins : insertions (b ++ [.unpin x]) x = 0 := by
    rw [insertions_snoc, hb, if_neg]
    rintro ⟨n, hn⟩
    cases hn
  rw [State.unpinChunk]
  cases hn : s.pinnedChunks.find? x with
  | none => exact hsnoc
  | some n =>
    have hun := hsnoc.unreserve hn (hflag _) ⟨by omega, fun hone => by omega⟩
    dsimp only
    split
    · exact hun
    rw [removeOrphan]
    cases he : s.cacheCatalog.find? x with
    | none => exact hun
    | some e => exact hun.eraseRow he (hflag _)

section

variable (h : Consistent sizeOf [] s)
include h

theorem Consistent.reserved {e} (he : s.cacheCatalog.find? x = some e)
    (hf : e.flag ≠ .unpinned) : s.pinnedChunks.find? x = some e.size := by
  cases hn : s.pinnedChunks.find? x with
  | none =>
    have hfl := h.flags (h := x) (by rw [contains, hn]; rfl)
    rw [flagAfter_nil, rowFlag, he] at hfl
    exact absurd hfl hf
  | some n => rw [h.chunks hn, h.rows he]

theorem Consistent.addTrash (hx : s.cacheCatalog.find? x = none) :
    Consistent sizeOf [] { s with trash := s.trash ++ [x] } := by
  refine { h with trash := fun {y} hy => ?_ }
  rcases List.mem_append.mp hy with hy | hy
  · exact h.trash hy
  · rw [List.mem_singleton.mp hy]
    exact ⟨hx, rfl⟩

theorem Consistent.removeEntry : Consistent sizeOf [] (s.removeEntry x) := by
  have hheld := h.withHeld (s.held.filter fun y => decide (y ≠ x))
  rw [State.removeEntry]
  cases he : s.cacheCatalog.find? x with
  | none => exact hheld.addTrash he
  | some e =>
    have hrow := hheld.eraseRow he rfl
    have hgone : (s.cacheCatalog.erase x).find? x = none := by
      rw [find?_erase, if_pos rfl]
    dsimp only
    split
    · exact hrow.addTrash hgone
    rename_i hf
    have hn : s.pinnedChunks.find? x = some e.size := h.reserved he hf
    refine (hrow.unreserve hn ?_ ⟨zero_le _, fun hone => by cases hone⟩).addTrash hgone
    rw [flagAfter_nil, rowFlag]
    change (((s.cacheCatalog.erase x).find? x).map Entry.flag).getD .unpinned = .unpinned
    rw [hgone]
    rfl

end

/-- What a reservation leaves alone. -/
structure Reserved (s s' : State) : Prop where
  cacheCatalog : s'.cacheCatalog = s.cacheCatalog
  trash : s'.trash = s.trash
  cleanupUnusedFirst : s'.cleanupUnusedFirst = s.cleanupUnusedFirst
  commandBuffer : s'.commandBuffer = s.commandBuffer
  spawned : s'.spawned = s.spawned
  chunks : ∀ {y}, s.pinnedChunks.contains y = true → s'.pinnedChunks.contains y = true

theorem reserve_reserved (s : State) (x : Hash) (n : Nat) : Reserved s (s.reserve x n).1 := by
  rw [reserve]
  split
  · exact ⟨rfl, rfl, rfl, rfl, rfl, fun h => h⟩
  split
  · exact ⟨rfl, rfl, rfl, rfl, rfl, fun h => h⟩
  refine ⟨rfl, rfl, rfl, rfl, rfl, fun {y} hy => ?_⟩
  rw [contains, find?_put]
  split
  · rfl
  · exact hy

theorem OpenPinned.reserved {isOpen} (h : s.OpenPinned isOpen) (hr : Reserved s s') :
    s'.OpenPinned isOpen :=
  fun y e hy hc ho =>
    hr.chunks (h y e (hr.cacheCatalog ▸ hy) (hr.cleanupUnusedFirst ▸ hc) ho)

theorem Consistent.pinDirectly {isOpen} (h : Consistent sizeOf [] s)
    (hpin : s.pinnedTotal + sizeOf x < 2 ^ 64) (htot : s.total + sizeOf x < 2 ^ 64)
    (htrash : x ∉ s.trash) (hopen : ∀ j, s.OpenPinned (isOpen j))
    (hp : s.pinDirectly x (sizeOf x) isOpen = some s') :
    Consistent sizeOf [] s' ∧ s'.commandBuffer = s.commandBuffer := by
  obtain ⟨hres, hcon⟩ := h.reserve hpin
  have hsame := reserve_reserved s x (sizeOf x)
  have htab := hsame.cacheCatalog
  rw [State.pinDirectly] at hp
  split at hp
  · rename_i hok
    have hcon := hcon hok
    obtain ⟨s₁, hclean, rfl⟩ := insertEntry_cleanedUp hres (fun j => (hopen j).reserved hsame) hp
    have hproc : Flushed (s.reserve x (sizeOf x)).1 [.pin x (sizeOf x)]
        (s₁.insertOrReplace x (sizeOf x) false .pinned) := hclean.flushed rfl
    have hc₁ := hres.cleanedUp hclean
    have hpc : s₁.pinnedChunks = (s.reserve x (sizeOf x)).1.pinnedChunks := hproc.pinnedChunks
    have hx₁ : x ∉ s₁.trash := by
      intro hx
      obtain ⟨new, hnew, hmem⟩ := hclean.trash
      rw [hnew, hsame.trash] at hx
      rcases List.mem_append.mp hx with hx | hx
      · exact htrash hx
      · rw [(hmem x hx).1] at hcon
        cases hcon
    have htot₁ := hclean.total
    rw [State.total, State.total, htab] at htot₁
    refine ⟨?_, hproc.commandBuffer.trans hsame.commandBuffer⟩
    have hsnoc : Consistent sizeOf [.pin x (sizeOf x)] s₁ := by
      refine hc₁.snoc_insert (b := []) rfl ?_ hx₁ (.inl (hpc ▸ hcon)) fun y hy => ?_
      · rw [State.total] at htot ⊢
        rw [insertedSize_nil]
        omega
      have hyx : x ≠ y := by
        rintro rfl
        rw [hpc, hcon] at hy
        cases hy
      simp [flagOf, hyx]
    exact hsnoc.insertOrReplace rfl (by simp [flagOf])
      fun y hy => by simp [flagOf, Ne.symm hy]
  · cases hp
    exact ⟨hres, hsame.commandBuffer⟩

/-! ## Runs -/

/-- The counters are right, and no row is left for a file that is to be unlinked. -/
structure Exact (s : State) (sizeOf : Hash → Nat) : Prop where
  gauge : s.gauge = s.cacheCatalog.sum fun h _ => sizeOf h
  pinned : s.pinned = s.pinnedTotal
  unlinked : ∀ {h}, h ∈ s.trash → s.cacheCatalog.find? h = none

/-- `InitDatabase` on a table with the true sizes. -/
structure Starts (sizeOf : Hash → Nat) (s : State) : Prop where
  initial : Initial s
  rows : ∀ {h e}, s.cacheCatalog.find? h = some e → e.size = sizeOf h

/-- Clients name the one size of a hash, in 61 bits. -/
def Uniform (sizeOf : Hash → Nat) (l : Label) : Prop :=
  match l.event with
  | .insert h n | .insertVolatile h n | .reserve h n | .pin h n _ | .pinDirectly h n =>
    n = sizeOf h ∧ n < 2 ^ 61
  | _ => True

/-- The steps that keep the counters right. -/
def Accountable (s : State) (l : Label) : Prop :=
  match l.event with
  | .insert h n | .insertVolatile h n =>
    n < 2 ^ 32 ∧ s.total + insertedSize s.commandBuffer + n < 2 ^ 64 ∧ h ∉ s.trash ∧
      (s.pinnedChunks.contains h = true ∨
        (s.cacheCatalog.find? h = none ∧ insertions s.commandBuffer h = 0)) ∧
      s.OpenSafe (s.commandBuffer ++ [.insert h n]) l.isOpen
  | .pin h n _ =>
    n < 2 ^ 32 ∧ s.total + insertedSize s.commandBuffer + n < 2 ^ 64 ∧ h ∉ s.trash ∧
      s.pinnedChunks.contains h = true ∧ s.OpenSafe (s.commandBuffer ++ [.pin h n]) l.isOpen
  | .reserve _ n => s.pinnedTotal + n < 2 ^ 64
  | .unpin h fileExists =>
    insertions s.commandBuffer h = 0 ∧ (s.unpinChunk h fileExists).OpenSafe s.commandBuffer l.isOpen
  | .touch _ | .remove _ | .cleanup _ | .query => s.OpenSafe s.commandBuffer l.isOpen
  | .pinDirectly h n =>
    s.pinnedTotal + n < 2 ^ 64 ∧ s.total + n < 2 ^ 64 ∧ h ∉ s.trash ∧ s.OpenSafe [] l.isOpen
  | .cleanupDirectly _ => s.OpenSafe [] l.isOpen
  | .setLimit _ | .setCleanupPolicy _ | .spawn | .unlink _ => True

theorem Starts.sound (h : Starts sizeOf s) : Sound sizeOf s := by
  obtain ⟨hp, hc, hb, ht, hh, hs⟩ := h.initial.idle
  have hrow : ∀ x, s.rowFlag x = .unpinned := by
    intro x
    rw [rowFlag]
    cases hx : s.cacheCatalog.find? x with
    | none => rfl
    | some e => exact h.initial.unpinned hx
  refine ⟨?_, by rw [hb]; exact small_nil, fun _ => hb⟩
  rw [hb]
  exact
    { h with
      gauge := h.initial.counters
      total := h.initial.total
      chunks := fun {x n} hx => by rw [hc] at hx; cases hx
      pinned := by rw [hp, pinnedTotal, hc]; rfl
      pinnedLt := by rw [pinnedTotal, hc]; exact Nat.two_pow_pos 64
      fresh := h.initial.fresh
      distinct := fun _ _ _ _ => h.initial.distinct
      sizes := fun hm => by cases hm
      flags := fun {x} _ => hrow x
      queued := fun _ => ⟨zero_le _, fun hone => by cases hone⟩
      trash := fun hx => by rw [ht] at hx; cases hx }

theorem OpenSafe.congr {d} (h : s.OpenSafe (b ++ [c]) isOpen) (hcd : ∀ x, d.Inserts x → c.Inserts x) :
    s.OpenSafe (b ++ [d]) isOpen := by
  intro k j x hx hc ho
  refine h k j x ?_ hc ho
  rcases hx with hx | ⟨e, he, hins⟩
  · exact .inl hx
  rcases List.mem_append.mp he with he | he
  · exact .inr ⟨e, List.mem_append_left _ he, hins⟩
  · rw [List.mem_singleton.mp he] at hins
    exact .inr ⟨c, by simp, hcd x hins⟩

theorem OpenSafe.snoc (h : s.OpenSafe b isOpen) (hc : c.inserted = none) :
    s.OpenSafe (b ++ [c]) isOpen := by
  intro k j x hx hp ho
  refine h k j x ?_ hp ho
  rcases hx with hx | ⟨e, he, n, hn⟩
  · exact .inl hx
  rcases List.mem_append.mp he with he | he
  · exact .inr ⟨e, he, n, hn⟩
  · rw [List.mem_singleton.mp he, hc] at hn
    cases hn

theorem unpinChunk_frame (s : State) (x : Hash) (fileExists : Bool) :
    (s.unpinChunk x fileExists).commandBuffer = s.commandBuffer ∧
      (s.unpinChunk x fileExists).spawned = s.spawned := by
  rw [unpinChunk]
  cases s.pinnedChunks.find? x with
  | none => exact ⟨rfl, rfl⟩
  | some n =>
    dsimp only
    split
    · exact ⟨rfl, rfl⟩
    · rw [removeOrphan]
      cases s.cacheCatalog.find? x <;> exact ⟨rfl, rfl⟩

theorem removeEntry_buffer (s : State) (x : Hash) :
    (s.removeEntry x).commandBuffer = s.commandBuffer := by
  rw [removeEntry]
  cases s.cacheCatalog.find? x with
  | none => rfl
  | some e =>
    dsimp only
    split <;> rfl

theorem Sound.flushed (h : Sound sizeOf s) (hopen : s.OpenSafe s.commandBuffer isOpen) {s₁}
    (hf : s.flush isOpen = some s₁) (hc : Consistent sizeOf [] s₁ → Consistent sizeOf [] s')
    (hb : s'.commandBuffer = s₁.commandBuffer) : Sound sizeOf s' := by
  obtain ⟨hc₁, hfl⟩ := h.consistent.flush h.small hopen hf
  have hb' : s'.commandBuffer = [] := hb.trans hfl.commandBuffer
  exact ⟨hb' ▸ hc hc₁, hb' ▸ small_nil, fun _ => hb'⟩

theorem CleanedUp.buffer (h : CleanedUp s s') : s'.commandBuffer = s.commandBuffer := by
  rw [h.frame]

theorem OpenSafe.flushed {s₁} (hopen : s.OpenSafe s.commandBuffer isOpen)
    (hfl : Flushed { s with commandBuffer := [] } s.commandBuffer s₁) (k j : Nat) :
    s₁.OpenPinned (isOpen k j) := by
  intro x e hx hc ho
  have hpc : s₁.pinnedChunks = s.pinnedChunks := hfl.pinnedChunks
  have hpol : s₁.cleanupUnusedFirst = s.cleanupUnusedFirst := hfl.cleanupUnusedFirst
  rw [hpc]
  exact hopen k j x (hfl.contains (contains_eq_true.mpr ⟨e, hx⟩)) (hpol ▸ hc) ho

theorem Consistent.doCleanup {isOpen} (h : Consistent sizeOf [] s) (leaveSize : Nat)
    (hopen : ∀ j, s.OpenPinned (isOpen j)) : Consistent sizeOf [] (s.doCleanup leaveSize isOpen).1 ∧
      CleanedUp s (s.doCleanup leaveSize isOpen).1 := by
  have hc : CleanedUp s (s.doCleanup leaveSize isOpen).1 :=
    (doCleanup_spec h.gauge h.total_lt h.distinct hopen).1
  exact ⟨h.cleanedUp hc, hc⟩

theorem Consistent.unlink (h : Consistent sizeOf cmds s) (x : Hash) :
    Consistent sizeOf cmds { s with trash := s.trash.erase x } :=
  { h with trash := fun hy => h.trash (List.mem_of_mem_erase hy) }

/-- The events that buffer a command, and the state and the command that they buffer. -/
inductive Queues (s : State) : Event → State → Command → Prop
  | insert (x : Hash) (n : Nat) : Queues s (.insert x n) s (.insert x n)
  | insertVolatile (x : Hash) (n : Nat) : Queues s (.insertVolatile x n) s (.insertVolatile x n)
  | touch (x : Hash) : Queues s (.touch x) s (.touch x)
  | pin (x : Hash) (n : Nat) : Queues s (.pin x n true) s (.pin x n)
  | pinRegular (x : Hash) (n : Nat) : Queues s (.pin x n false) s (.pinRegular x n)
  | unpin (x : Hash) (fileExists : Bool) :
    Queues s (.unpin x fileExists) (s.unpinChunk x fileExists) (.unpin x)

/-- The buffered command goes through whenever the buffer is processed. -/
structure Queueable (sizeOf : Hash → Nat) (isOpen : Nat → Nat → Hash → Bool) (s : State)
    (c : Command) : Prop where
  consistent : Consistent sizeOf (s.commandBuffer ++ [c]) s
  small : Small (s.commandBuffer ++ [c])
  openSafe : s.OpenSafe (s.commandBuffer ++ [c]) isOpen

theorem Queueable.enqueue (h : Queueable sizeOf isOpen s c) (hs : s.spawned = true)
    (he : s.enqueue c isOpen = some s') : Sound sizeOf s' := by
  rw [State.enqueue] at he
  split at he
  · obtain ⟨hc, hfl⟩ := (h.consistent.withBuffer _).flush h.small h.openSafe he
    have hb : s'.commandBuffer = [] := hfl.commandBuffer
    exact ⟨hb ▸ hc, hb ▸ small_nil, fun _ => hb⟩
  cases he
  refine ⟨h.consistent.withBuffer _, h.small, fun hf => ?_⟩
  change s.spawned = false at hf
  rw [hs] at hf
  cases hf

section

variable (h : Sound sizeOf s)
include h

theorem Sound.queueableInsert (hc : c.inserted = some (x, sizeOf x))
    (hlt : sizeOf x < 2 ^ 32) (htot : s.total + insertedSize s.commandBuffer + sizeOf x < 2 ^ 64)
    (htrash : x ∉ s.trash) (hnew : s.pinnedChunks.contains x = true ∨
      (s.cacheCatalog.find? x = none ∧ insertions s.commandBuffer x = 0))
    (hflag : ∀ y, s.pinnedChunks.contains y = false → (c.flagOf y).getD .unpinned = .unpinned)
    (hopen : s.OpenSafe (s.commandBuffer ++ [c]) isOpen) : Queueable sizeOf isOpen s c := by
  refine ⟨h.consistent.snoc_insert hc htot htrash hnew hflag, Small.snoc h.small ?_, hopen⟩
  intro y n hy
  rw [hc] at hy
  cases hy
  exact hlt

theorem Sound.queueable {event} (hu : Uniform sizeOf ⟨event, isOpen⟩)
    (ha : s.Accountable ⟨event, isOpen⟩) (hq : s.Queues event s' c) :
    Queueable sizeOf isOpen s' c := by
  have hpinned : ∀ {x y}, s.pinnedChunks.contains x = true → s.pinnedChunks.contains y = false →
      x ≠ y := by
    rintro x y hx hy rfl
    rw [hx] at hy
    cases hy
  cases hq with
  | insert x n | insertVolatile x n =>
    obtain ⟨rfl, -⟩ := hu
    obtain ⟨hlt, htot, htrash, hnew, hopen⟩ := ha
    refine h.queueableInsert rfl hlt htot htrash hnew (fun y _ => ?_) (hopen.congr fun y hy => hy)
    by_cases hxy : x = y <;> simp [flagOf, hxy]
  | touch x =>
    exact ⟨h.consistent.snoc rfl fun y _ => rfl, Small.snoc h.small fun y n hy => (by cases hy),
      OpenSafe.snoc ha rfl⟩
  | pin x n | pinRegular x n =>
    obtain ⟨rfl, -⟩ := hu
    obtain ⟨hlt, htot, htrash, hpin, hopen⟩ := ha
    refine h.queueableInsert rfl hlt htot htrash (.inl hpin) (fun y hy => ?_)
      (hopen.congr fun y hy => hy)
    simp [flagOf, hpinned hpin hy]
  | unpin x fileExists =>
    obtain ⟨hins, hopen⟩ := ha
    have hc := h.consistent.unpinChunk fileExists hins
    have hsmall : Small (s.commandBuffer ++ [.unpin x]) :=
      Small.snoc h.small fun y n hy => (by cases hy)
    rw [← (unpinChunk_frame s x fileExists).1] at hc hsmall hopen
    exact ⟨hc, hsmall, hopen.snoc rfl⟩

theorem Sound.exec {l} (hu : Uniform sizeOf l) (ha : s.Accountable l)
    (hen : s.Enabled l.event) (he : s.exec l = some s') : Sound sizeOf s' := by
  obtain ⟨event, isOpen⟩ := l
  cases event with
  | insert x n => exact (h.queueable hu ha (.insert x n)).enqueue hen he
  | insertVolatile x n => exact (h.queueable hu ha (.insertVolatile x n)).enqueue hen he
  | touch x => exact (h.queueable hu ha (.touch x)).enqueue hen he
  | pin x n isCatalog =>
    cases isCatalog with
    | true => exact (h.queueable hu ha (.pin x n)).enqueue hen he
    | false => exact (h.queueable hu ha (.pinRegular x n)).enqueue hen he
  | unpin x fileExists =>
    exact (h.queueable hu ha (.unpin x fileExists)).enqueue
      ((unpinChunk_frame s x fileExists).2.trans hen) he
  | reserve x n =>
    obtain ⟨rfl, hlt⟩ := hu
    change some (s.reserve x (sizeOf x % 2 ^ 61)).1 = some s' at he
    rw [Nat.mod_eq_of_lt hlt] at he
    cases he
    have hr := reserve_reserved s x (sizeOf x)
    have hb := hr.commandBuffer
    exact ⟨hb ▸ (h.consistent.reserve ha).1, hb ▸ h.small,
      fun hf => hb.trans (h.idle (hr.spawned ▸ hf))⟩
  | remove x =>
    obtain ⟨s₁, hf, rfl⟩ := map_eq_some_iff.mp he
    exact h.flushed ha hf (fun hc => hc.removeEntry) (removeEntry_buffer s₁ x)
  | cleanup leaveSize =>
    obtain ⟨s₁, hf, rfl⟩ := map_eq_some_iff.mp he
    obtain ⟨hc, hfl⟩ := h.consistent.flush h.small ha hf
    obtain ⟨hc', hclean⟩ := hc.doCleanup (getSize leaveSize)
      fun j => OpenSafe.flushed ha hfl s.commandBuffer.length j
    exact h.flushed ha hf (fun _ => hc') hclean.buffer
  | setLimit size | setCleanupPolicy unusedFirst =>
    cases he
    have hc := h.consistent
    exact ⟨{ hc with }, h.small, h.idle⟩
  | query => exact h.flush ha he
  | pinDirectly x n =>
    obtain ⟨rfl, -⟩ := hu
    obtain ⟨hpin, htot, htrash, hopen⟩ := ha
    have hb := h.idle hen
    have hc := h.consistent
    rw [hb] at hc
    obtain ⟨hc', hb'⟩ := hc.pinDirectly hpin htot htrash (fun j => hopen.openPinned 0 j) he
    rw [hb] at hb'
    exact ⟨hb' ▸ hc', hb' ▸ small_nil, fun _ => hb'⟩
  | cleanupDirectly leaveSize =>
    cases he
    have hb := h.idle hen
    have hc := h.consistent
    rw [hb] at hc
    obtain ⟨hc', hclean⟩ := hc.doCleanup leaveSize
      fun j => OpenSafe.openPinned ha 0 j
    have hb' := hclean.buffer.trans hb
    exact ⟨hb' ▸ hc', hb' ▸ small_nil, fun _ => hb'⟩
  | spawn =>
    cases he
    have hc := h.consistent
    exact ⟨{ hc with }, h.small, fun hf => by cases hf⟩
  | unlink x =>
    cases he
    exact ⟨h.consistent.unlink x, h.small, h.idle⟩

theorem Sound.exact : s.Exact sizeOf := by
  refine ⟨?_, h.consistent.pinned, fun hx => (h.consistent.trash hx).1⟩
  rw [h.consistent.gauge, total]
  exact sum_congr fun x e he => h.consistent.rows he

end

theorem Starts.reach_sound
    (h : (system (Starts sizeOf)).Reach (fun s l => Uniform sizeOf l ∧ s.Accountable l) s) :
    Sound sizeOf s := by
  refine System.Reach.invariant (P := Sound sizeOf) (fun _ (hs : Starts sizeOf _) => hs.sound) ?_ h
  intro s l s' hs hg hstep
  exact hs.exec hg.1 hg.2 hstep.1 hstep.2

/-- **Exact accounting.** In every run whose steps meet the conditions, the gauge is
the sum of the true sizes of all rows, the pinned size is the sum over the pinned
chunks, and the files to be unlinked have no row. -/
theorem counters_exact
    (h : (system (Starts sizeOf)).Reach (fun s l => Uniform sizeOf l ∧ s.Accountable l) s) :
    s.Exact sizeOf :=
  (Starts.reach_sound h).exact

/-! ## Runs that break the counters -/

def fresh (limit cleanupThreshold : Nat) : State :=
  { spawned := false, limit := limit, cleanupThreshold := cleanupThreshold }

theorem fresh_starts (limit cleanupThreshold : Nat) :
    Starts sizeOf (fresh limit cleanupThreshold) where
  initial :=
    { counters := rfl
      total := Nat.two_pow_pos 64
      unpinned := fun h => by cases h
      fresh := fun h => by cases h
      distinct := fun h => by cases h
      idle := ⟨rfl, rfl, rfl, rfl, rfl, rfl⟩ }
  rows := fun h => by cases h

instance (s : State) (event : Event) : Decidable (s.Enabled event) := by
  unfold Enabled
  split <;> infer_instance

instance (l : Label) : Decidable (Uniform sizeOf l) := by
  unfold Uniform
  split <;> infer_instance

variable {guard : State → Label → Prop} {init : State → Prop}

theorem reach_events [∀ s l, Decidable (guard s l)] (h : init s) (ls : List Label)
    (he : ls.foldlM (System.guarded (fun s l => s.Enabled l.event ∧ guard s l) exec) s = some s') :
    (system init).Reach guard s' := by
  refine System.Reach.followIf (fun s l s' hs => ?_) (.init h) he
  obtain ⟨⟨hen, hg⟩, hs⟩ := ite_none_right_eq_some.1 hs
  exact ⟨hg, hen, hs⟩

theorem reach_exec {l} (h : (system init).Reach guard s) (hen : s.Enabled l.event) (hg : guard s l)
    (he : s.exec l = some s') : (system init).Reach guard s' :=
  h.step hg ⟨hen, he⟩

theorem counters_exact_cleanup : ∃ s, (system (Starts fun _ => 10)).Reach
        (fun s l => Uniform (fun _ => 10) l ∧ s.Accountable l) s ∧
      s.trash = [2, 1] ∧ s.Exact fun _ => 10 := by
  have hnone : ∀ {s : State} {cmds}, s.OpenSafe cmds fun _ _ _ => false :=
    fun _ _ _ _ _ ho => by cases ho
  have h₀ : (system (Starts fun _ => 10)).Reach
      (fun s l => Uniform (fun _ => 10) l ∧ s.Accountable l) (fresh 100 50) :=
    .init (fresh_starts 100 50)
  have h₁ := reach_exec (l := { event := .spawn }) h₀ rfl ⟨trivial, trivial⟩ rfl
  have h₂ := reach_exec (l := { event := .reserve 1 10 }) h₁ rfl
    ⟨⟨rfl, by decide⟩, (by decide : (_ : Nat) < 2 ^ 64)⟩ rfl
  have h₃ := reach_exec (l := { event := .pin 1 10 true }) h₂ rfl
    ⟨⟨rfl, by decide⟩, by decide, by decide, by decide, rfl, hnone⟩ rfl
  have h₄ := reach_exec (l := { event := .insert 2 10 }) h₃ rfl
    ⟨⟨rfl, by decide⟩, by decide, by decide, by decide, .inr ⟨rfl, rfl⟩, hnone⟩ rfl
  have h₅ := reach_exec (l := { event := .remove 2 }) h₄ rfl ⟨trivial, hnone⟩ rfl
  have h₆ := reach_exec (l := { event := .unpin 1 true }) h₅ rfl ⟨trivial, rfl, hnone⟩ rfl
  have h₇ := reach_exec (l := { event := .cleanup 0 }) h₆ rfl ⟨trivial, hnone⟩ rfl
  exact ⟨_, h₇, rfl, counters_exact h₇⟩

/-- A file of 4 GiB is counted with size zero. -/
theorem gauge_misses_large_file :
    ∃ s, (system (Starts fun _ => 2 ^ 32)).Reach (fun _ l => Uniform (fun _ => 2 ^ 32) l) s ∧
      s.commandBuffer = [] ∧ s.gauge = 0 ∧ (s.cacheCatalog.sum fun _ _ => 2 ^ 32) = 2 ^ 32 := by
  exact ⟨_, reach_events (fresh_starts (2 ^ 40) (2 ^ 39)) [{ event := .spawn },
    { event := .insert 1 (2 ^ 32) }, { event := .query }] rfl, rfl, rfl, rfl⟩

/-- A clean-up that evicts an open file leaves its row in the table. -/
theorem open_file_keeps_row :
    ∃ s, (system (Starts fun _ => 10)).Reach (fun _ l => Uniform (fun _ => 10) l) s ∧
      s.commandBuffer = [] ∧ 1 ∈ s.trash ∧ s.cacheCatalog.contains 1 = true ∧
      s.gauge ≠ s.cacheCatalog.sum fun _ _ => 10 := by
  exact ⟨_, reach_events (fresh_starts 100 50) [{ event := .spawn }, { event := .insert 1 10 },
    { event := .setCleanupPolicy true }, { event := .cleanup 0, isOpen := fun _ _ _ => true }] rfl,
    rfl, by decide, rfl, by decide⟩

/-- A removal trusts the flag of a row whose reservation was given up before its
insert was processed. -/
theorem removal_wraps_pinned :
    ∃ s, (system (Starts fun _ => 10)).Reach (fun _ l => Uniform (fun _ => 10) l) s ∧
      s.commandBuffer = [] ∧ s.pinnedTotal = 0 ∧ s.pinned = 2 ^ 64 - 10 := by
  exact ⟨_, reach_events (fresh_starts 100 50) [{ event := .spawn }, { event := .reserve 1 10 },
    { event := .unpin 1 true }, { event := .pin 1 10 true }, { event := .remove 1 }] rfl,
    rfl, rfl, rfl⟩

end State

end Cvmfs.Quota
