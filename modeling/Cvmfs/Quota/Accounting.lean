import Cvmfs.Quota.Cleanup

/-! # The counters of the quota manager

The gauge is the sum of the sizes in the cache catalog and the pinned size is the
sum over the pinned chunks. Three slips break this: buffered sizes are cut to 32
bits, the eviction of an open file leaves its row behind, and a removal trusts the
pinned flag of a row for which there may be no reservation. -/

namespace Cvmfs.Quota

open Lib Table Option Command Nat

/-! ## Buffered commands -/

namespace Command

/-- The hash and the size of a command that inserts a row. -/
def inserted : Command → Option (Hash × Nat)
  | .insert h n | .insertVolatile h n | .pin h n | .pinRegular h n => some (h, n)
  | .touch _ | .unpin _ => none

def Inserts (c : Command) (h : Hash) : Prop := ∃ n, c.inserted = some (h, n)

instance (c : Command) (h : Hash) : Decidable (c.Inserts h) :=
  match hc : c.inserted with
  | none => .isFalse fun ⟨n, hn⟩ => by rw [hc] at hn; cases hn
  | some (h', n) => decidable_of_iff (h' = h)
      ⟨fun he => ⟨n, he ▸ hc⟩, fun ⟨m, hm⟩ => by rw [hc] at hm; cases hm; rfl⟩

/-- The flag that a command leaves on the row of a hash. -/
def flagOf (h : Hash) : Command → Option PinFlag
  | .unpin h' | .insert h' _ | .insertVolatile h' _ => if h' = h then some .unpinned else none
  | .pin h' _ | .pinRegular h' _ => if h' = h then some .pinned else none
  | .touch _ => none

end Command

/-- The flag of a row after a bunch of commands. -/
def flagAfter (cmds : List Command) (h : Hash) (f : PinFlag) : PinFlag :=
  cmds.foldl (fun f c => (c.flagOf h).getD f) f

@[simp] theorem flagAfter_nil (h : Hash) (f : PinFlag) : flagAfter [] h f = f := rfl

@[simp] theorem flagAfter_cons (c : Command) (cs : List Command) (h : Hash) (f : PinFlag) :
    flagAfter (c :: cs) h f = flagAfter cs h ((c.flagOf h).getD f) := rfl

variable (cs : List Command)

@[simp] theorem flagAfter_snoc (c : Command) (h : Hash) (f : PinFlag) :
    flagAfter (cs ++ [c]) h f = (c.flagOf h).getD (flagAfter cs h f) := by
  simp [flagAfter]

theorem flagAfter_cases (cmds : List Command) (h : Hash) :
    (∀ f, flagAfter cmds h f = f) ∨ ∃ g, ∀ f, flagAfter cmds h f = g := by
  induction cmds with
  | nil => exact .inl fun _ => rfl
  | cons c cs ih =>
    cases hc : c.flagOf h with
    | none => simpa [hc] using ih
    | some g => exact .inr ⟨flagAfter cs h g, fun f => by simp [hc]⟩

theorem flagAfter_unpinned {cmds h f f'} (hf : flagAfter cmds h f = .unpinned)
    (hf' : f' = .unpinned ∨ f ≠ .unpinned) : flagAfter cmds h f' = .unpinned := by
  rcases flagAfter_cases cmds h with hid | ⟨g, hg⟩
  · rw [hid] at hf ⊢
    exact hf'.resolve_right fun hne => hne hf
  · rw [hg] at hf ⊢
    exact hf

/-- The bytes that a bunch inserts. -/
def insertedSize (cmds : List Command) : Nat :=
  (cmds.map fun c => (c.inserted.map Prod.snd).getD 0).sum

@[simp] theorem insertedSize_nil : insertedSize [] = 0 := rfl

@[simp] theorem insertedSize_cons (c : Command) (cs : List Command) :
    insertedSize (c :: cs) = (c.inserted.map Prod.snd).getD 0 + insertedSize cs := by
  simp [insertedSize]

@[simp] theorem insertedSize_snoc (c : Command) :
    insertedSize (cs ++ [c]) = insertedSize cs + (c.inserted.map Prod.snd).getD 0 := by
  simp [insertedSize]

/-- No size of the bunch is cut when it is processed. -/
def Small (cmds : List Command) : Prop :=
  ∀ c ∈ cmds, ∀ h n, c.inserted = some (h, n) → n < 2 ^ 32

/-- The number of commands that insert a row for a hash. -/
def insertions (cmds : List Command) (h : Hash) : Nat := cmds.countP fun c => c.Inserts h

theorem insertions_cons (c : Command) (cs : List Command) (h : Hash) :
    insertions (c :: cs) h = insertions cs h + if c.Inserts h then 1 else 0 := by
  simp [insertions, List.countP_cons]

theorem insertions_snoc (c : Command) (h : Hash) :
    insertions (cs ++ [c]) h = insertions cs h + if c.Inserts h then 1 else 0 := by
  simp [insertions, List.countP_cons]

/-! ## The invariant -/

namespace State

/-- The flag of a row; a missing row counts as unpinned. -/
def rowFlag (s : State) (h : Hash) : PinFlag := ((s.cacheCatalog.find? h).map Entry.flag).getD .unpinned

/-- The sizes of the pinned chunks. -/
def pinnedTotal (s : State) : Nat := s.pinnedChunks.sum fun _ n => n

/-- The state agrees with the true sizes, `cmds` being the commands that are still
to be processed. -/
structure Consistent (sizeOf : Hash → Nat) (cmds : List Command) (s : State) : Prop where
  rows : ∀ {h e}, s.cacheCatalog.find? h = some e → e.size = sizeOf h
  gauge : s.gauge = s.total
  total : s.total + insertedSize cmds < 2 ^ 64
  chunks : ∀ {h n}, s.pinnedChunks.find? h = some n → n = sizeOf h
  pinned : s.pinned = s.pinnedTotal
  pinnedLt : s.pinnedTotal < 2 ^ 64
  fresh : ∀ {h e}, s.cacheCatalog.find? h = some e → (ofLex e.acseq).2 < s.seq
  distinct : Distinct s.cacheCatalog
  sizes : ∀ {c h n}, c ∈ cmds → c.inserted = some (h, n) → n = sizeOf h
  flags : ∀ {h}, s.pinnedChunks.contains h = false → flagAfter cmds h (s.rowFlag h) = .unpinned
  queued : ∀ {h}, s.pinnedChunks.contains h = false → insertions cmds h ≤ 1 ∧
    (insertions cmds h = 1 → s.cacheCatalog.find? h = none)
  trash : ∀ {h}, h ∈ s.trash → s.cacheCatalog.find? h = none ∧ insertions cmds h = 0

/-- The open files reported to the clean-ups of a bunch belong to pinned chunks, as
far as they are in the cache. -/
def OpenSafe (s : State) (cmds : List Command) (isOpen : Nat → Nat → Hash → Bool) : Prop :=
  ∀ k j h, (s.cacheCatalog.contains h = true ∨ ∃ c ∈ cmds, c.Inserts h) →
    s.cleanupUnusedFirst = true → isOpen k j h = true → s.pinnedChunks.contains h = true

variable {isOpen : Nat → Nat → Hash → Bool}

theorem OpenSafe.openPinned {s : State} {cmds : List Command} (h : s.OpenSafe cmds isOpen)
    (k j : Nat) : s.OpenPinned (isOpen k j) :=
  fun x e he hc ho => h k j x (.inl (contains_eq_true.mpr ⟨e, he⟩)) hc ho

variable {sizeOf : Hash → Nat} {s s' : State} {cmds : List Command}

section

variable (h : Consistent sizeOf cmds s)
include h

theorem Consistent.total_lt : s.total < 2 ^ 64 := by
  have := h.total
  omega

theorem Consistent.cleanedUp (hc : CleanedUp s s') : Consistent sizeOf cmds s' := by
  have hframe := hc.frame
  have hchunks : s'.pinnedChunks = s.pinnedChunks := by rw [hframe]
  have hpinned : s'.pinned = s.pinned := by rw [hframe]
  have hseq : s'.seq = s.seq := by rw [hframe]
  have hgone : ∀ {x}, s.cacheCatalog.find? x = none → s'.cacheCatalog.find? x = none := by
    intro x hx
    by_contra hne
    obtain ⟨e', he'⟩ := ne_none_iff_exists'.mp hne
    obtain ⟨e, he, -⟩ := hc.rows he'
    rw [hx] at he
    cases he
  refine
    { rows := fun {x e'} he' => ?_
      gauge := hc.gauge
      total := ?_
      chunks := fun {x n} hx => h.chunks (hchunks ▸ hx)
      pinned := by rw [hpinned, h.pinned, pinnedTotal, pinnedTotal, hchunks]
      pinnedLt := by rw [pinnedTotal, hchunks]; exact h.pinnedLt
      fresh := fun {x e'} he' => ?_
      distinct := fun x x' e e' he he' ha => ?_
      sizes := h.sizes
      flags := fun {x} hx => ?_
      queued := fun {x} hx => ?_
      trash := fun {x} hx => ?_ }
  · obtain ⟨e, he, hsize, -⟩ := hc.rows he'
    rw [hsize, h.rows he]
  · have h₁ := hc.total
    have h₂ := h.total
    omega
  · obtain ⟨e, he, -, hacseq, -⟩ := hc.rows he'
    rw [hacseq, hseq]
    exact h.fresh he
  · obtain ⟨e₀, he₀, -, ha₀, -⟩ := hc.rows he
    obtain ⟨e₀', he₀', -, ha₀', -⟩ := hc.rows he'
    exact h.distinct _ _ _ _ he₀ he₀' (ha₀.symm.trans (ha.trans ha₀'))
  · rw [hchunks] at hx
    refine flagAfter_unpinned (h.flags hx) ?_
    rw [rowFlag]
    cases he' : s'.cacheCatalog.find? x with
    | none => exact .inl rfl
    | some e' =>
      obtain ⟨e, he, -, -, hf | ⟨-, hp | hb⟩⟩ := hc.rows he'
      · rw [rowFlag, he]
        by_cases hu : e.flag = .unpinned
        · exact .inl (hf.trans hu)
        · exact .inr hu
      · rw [hp] at hx
        cases hx
      refine .inr ?_
      rw [rowFlag, he]
      change e.flag ≠ .unpinned
      rw [hb]
      nofun
  · obtain ⟨h₁, h₂⟩ := h.queued (hchunks ▸ hx)
    exact ⟨h₁, fun hone => hgone (h₂ hone)⟩
  obtain ⟨new, hnew, hmem⟩ := hc.trash
  rw [hnew, List.mem_append] at hx
  rcases hx with hx | hx
  · obtain ⟨h₁, h₂⟩ := h.trash hx
    exact ⟨hgone h₁, h₂⟩
  obtain ⟨hnp, ⟨e, he⟩, hnone⟩ := hmem x hx
  obtain ⟨h₁, h₂⟩ := h.queued hnp
  refine ⟨hnone, ?_⟩
  by_contra hne
  rw [h₂ (by omega)] at he
  cases he

variable {c : Command} {x : Hash} {isVolatile : Bool} {f : PinFlag}

omit h in
theorem Consistent.insertOrReplace (h : Consistent sizeOf (c :: cmds) s)
    (hc : c.inserted = some (x, sizeOf x)) (hf : c.flagOf x = some f)
    (hother : ∀ y, y ≠ x → c.flagOf y = none) :
    Consistent sizeOf cmds (s.insertOrReplace x (sizeOf x) isVolatile f) := by
  have hins : c.Inserts x := ⟨_, hc⟩
  have hnot : ∀ {y}, y ≠ x → ¬c.Inserts y := by
    rintro y hy ⟨n, hn⟩
    rw [hc] at hn
    cases hn
    exact hy rfl
  have hfind : ∀ y, (s.insertOrReplace x (sizeOf x) isVolatile f).cacheCatalog.find? y =
      if y = x then some ⟨sizeOf x, acSeq isVolatile s.seq, f⟩ else s.cacheCatalog.find? y :=
    fun y => find?_put _ _ _ _
  have htot := h.total
  rw [insertedSize_cons, hc] at htot
  simp only [map_some, getD_some] at htot
  -- the gauge and the sum grow by the same amount
  have hsum : (s.insertOrReplace x (sizeOf x) isVolatile f).gauge =
      (s.insertOrReplace x (sizeOf x) isVolatile f).total ∧
      (s.insertOrReplace x (sizeOf x) isVolatile f).total ≤ s.total + sizeOf x := by
    have hput : (s.insertOrReplace x (sizeOf x) isVolatile f).total =
      (s.cacheCatalog.put x ⟨sizeOf x, acSeq isVolatile s.seq, f⟩).sum fun _ e => e.size := rfl
    rw [hput, State.insertOrReplace]
    cases hx : s.cacheCatalog.find? x with
    | none =>
      have hcon : s.cacheCatalog.contains x = false := by rw [contains, hx]; rfl
      have hs := sum_put_of_none (fun _ (e : Entry) => e.size) hx
        (v := ⟨sizeOf x, acSeq isVolatile s.seq, f⟩)
      rw [hcon]
      dsimp only
      dsimp only at hs
      rw [hs, h.gauge, if_neg Bool.false_ne_true, add64_of_lt (by omega), State.total]
      omega
    | some e =>
      have hcon : s.cacheCatalog.contains x = true := by rw [contains, hx]; rfl
      have hs := sum_put (fun _ (e : Entry) => e.size) hx
        (u := ⟨sizeOf x, acSeq isVolatile s.seq, f⟩)
      have hr := h.rows hx
      rw [hcon]
      dsimp only at hs ⊢
      rw [if_pos rfl, h.gauge, State.total]
      omega
  refine
    { rows := fun {y e} he => ?_
      gauge := hsum.1
      total := by have := hsum.2; omega
      chunks := h.chunks
      pinned := h.pinned
      pinnedLt := h.pinnedLt
      fresh := fun {y e} he => ?_
      distinct := fun y y' e e' he he' ha => ?_
      sizes := fun hm => h.sizes (.tail _ hm)
      flags := fun {y} hy => ?_
      queued := fun {y} hy => ?_
      trash := fun {y} hy => ?_ }
  · rw [hfind] at he
    split at he
    · rename_i hyx
      cases he
      rw [hyx]
    · exact h.rows he
  · change _ < s.seq + 1
    rw [hfind] at he
    split at he
    · cases he
      exact lt_succ_self _
    · exact (h.fresh he).trans (lt_succ_self _)
  · -- the new number is above all others
    have hnew : ∀ {z ez}, s.cacheCatalog.find? z = some ez →
        ez.acseq ≠ acSeq isVolatile s.seq := by
      intro z ez hz heq
      have := h.fresh hz
      rw [heq] at this
      exact lt_irrefl _ this
    rw [hfind] at he he'
    split at he <;> split at he'
    · rename_i h₁ h₂
      exact h₁.trans h₂.symm
    · cases he
      exact absurd ha.symm (hnew he')
    · cases he'
      exact absurd ha (hnew he)
    · exact h.distinct _ _ _ _ he he' ha
  · have hfl := h.flags hy
    rw [flagAfter_cons] at hfl
    rw [rowFlag, hfind]
    by_cases hyx : y = x
    · rw [hyx, hf] at hfl
      rw [if_pos hyx, hyx]
      exact hfl
    · rw [hother y hyx] at hfl
      rw [if_neg hyx]
      exact hfl
  · obtain ⟨h₁, h₂⟩ := h.queued hy
    rw [insertions_cons] at h₁ h₂
    rw [hfind]
    by_cases hyx : y = x
    · subst hyx
      rw [if_pos hins] at h₁
      exact ⟨by omega, fun hone => by omega⟩
    · rw [if_neg (hnot hyx), add_zero] at h₁ h₂
      rw [if_neg hyx]
      exact ⟨h₁, h₂⟩
  obtain ⟨h₁, h₂⟩ := h.trash hy
  rw [insertions_cons] at h₂
  have hyx : y ≠ x := by
    rintro rfl
    rw [if_pos hins] at h₂
    omega
  rw [if_neg (hnot hyx)] at h₂
  rw [hfind, if_neg hyx]
  exact ⟨h₁, h₂⟩

variable {n : Nat}

theorem insertEntry_cleanedUp {isOpen}
    (hopen : ∀ j, s.OpenPinned (isOpen j)) (hi : s.insertEntry x n isVolatile f isOpen = some s') :
    ∃ s₁, CleanedUp s s₁ ∧ s' = s₁.insertOrReplace x n isVolatile f := by
  obtain ⟨s₁, hroom, rfl⟩ := map_eq_some_iff.mp hi
  refine ⟨s₁, ?_, rfl⟩
  rw [makeRoom] at hroom
  split at hroom
  · dsimp only at hroom
    split at hroom
    · cases hroom
      exact (doCleanup_spec h.gauge h.total_lt h.distinct hopen).1
    · cases hroom
  · cases hroom
    exact CleanedUp.refl h.gauge

end

/-- What a bunch leaves alone. -/
structure Flushed (s : State) (cmds : List Command) (s' : State) : Prop where
  pinnedChunks : s'.pinnedChunks = s.pinnedChunks
  cleanupUnusedFirst : s'.cleanupUnusedFirst = s.cleanupUnusedFirst
  commandBuffer : s'.commandBuffer = s.commandBuffer
  spawned : s'.spawned = s.spawned
  limits : s'.cleanupThreshold = s.cleanupThreshold
  held : s'.held = s.held
  contains : ∀ {h}, s'.cacheCatalog.contains h = true →
    s.cacheCatalog.contains h = true ∨ ∃ c ∈ cmds, c.Inserts h

theorem CleanedUp.flushed {m} (hc : CleanedUp s s') (hx : c.inserted = some (x, m)) :
    Flushed s [c] (s'.insertOrReplace x n isVolatile f) := by
  constructor
  case contains =>
    intro y hy
    obtain ⟨e, he⟩ := contains_eq_true.mp hy
    rcases of_put he with ⟨rfl, -⟩ | ⟨-, he⟩
    · exact .inr ⟨c, .head _, m, hx⟩
    · obtain ⟨e₀, he₀, -⟩ := hc.rows he
      exact .inl (contains_eq_true.mpr ⟨e₀, he₀⟩)
  all_goals
    rw [hc.frame]
    rfl

variable {g : Entry → Entry} {t : Table Hash Entry}

theorem contains_adjust {y : Hash} : (t.adjust x g).contains y = t.contains y := by
  rw [contains, find?_adjust, contains]
  split
  · rename_i hyx
    rw [hyx, isSome_map]
  · rfl

theorem total_adjust (hg : ∀ e, (g e).size = e.size) :
    ((t.adjust x g).sum fun _ e => e.size) = t.sum fun _ e => e.size := by
  rw [adjust, sum_mapValues]
  refine sum_congr fun y e _ => ?_
  split
  · exact hg e
  · rfl

section

variable (h : Consistent sizeOf (c :: cmds) s)
include h

theorem Consistent.adjustRow {seq : Nat} (hc : c.inserted = none) (hsize : ∀ e, (g e).size = e.size)
    (hseq : s.seq ≤ seq)
    (hacseq : ∀ e, (g e).acseq = e.acseq ∨ ((ofLex (g e).acseq).2 = s.seq ∧ s.seq < seq))
    (hflag : ∀ e, (g e).flag = (c.flagOf x).getD e.flag)
    (habsent : (c.flagOf x).getD .unpinned = .unpinned) (hother : ∀ y, y ≠ x → c.flagOf y = none) :
    Consistent sizeOf cmds { s with cacheCatalog := s.cacheCatalog.adjust x g, seq := seq } := by
  have hnone : ∀ {y}, (s.cacheCatalog.adjust x g).find? y = none ↔
      s.cacheCatalog.find? y = none := by
    intro y
    rw [find?_adjust]
    split
    · rename_i hyx
      rw [hyx, map_eq_none_iff]
    · rfl
  have htot := total_adjust (t := s.cacheCatalog) (x := x) hsize
  have hno : ∀ {y}, insertions (c :: cmds) y = insertions cmds y := by
    intro y
    rw [insertions_cons, if_neg, add_zero]
    rintro ⟨n, hn⟩
    rw [hc] at hn
    cases hn
  refine
    { rows := fun {y e'} he' => ?_
      gauge := h.gauge.trans htot.symm
      total := ?_
      chunks := h.chunks
      pinned := h.pinned
      pinnedLt := h.pinnedLt
      fresh := fun {y e'} he' => ?_
      distinct := fun y y' e e' he he' ha => ?_
      sizes := fun hm => h.sizes (.tail _ hm)
      flags := fun {y} hy => ?_
      queued := fun {y} hy => ?_
      trash := fun {y} hy => ?_ }
  · obtain ⟨e, he, ⟨-, rfl⟩ | ⟨-, rfl⟩⟩ := of_adjust he'
    · rw [hsize, h.rows he]
    · exact h.rows he
  · have hlt := h.total
    rw [insertedSize_cons, hc, map_none, getD_none, zero_add, State.total] at hlt
    change (s.cacheCatalog.adjust x g).sum (fun _ e => e.size) + insertedSize cmds < 2 ^ 64
    rw [htot]
    exact hlt
  · change _ < seq
    obtain ⟨e, he, ⟨-, rfl⟩ | ⟨-, rfl⟩⟩ := of_adjust he'
    · rcases hacseq e with ha | ⟨ha, hlt⟩
      · rw [ha]
        exact (h.fresh he).trans_le hseq
      · omega
    · exact (h.fresh he).trans_le hseq
  · -- two rows with one number: an old number is below the next one
    obtain ⟨e₀, he₀, hcase⟩ := of_adjust he
    obtain ⟨e₀', he₀', hcase'⟩ := of_adjust he'
    have hold := h.fresh he₀
    have hold' := h.fresh he₀'
    rcases hcase with ⟨hyx, rfl⟩ | ⟨-, rfl⟩ <;> rcases hcase' with ⟨hyx', rfl⟩ | ⟨-, rfl⟩
    · exact hyx.trans hyx'.symm
    · rcases hacseq e₀ with hg | ⟨hg, -⟩
      · exact h.distinct _ _ _ _ he₀ he₀' (hg.symm.trans ha)
      · rw [ha] at hg
        omega
    · rcases hacseq e₀' with hg | ⟨hg, -⟩
      · exact h.distinct _ _ _ _ he₀ he₀' (ha.trans hg)
      · rw [← ha] at hg
        omega
    · exact h.distinct _ _ _ _ he₀ he₀' ha
  · have hfl := h.flags hy
    rw [flagAfter_cons] at hfl
    have hrow : rowFlag { s with cacheCatalog := s.cacheCatalog.adjust x g, seq := seq } y =
        (c.flagOf y).getD (s.rowFlag y) := by
      rw [rowFlag, rowFlag]
      change (((s.cacheCatalog.adjust x g).find? y).map Entry.flag).getD _ = _
      rw [find?_adjust]
      by_cases hyx : y = x
      · rw [if_pos hyx, hyx]
        cases s.cacheCatalog.find? x with
        | none => exact habsent.symm
        | some e => exact hflag e
      · rw [if_neg hyx, hother y hyx]
        rfl
    rw [hrow]
    exact hfl
  · obtain ⟨h₁, h₂⟩ := h.queued hy
    rw [hno] at h₁ h₂
    exact ⟨h₁, fun hone => hnone.mpr (h₂ hone)⟩
  · obtain ⟨h₁, h₂⟩ := h.trash hy
    rw [hno] at h₂
    exact ⟨hnone.mpr h₁, h₂⟩

theorem Consistent.insertEntry {isOpen} (hc : c.inserted = some (x, n)) (hf : c.flagOf x = some f)
    (hother : ∀ y, y ≠ x → c.flagOf y = none) (hlt : n < 2 ^ 32)
    (hopen : ∀ j, s.OpenPinned (isOpen j))
    (hi : s.insertEntry x (toUnsigned n) isVolatile f isOpen = some s') :
    Consistent sizeOf cmds s' ∧ Flushed s [c] s' := by
  rw [toUnsigned_of_lt hlt] at hi
  obtain rfl := h.sizes (.head _) hc
  obtain ⟨s₁, hclean, rfl⟩ := insertEntry_cleanedUp h hopen hi
  exact ⟨(h.cleanedUp hclean).insertOrReplace hc hf hother, hclean.flushed hc⟩

theorem Consistent.processCommand {isOpen : Nat → Hash → Bool} (hsmall : Small (c :: cmds))
    (hopen : ∀ j, s.OpenPinned (isOpen j)) (hp : s.processCommand isOpen c = some s') :
    Consistent sizeOf cmds s' ∧ Flushed s [c] s' := by
  have hlt := hsmall c (.head _)
  cases c with
  | touch x =>
    cases hp
    refine ⟨h.adjustRow rfl (fun _ => rfl) (le_succ _) (fun e => .inr ⟨rfl, lt_succ_self _⟩)
      (fun _ => rfl) rfl fun _ _ => rfl, rfl, rfl, rfl, rfl, rfl, rfl, fun hy => .inl ?_⟩
    rwa [contains_adjust] at hy
  | unpin x =>
    cases hp
    refine ⟨h.adjustRow rfl (fun _ => rfl) (le_refl _) (fun e => .inl rfl)
      (fun _ => by simp [flagOf]) (by simp [flagOf])
      fun y hy => by simp [flagOf, Ne.symm hy],
      rfl, rfl, rfl, rfl, rfl, rfl, fun hy => .inl ?_⟩
    rwa [contains_adjust] at hy
  | insert x n | insertVolatile x n | pin x n | pinRegular x n =>
    exact h.insertEntry rfl (by simp [flagOf])
      (fun y hy => by simp [flagOf, Ne.symm hy]) (hlt x n rfl) hopen hp

end

theorem Flushed.cons_or {s₁} (hp : Flushed s [c] s₁) (hx : s₁.cacheCatalog.contains x = true ∨
      ∃ d ∈ cmds, d.Inserts x) :
    s.cacheCatalog.contains x = true ∨ ∃ d ∈ c :: cmds, d.Inserts x := by
  rcases hx with hx | ⟨d, hd, hins⟩
  · rcases hp.contains hx with hx | ⟨d, hd, hins⟩
    · exact .inl hx
    · exact .inr ⟨d, List.mem_singleton.1 hd ▸ .head _, hins⟩
  · exact .inr ⟨d, .tail _ hd, hins⟩

theorem OpenSafe.tail (h : s.OpenSafe (c :: cmds) isOpen) (hp : Flushed s [c] s') :
    s'.OpenSafe cmds fun k => isOpen (k + 1) := by
  intro k j x hx hc ho
  rw [hp.pinnedChunks]
  exact h (k + 1) j x (hp.cons_or hx) (hp.cleanupUnusedFirst ▸ hc) ho

theorem Flushed.nil (s : State) : Flushed s [] s := ⟨rfl, rfl, rfl, rfl, rfl, rfl, .inl⟩

theorem Flushed.cons {s₁} (h : Flushed s₁ cmds s') (hp : Flushed s [c] s₁) :
    Flushed s (c :: cmds) s' :=
  ⟨h.pinnedChunks.trans hp.pinnedChunks, h.cleanupUnusedFirst.trans hp.cleanupUnusedFirst,
    h.commandBuffer.trans hp.commandBuffer, h.spawned.trans hp.spawned, h.limits.trans hp.limits,
    h.held.trans hp.held, fun hx => hp.cons_or (h.contains hx)⟩

theorem Consistent.processCommandBunch (h : Consistent sizeOf cmds s) (hsmall : Small cmds)
    (hopen : s.OpenSafe cmds isOpen) (hp : processCommandBunch isOpen cmds s = some s') :
    Consistent sizeOf [] s' ∧ Flushed s cmds s' := by
  induction cmds generalizing s isOpen with
  | nil =>
    cases hp
    exact ⟨h, Flushed.nil _⟩
  | cons c cs ih =>
    obtain ⟨s₁, h₁, hp⟩ := bind_eq_some_iff.mp hp
    obtain ⟨hcons, hproc⟩ := h.processCommand hsmall (fun j => hopen.openPinned 0 j) h₁
    obtain ⟨hcons', hfl⟩ := ih hcons
      (fun d hd => hsmall d (.tail _ hd)) (hopen.tail hproc) hp
    exact ⟨hcons', hfl.cons hproc⟩

end State

end Cvmfs.Quota
