import Mathlib.Algebra.Order.Ring.Int

/-! # The chunk of an offset

The chunk of an offset is found by binary search in the list of chunks, with 32-bit indices. -/

namespace Cvmfs.Client

structure FileChunkList where
  size : Nat
  offset : Nat → Nat
  nonempty : 0 < size
  first : offset 0 = 0
  increasing : ∀ i j, i < j → j < size → offset i < offset j
  bounded : ∀ i < size, offset i < 2 ^ 63

namespace FileChunkList

variable (l : FileChunkList) (off : Nat)

/-- `AtPtr`, whose index is in the list. -/
def atPtr (i : Nat) : Option Nat := if i < l.size then some (l.offset i) else none

/-- The loop of `FindChunkIdx`; `none` when it goes on after `fuel` turns, reads outside of the
list or lets an index get below 0. -/
def findFrom : Nat → Nat → Nat → Nat → Option Nat
  | 0, _, _, _ => none
  | fuel + 1, low, high, idx =>
    if low < high then do
      if off < (← l.atPtr idx) then
        if 0 < high ∧ 0 < idx ∧ low ≤ idx - 1 then
          findFrom fuel low (idx - 1) (low + (idx - 1 - low) / 2)
        else none
      else if idx = l.size - 1 then some idx
      else if off < (← l.atPtr (idx + 1)) then some idx
      else if idx + 1 ≤ high then findFrom fuel (idx + 1) high (idx + 1 + (high - (idx + 1)) / 2)
      else none
    else some idx

/-- One turn for each chunk is enough. -/
def findChunkIdx : Option Nat :=
  let high := (l.size - 1) % 2 ^ 32
  l.findFrom off l.size 0 high (high / 2)

/-- The chunk starts at the offset or before it, and the next one behind it. -/
def Holds (i : Nat) : Prop :=
  i < l.size ∧ l.offset i ≤ off ∧ (i + 1 < l.size → off < l.offset (i + 1))

variable {l off}

theorem Holds.le {i j : Nat} (hi : l.Holds off i) (hj : l.Holds off j) : j ≤ i := by
  by_contra hlt
  have hnext := hi.2.2 (by have := hj.1; omega)
  have hle := hj.2.1
  rcases Nat.lt_or_eq_of_le (show i + 1 ≤ j by omega) with h | rfl
  · have := l.increasing _ _ h hj.1
    omega
  · omega

/-- The two indices get closer in every turn, and no chunk up to the lower one is too far. -/
theorem findFrom_spec (off fuel low high : Nat) (hfuel : high - low < fuel) (hle : low ≤ high)
    (hhigh : high < l.size) (hlow : l.offset low ≤ off) :
    ∃ i ≤ high, l.findFrom off fuel low high (low + (high - low) / 2) = some i ∧
      ((high + 1 < l.size → off < l.offset (high + 1)) → l.Holds off i) := by
  induction fuel generalizing low high with
  | zero => omega
  | succ fuel ih =>
    rw [findFrom]
    split
    case isFalse =>
      obtain rfl : low = high := by omega
      exact ⟨low, le_rfl, by simp, fun hnext => ⟨hhigh, hlow, hnext⟩⟩
    generalize hidx : low + (high - low) / 2 = idx
    simp only [atPtr, if_pos (show idx < l.size by omega), if_pos (show idx + 1 < l.size by omega),
      Option.bind_eq_bind, Option.bind_some, if_neg (show ¬ idx = l.size - 1 by omega)]
    split
    case isTrue hoff =>
      have hne : low ≠ idx := by
        rintro rfl
        omega
      rw [if_pos (by omega)]
      obtain ⟨i, hi, hfind, hholds⟩ :=
        ih low (idx - 1) (by omega) (by omega) (by omega) hlow
      rw [Nat.sub_add_cancel (by omega)] at hholds
      exact ⟨i, by omega, hfind, fun _ => hholds fun _ => hoff⟩
    split
    case isTrue hoff => exact ⟨idx, by omega, rfl, fun _ => ⟨by omega, by omega, fun _ => hoff⟩⟩
    rw [if_pos (by omega)]
    exact ih (idx + 1) high (by omega) (by omega) hhigh (by omega)

theorem exists_holds (hshort : l.size ≤ 2 ^ 32) (off : Nat) :
    ∃ i, l.findChunkIdx off = some i ∧ l.Holds off i := by
  have hpos := l.nonempty
  obtain ⟨i, -, hi, hholds⟩ := findFrom_spec (l := l) off l.size 0 (l.size - 1) (by omega)
    (Nat.zero_le _) (by omega) (by simp [l.first])
  refine ⟨i, ?_, hholds (by omega)⟩
  unfold findChunkIdx
  rw [Nat.mod_eq_of_lt (by omega)]
  simpa using hi

/-- Every offset is found in the one chunk that holds it exactly if all indices have 32 bits. -/
theorem chunks_found_iff (l : FileChunkList) :
    (∀ off < 2 ^ 64, ∃ i, l.findChunkIdx off = some i ∧ l.Holds off i ∧
      ∀ j, l.Holds off j → j = i) ↔ l.size ≤ 2 ^ 32 := by
  have hpos := l.nonempty
  have hmod : (l.size - 1) % 2 ^ 32 ≤ l.size - 1 := Nat.mod_le _ _
  have hfind := fun off => findFrom_spec (l := l) off l.size 0 ((l.size - 1) % 2 ^ 32) (by omega)
    (Nat.zero_le _) (by omega) (by simp [l.first])
  simp only [Nat.zero_add, Nat.sub_zero] at hfind
  constructor
  · intro h
    by_contra hlong
    have hbound := l.bounded (2 ^ 32) (by omega)
    obtain ⟨i, hi, -, huniq⟩ := h (l.offset (2 ^ 32)) (by omega)
    obtain ⟨i', hle, hi', -⟩ := hfind (l.offset (2 ^ 32))
    cases hi.symm.trans hi'
    have := huniq (2 ^ 32) ⟨by omega, le_rfl, l.increasing _ _ (Nat.lt_succ_self _)⟩
    omega
  · intro hshort off _
    obtain ⟨i, -, hi, hholds⟩ := hfind off
    have hholds := hholds (by omega)
    exact ⟨i, hi, hholds, fun j hj => (hholds.le hj).antisymm (hj.le hholds)⟩

/-- One chunk more than there are indices: the chunk behind the last index is not found. -/
theorem chunk_behind_indices : ∃ l : FileChunkList, l.size = 2 ^ 32 + 1 ∧
    ∃ off < 2 ^ 64, l.Holds off (2 ^ 32) ∧ l.findChunkIdx off = some 0 :=
  ⟨⟨2 ^ 32 + 1, id, by omega, rfl, fun _ _ h _ => h, fun i hi => by simp; omega⟩, rfl, 2 ^ 32,
    by omega, ⟨Nat.lt_succ_self _, le_rfl, fun h => absurd h (lt_irrefl _)⟩, rfl⟩

end FileChunkList

end Cvmfs.Client
