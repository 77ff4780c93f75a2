import Mathlib.Algebra.Order.Ring.Int

/-! # Consecutive pieces

Pieces of a list that lie one behind the other and cover a range. -/

namespace Cvmfs.Lib

open List

variable {α : Type}

/-- The `len` elements of a list from position `start` on. -/
def slice (l : List α) (start len : Nat) : List α := (l.drop start).take len

variable (l : List α)

theorem slice_append (start a b : Nat) :
    slice l start a ++ slice l (start + a) b = slice l start (a + b) := by
  rw [slice, slice, slice, take_add, drop_drop]

theorem slice_extend {start pos} (h : start ≤ pos) (n : Nat) :
    slice l start (pos - start) ++ slice l pos n = slice l start (pos + n - start) := by
  have := slice_append l start (pos - start) n
  rwa [Nat.add_sub_cancel' h, ← Nat.sub_add_comm h] at this

@[simp] theorem slice_zero (start : Nat) : slice l start 0 = [] := take_zero

variable {a b : Nat} {len start : Nat} {l : List α}

theorem slice_slice (h : a + b ≤ len) : slice (slice l start len) a b = slice l (start + a) b := by
  rw [slice, slice, slice, drop_take, drop_drop, take_take, Nat.min_eq_left (by omega)]

theorem length_slice (h : start + len ≤ l.length) : (slice l start len).length = len := by
  rw [slice, length_take, length_drop]
  omega

/-- Pieces, given by offset and length, that lie one behind the other from `start` to
`stop`. -/
inductive Tiles : Nat → List (Nat × Nat) → Nat → Prop
  | nil (start : Nat) : Tiles start [] start
  | cons {start len stop : Nat} {ps : List (Nat × Nat)} :
    Tiles (start + len) ps stop → Tiles start ((start, len) :: ps) stop

variable {ps : List (Nat × Nat)}

section

variable (h : Tiles a ps b)
include h

theorem Tiles.append {c qs} (h' : Tiles b qs c) : Tiles a (ps ++ qs) c := by
  induction h with
  | nil => exact h'
  | cons _ ih => exact .cons (ih h')

theorem Tiles.snoc (len : Nat) : Tiles a (ps ++ [(b, len)]) (b + len) := h.append (.cons (.nil _))

theorem Tiles.le : a ≤ b := by
  induction h with
  | nil => exact le_rfl
  | cons _ ih => omega

theorem Tiles.start_le : ∀ p ∈ ps, a ≤ p.1 := by
  induction h with
  | nil => exact forall_mem_nil _
  | cons _ ih =>
    refine forall_mem_cons.2 ⟨le_rfl, fun p hp => ?_⟩
    exact (Nat.le_add_right _ _).trans (ih p hp)

theorem Tiles.stop_le : ∀ p ∈ ps, p.1 + p.2 ≤ b := by
  induction h with
  | nil => exact forall_mem_nil _
  | cons htail ih => exact forall_mem_cons.2 ⟨htail.le, ih⟩

theorem Tiles.next {i p} (hp : ps[i]? = some p) :
    p.1 + p.2 = (ps[i + 1]?.map Prod.fst).getD b := by
  induction h generalizing i with
  | nil => simp at hp
  | cons htail ih =>
    cases i with
    | zero =>
      cases hp
      cases htail <;> rfl
    | succ i => exact ih hp

end

theorem Tiles.single {p} (h : Tiles a [p] b) : p = (a, b - a) := by
  cases h with
  | @cons _ len _ _ h =>
    cases h
    rw [Nat.add_sub_cancel_left]

theorem Tiles.several {p q} (h : Tiles a (p :: q :: ps) b) (hpos : ∀ r ∈ p :: q :: ps, 0 < r.2) :
    ∀ r ∈ p :: q :: ps, ¬(r.1 = a ∧ r.2 = b - a) := by
  cases h with
  | @cons _ len _ _ h =>
    have hstart := h.start_le
    have hlen : 0 < len := hpos (a, len) (.head _)
    refine forall_mem_cons.2 ⟨?_, fun r hr hwhole => ?_⟩
    · cases h with
      | @cons _ len' _ _ h' =>
        have hlen' : 0 < len' := hpos (a + len, len') (.tail _ (.head _))
        have hle := h'.le
        rintro ⟨-, hwhole⟩
        simp only at hwhole
        omega
    · have := hstart r hr
      omega

theorem Tiles.sum (h : Tiles a ps b) : a + (ps.map Prod.snd).sum = b := by
  induction h with
  | nil => simp
  | cons _ ih => simpa [Nat.add_assoc] using ih

end Cvmfs.Lib
