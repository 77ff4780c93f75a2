import Mathlib.Algebra.Order.Ring.Int

/-! # Unsigned differences

Numbers of 64 bits wrap around when more is subtracted than there is. -/

namespace Cvmfs.Lib

def sub64 (a b : Nat) : Nat := (a + (2 ^ 64 - b)) % 2 ^ 64

theorem sub64_of_le {a b : Nat} (ha : a < 2 ^ 64) (h : b ≤ a) : sub64 a b = a - b := by
  rw [sub64]
  omega

end Cvmfs.Lib
