import Mathlib.Algebra.Order.Ring.Int

/-! # Decimal numerals as bytes

Numbers as the text that the C library prints, and read back as `scanf` does: leading white
space, a sign, and as many digits as there are. -/

namespace Cvmfs.Lib.Decimal

open List Nat

/-- The bytes of an ASCII text. -/
def ascii (s : String) : List UInt8 := s.toList.map fun c => c.toNat.toUInt8

def isDigit (b : UInt8) : Bool := decide (48 ≤ b.toNat ∧ b.toNat ≤ 57)

def isSpace (b : UInt8) : Bool := decide (b.toNat = 32 ∨ 9 ≤ b.toNat ∧ b.toNat ≤ 13)

def numeral (n : Nat) : List UInt8 := (toDigits 10 n).map fun c => c.toNat.toUInt8

/-- A number with its sign. -/
def signed (z : Int) : List UInt8 := if z < 0 then 45 :: numeral z.natAbs else numeral z.natAbs

def value (digits : List UInt8) : Nat := digits.foldl (fun v d => 10 * v + (d.toNat - 48)) 0

/-- `%lu` of `scanf`: a negative number is taken modulo the range, and one that is too large is
the largest. -/
def scanUnsigned (bits : Nat) (s : List UInt8) : Option Nat :=
  let s := s.dropWhile isSpace
  let negative := s.head? = some 45
  let s := if negative ∨ s.head? = some 43 then s.tail else s
  let digits := s.takeWhile isDigit
  if digits = [] then none
  else if 2 ^ bits ≤ value digits then some (2 ^ bits - 1)
  else if negative then some ((2 ^ bits - value digits) % 2 ^ bits)
  else some (value digits)

/-- `%ld` of `scanf`: a number out of range is the nearest one in range. -/
def scanSigned (bits : Nat) (s : List UInt8) : Option Int :=
  let s := s.dropWhile isSpace
  let negative := s.head? = some 45
  let s := if negative ∨ s.head? = some 43 then s.tail else s
  let digits := s.takeWhile isDigit
  if digits = [] then none
  else if negative then some (max (-2 ^ (bits - 1)) (-(value digits : Int)))
  else some (min (2 ^ (bits - 1) - 1) (value digits))

theorem isDigit_char_iff (c : Char) (h : c.isDigit = true) :
    isDigit c.toNat.toUInt8 = true ∧ c.toNat.toUInt8.toNat = c.toNat := by
  simp only [Char.isDigit, Bool.and_eq_true, decide_eq_true_eq] at h
  have hlow : 48 ≤ c.toNat := h.1
  have hhigh : c.toNat ≤ 57 := h.2
  have hval : c.toNat.toUInt8.toNat = c.toNat := by
    simp only [toUInt8_eq, UInt8.toNat_ofNat']
    omega
  exact ⟨by simp [isDigit, hval, hlow, hhigh], hval⟩

variable {b : UInt8}

theorem isDigit_of_mem_numeral {n : Nat} (h : b ∈ numeral n) : isDigit b = true := by
  obtain ⟨c, hc, rfl⟩ := mem_map.1 h
  exact (isDigit_char_iff c (isDigit_of_mem_toDigits (by decide) (by decide) hc)).1

variable (n : Nat)

theorem numeral_ne_nil : numeral n ≠ [] := by
  simp [numeral]

theorem value_numeral : value (numeral n) = n := by
  have hdigits : ∀ (cs : List Char) (v : Nat), (∀ c ∈ cs, c.isDigit = true) →
      (cs.map fun c => c.toNat.toUInt8).foldl (fun v d => 10 * v + (d.toNat - 48)) v =
        ofDigitChars 10 cs v := by
    intro cs
    induction cs with
    | nil => intro v _; simp
    | cons c cs ih =>
      intro v h
      have hc := (isDigit_char_iff c (h c (by simp))).2
      rw [map_cons, foldl_cons, ofDigitChars_cons, hc, ih _ fun c' hc' => h c' (by simp [hc'])]
      rfl
  rw [value, numeral, hdigits _ _ fun c hc => isDigit_of_mem_toDigits (by decide) (by decide) hc]
  simp

theorem isDigit_ne {c : UInt8} (hb : isDigit b = true) (hc : isDigit c = false) : b ≠ c := by
  rintro rfl
  rw [hb] at hc
  cases hc

theorem takeWhile_numeral (rest : List UInt8) (h : ∀ b ∈ rest.head?, isDigit b = false) :
    (numeral n ++ rest).takeWhile isDigit = numeral n := by
  rw [takeWhile_append_of_pos fun b hb => isDigit_of_mem_numeral hb]
  cases rest with
  | nil => simp
  | cons b rest => simp [h b rfl]

theorem dropWhile_isSpace_digits {s : List UInt8} (h : s.head? = some b)
    (hb : isSpace b = false) : s.dropWhile isSpace = s := by
  cases s with
  | nil => rfl
  | cons c s =>
    cases h
    simp [hb]

theorem not_isSpace_of_isDigit (h : isDigit b = true) : isSpace b = false := by
  simp only [isDigit, isSpace, decide_eq_true_eq, decide_eq_false_iff_not] at h ⊢
  omega

theorem head_numeral : ∃ b, (numeral n).head? = some b ∧ isDigit b = true := by
  obtain ⟨b, rest, h⟩ := exists_cons_of_ne_nil (numeral_ne_nil n)
  exact ⟨b, by simp [h], isDigit_of_mem_numeral (n := n) (by simp [h])⟩

theorem scanUnsigned_numeral {bits n : Nat} (hn : n < 2 ^ bits) :
    scanUnsigned bits (numeral n) = some n := by
  obtain ⟨b, hb, hdigit⟩ := head_numeral n
  have hspace := dropWhile_isSpace_digits hb (not_isSpace_of_isDigit hdigit)
  have hneg : b ≠ 45 := isDigit_ne hdigit (by decide)
  have hpos : b ≠ 43 := isDigit_ne hdigit (by decide)
  have htake := takeWhile_numeral n [] nofun
  rw [append_nil] at htake
  simp [scanUnsigned, hspace, hb, hneg, hpos, htake, numeral_ne_nil, value_numeral, not_le.2 hn]

theorem scanUnsigned_negative {bits n : Nat} (hn : n < 2 ^ bits) :
    scanUnsigned bits (45 :: numeral n) = some ((2 ^ bits - n) % 2 ^ bits) := by
  have hspace : (45 :: numeral n).dropWhile isSpace = 45 :: numeral n :=
    dropWhile_isSpace_digits rfl (by decide)
  have htake := takeWhile_numeral n [] nofun
  rw [append_nil] at htake
  simp [scanUnsigned, hspace, htake, numeral_ne_nil, value_numeral, not_le.2 hn]

theorem mem_signed {z : Int} (h : b ∈ signed z) : b = 45 ∨ isDigit b = true := by
  unfold signed at h
  split at h
  · exact (mem_cons.1 h).imp_right isDigit_of_mem_numeral
  · exact .inr (isDigit_of_mem_numeral h)

theorem length_numeral_le {n k : Nat} (hk : 0 < k) (h : n < 10 ^ k) : (numeral n).length ≤ k := by
  rwa [numeral, length_map, length_toDigits_le_iff (by decide) hk]

theorem length_signed_le {z : Int} {k : Nat} (hk : 0 < k) (h : z.natAbs < 10 ^ k) :
    (signed z).length ≤ k + 1 := by
  have := length_numeral_le hk h
  unfold signed
  split
  · simpa using this
  · omega

end Cvmfs.Lib.Decimal
