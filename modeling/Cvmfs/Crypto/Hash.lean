import Cvmfs.Lib.Decimal

/-! # Hashes and their text

A hash is an algorithm and as many bytes as that algorithm has. In text it is a hexadecimal
number, with the name of the algorithm after it where the length does not tell. -/

namespace Cvmfs.Crypto

open List

open Lib.Decimal (ascii)

abbrev Bytes := List UInt8

inductive Algorithms where
  | md5
  | sha1
  | rmd160
  | shake128
  /-- no algorithm; only for storage -/
  | any
  deriving DecidableEq

namespace Algorithms

def digestSize : Algorithms → Nat
  | md5 => 16
  | _ => 20

def algorithmId : Algorithms → Bytes
  | rmd160 => ascii "-rmd160"
  | shake128 => ascii "-shake128"
  | _ => []

end Algorithms

structure Any where
  algorithm : Algorithms
  digest : Bytes
  size : digest.length = algorithm.digestSize
  deriving DecidableEq

namespace Any

def null (a : Algorithms) : Any := ⟨a, replicate a.digestSize 0, by simp⟩

def isNull (h : Any) : Bool := h.digest.all (· == 0)

/-! ## Text -/

def toHex (digit : UInt8) : UInt8 := if digit ≤ 9 then digit + 48 else digit + 87

def hex (b : UInt8) : Bytes := [toHex (b / 16), toHex (b % 16)]

def toString (h : Any) : Bytes := h.digest.flatMap hex ++ h.algorithm.algorithmId

/-- The value of a character, which is signed; it is not checked to be a digit. -/
def fromHex (c : UInt8) : UInt8 := if c.toInt8 ≤ 57 then c - 48 else c - 97 + 10

def readHex : Nat → Bytes → Bytes
  | n + 1, c :: d :: rest => (fromHex c * 16 + fromHex d) :: readHex n rest
  | _, _ => []

theorem length_readHex {n : Nat} {s : Bytes} (h : 2 * n ≤ s.length) : (readHex n s).length = n := by
  induction n generalizing s with
  | zero => cases s <;> rfl
  | succ n ih =>
    match s, h with
    | c :: d :: rest, h =>
      have := ih (s := rest) (by simp only [length_cons] at h; omega)
      simp [readHex, this]
    | [_], h => simp at h; omega
    | [], h => simp at h

/-- The constructor from text, which asserts that the text is long enough. -/
def ofHex (a : Algorithms) (s : Bytes) (h : 2 * a.digestSize ≤ s.length) : Any :=
  ⟨a, readHex a.digestSize s, length_readHex h⟩

end Any

def algorithmOfLength (n : Nat) : Algorithms :=
  if n = 32 then .md5 else if n = 40 then .sha1 else if n = 47 then .rmd160
  else if n = 49 then .shake128 else .any

theorem digestSize_algorithmOfLength {n : Nat} (h : algorithmOfLength n ≠ .any) :
    2 * (algorithmOfLength n).digestSize ≤ n := by
  unfold algorithmOfLength at *
  split_ifs at h ⊢ <;> simp_all [Algorithms.digestSize]

theorem algorithmOfLength_eq_any_iff {n : Nat} :
    algorithmOfLength n = .any ↔ n ≠ 32 ∧ n ≠ 40 ∧ n ≠ 47 ∧ n ≠ 49 := by
  unfold algorithmOfLength
  split_ifs <;> simp_all

/-- The hash of a text; the null hash of no algorithm for a length that no hash has. The name of
the algorithm is not compared. -/
def mkFromHexPtr (s : Bytes) : Any :=
  if h : algorithmOfLength s.length = .any then .null .any
  else .ofHex (algorithmOfLength s.length) s (digestSize_algorithmOfLength h)

theorem mkFromHexPtr_algorithm (s : Bytes) :
    (mkFromHexPtr s).algorithm = algorithmOfLength s.length := by
  unfold mkFromHexPtr
  split
  next h => exact h.symm
  · rfl

/-! ## Round trip -/

namespace Any

theorem fromHex_hex (b : UInt8) : fromHex (toHex (b / 16)) * 16 + fromHex (toHex (b % 16)) = b := by
  have hall : ∀ n : Fin 256, fromHex (toHex (UInt8.ofNat n / 16)) * 16 +
      fromHex (toHex (UInt8.ofNat n % 16)) = UInt8.ofNat n := by decide +kernel
  simpa using hall ⟨b.toNat, b.toNat_lt⟩

theorem readHex_flatMap_hex (d rest : Bytes) : readHex d.length (d.flatMap hex ++ rest) = d := by
  induction d with
  | nil => cases rest <;> rfl
  | cons b d ih =>
    rw [flatMap_cons]
    simp only [hex, cons_append, nil_append, length_cons, readHex, ih, fromHex_hex]

theorem length_flatMap_hex (d : Bytes) : (d.flatMap hex).length = 2 * d.length := by
  induction d with
  | nil => rfl
  | cons b d ih =>
    rw [flatMap_cons, length_append, ih]
    simp only [hex, length_cons, length_nil]
    omega

theorem length_toString (h : Any) :
    h.toString.length = 2 * h.algorithm.digestSize + h.algorithm.algorithmId.length := by
  rw [toString, length_append, length_flatMap_hex, h.size]

theorem algorithmOfLength_toString {h : Any} (ha : h.algorithm ≠ .any) :
    algorithmOfLength h.toString.length = h.algorithm := by
  rw [length_toString]
  revert ha
  cases h.algorithm <;> decide

theorem mkFromHexPtr_toString {h : Any} (ha : h.algorithm ≠ .any) :
    mkFromHexPtr h.toString = h := by
  have halg := algorithmOfLength_toString ha
  have hdigest : (mkFromHexPtr h.toString).digest = h.digest := by
    unfold mkFromHexPtr
    rw [dif_neg (halg.symm ▸ ha)]
    show readHex (algorithmOfLength h.toString.length).digestSize h.toString = h.digest
    rw [halg, ← h.size]
    exact readHex_flatMap_hex h.digest h.algorithm.algorithmId
  have halgorithm : (mkFromHexPtr h.toString).algorithm = h.algorithm :=
    (mkFromHexPtr_algorithm _).trans halg
  generalize mkFromHexPtr h.toString = k at *
  obtain ⟨a, d, hs⟩ := k
  cases h
  cases halgorithm
  cases hdigest
  rfl

theorem mem_toString {h : Any} {c : UInt8} (hc : c ∈ h.toString) :
    c = 45 ∨ Lib.Decimal.isDigit c = true ∨ (97 ≤ c.toNat ∧ c.toNat ≤ 122) := by
  rcases mem_append.1 hc with hc | hc
  · obtain ⟨b, -, hb⟩ := mem_flatMap.1 hc
    have hall : ∀ n : Fin 256, ((hex (UInt8.ofNat n)).all fun c => decide
        (Lib.Decimal.isDigit c = true ∨ (97 ≤ c.toNat ∧ c.toNat ≤ 122))) = true := by decide +kernel
    have hb := all_eq_true.1 (hall ⟨b.toNat, b.toNat_lt⟩) c (by simpa using hb)
    exact .inr (of_decide_eq_true hb)
  · have hall : (h.algorithm.algorithmId.all fun c => decide
        (c = 45 ∨ Lib.Decimal.isDigit c = true ∨ (97 ≤ c.toNat ∧ c.toNat ≤ 122))) = true := by
      cases h.algorithm <;> decide +kernel
    exact of_decide_eq_true (all_eq_true.1 hall c hc)

end Any

end Cvmfs.Crypto
