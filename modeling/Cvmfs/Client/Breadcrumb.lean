import Cvmfs.Crypto.Hash

/-! # Breadcrumbs

A breadcrumb in the cache names the root catalog that some client has last taken from a server:
hash, time stamp and revision in one line of text. Earlier versions wrote no revision, which
reads as revision 0. -/

namespace Cvmfs.Client

open Crypto Lib.Decimal List Option

def string2Uint64 (s : Bytes) : Nat := (scanUnsigned 64 s).getD 0

/-- `StringifyInt` of a number that is cast to a signed one. -/
def stringifyInt (n : Nat) : Bytes := signed (if n < 2 ^ 63 then n else n - 2 ^ 64)

def invalidRevision : Nat := 2 ^ 64 - 1

structure Breadcrumb where
  catalogHash : Any := .null .any
  timestamp : Nat := 0
  revision : Nat := invalidRevision
  deriving DecidableEq

namespace Breadcrumb

def isValid (b : Breadcrumb) : Bool :=
  !b.catalogHash.isNull && decide (0 < b.timestamp) && decide (b.revision ≠ invalidRevision)

def ofText (text : Bytes) : Breadcrumb :=
  match text.splitOn 84 with
  | hash :: tail :: _ =>
    match tail.splitOn 82 with
    | timestamp :: revision :: _ =>
      ⟨mkFromHexPtr hash, string2Uint64 timestamp, string2Uint64 revision⟩
    | timestamp :: [] => ⟨mkFromHexPtr hash, string2Uint64 timestamp, 0⟩
    | [] => ⟨mkFromHexPtr hash, 0, 0⟩
  | hash :: [] => ⟨mkFromHexPtr hash, 0, 0⟩
  | [] => ⟨.null .any, 0, 0⟩

def toString (b : Breadcrumb) : Bytes :=
  b.catalogHash.toString ++ 84 :: (stringifyInt b.timestamp ++ 82 :: numeral b.revision)

/-- What earlier versions wrote. -/
def toStringWithoutRevision (b : Breadcrumb) : Bytes :=
  b.catalogHash.toString ++ 84 :: stringifyInt b.timestamp

/-- The breadcrumb in a file, or an invalid one. -/
def read (file : Option Bytes) : Breadcrumb :=
  match (file.getD []).take 164 with
  | [] => {}
  | c :: text => ofText (c :: text)

/-! ## Round trip -/

variable {n : Nat}

theorem string2Uint64_stringifyInt (h : n < 2 ^ 64) : string2Uint64 (stringifyInt n) = n := by
  unfold string2Uint64 stringifyInt signed
  by_cases hn : n < 2 ^ 63
  · simp only [hn, if_true, Int.natAbs_natCast]
    rw [if_neg (by omega), scanUnsigned_numeral h, getD_some]
  have habs : ((n : Int) - 2 ^ 64).natAbs = 2 ^ 64 - n := by omega
  rw [if_pos (by omega), scanUnsigned_negative (by omega), getD_some]
  omega

theorem string2Uint64_numeral (h : n < 2 ^ 64) : string2Uint64 (numeral n) = n := by
  rw [string2Uint64, scanUnsigned_numeral h, getD_some]

theorem length_stringifyInt_le (h : n < 2 ^ 64) : (stringifyInt n).length ≤ 21 := by
  refine length_signed_le (by decide) ?_
  split <;> omega

theorem length_toString_le (h : Any) : h.toString.length ≤ 49 := by
  rw [Any.length_toString]
  cases h.algorithm <;> decide

theorem notMem_hash (h : Any) : 84 ∉ h.toString := by
  intro hc
  rcases Any.mem_toString hc with hc | hc | hc <;> revert hc <;> decide

theorem notMem_stringifyInt {c : UInt8} (hdash : c ≠ 45) (hdigit : isDigit c = false) :
    c ∉ stringifyInt n := by
  intro hc
  rcases mem_signed hc with hc | hc
  · exact hdash hc
  · exact isDigit_ne hc hdigit rfl

theorem notMem_numeral {c : UInt8} (hdigit : isDigit c = false) : c ∉ numeral n :=
  fun hc => isDigit_ne (isDigit_of_mem_numeral hc) hdigit rfl

variable {b : Breadcrumb}

theorem read_of_length_le {text : Bytes} (hne : text ≠ []) (h : text.length ≤ 164) :
    read (some text) = ofText text := by
  unfold read
  rw [getD_some, take_of_length_le h]
  cases text with
  | nil => exact absurd rfl hne
  | cons c text => rfl

section

variable (ha : b.catalogHash.algorithm ≠ .any) (ht : b.timestamp < 2 ^ 64)
include ha ht

theorem read_toString (hr : b.revision < 2 ^ 64) : read (some b.toString) = b := by
  have hlen : b.toString.length ≤ 164 := by
    have := length_toString_le b.catalogHash
    have := length_stringifyInt_le ht
    have := length_numeral_le (n := b.revision) (k := 20) (by decide) (by omega)
    simp only [toString, length_append, length_cons]
    omega
  rw [read_of_length_le (by simp [toString]) hlen, ofText, toString,
    splitOn_append_cons_self, splitOn_eq_singleton (notMem_hash _)]
  have htail : 84 ∉ stringifyInt b.timestamp ++ 82 :: numeral b.revision := by
    simp only [mem_append, mem_cons, not_or]
    exact ⟨notMem_stringifyInt (by decide) (by decide), by decide, notMem_numeral (by decide)⟩
  rw [splitOn_eq_singleton htail, cons_append, nil_append]
  simp only
  rw [splitOn_append_cons_self,
    splitOn_eq_singleton (notMem_stringifyInt (by decide) (by decide)),
    splitOn_eq_singleton (notMem_numeral (by decide))]
  simp only [cons_append, nil_append, string2Uint64_stringifyInt ht,
    string2Uint64_numeral hr, Any.mkFromHexPtr_toString ha]

theorem read_toStringWithoutRevision :
    read (some b.toStringWithoutRevision) = ⟨b.catalogHash, b.timestamp, 0⟩ := by
  have hlen : b.toStringWithoutRevision.length ≤ 164 := by
    have := length_toString_le b.catalogHash
    have := length_stringifyInt_le ht
    simp only [toStringWithoutRevision, length_append, length_cons]
    omega
  rw [read_of_length_le (by simp [toStringWithoutRevision]) hlen, ofText, toStringWithoutRevision,
    splitOn_append_cons_self, splitOn_eq_singleton (notMem_hash _),
    splitOn_eq_singleton (notMem_stringifyInt (by decide) (by decide)), cons_append,
    nil_append]
  simp only
  rw [splitOn_eq_singleton (notMem_stringifyInt (by decide) (by decide))]
  simp only [string2Uint64_stringifyInt ht, Any.mkFromHexPtr_toString ha]

end

end Breadcrumb

end Cvmfs.Client
