import Cvmfs.Crypto.Hash

/-! # Texts of hashes

Which texts are accepted as hashes, and hashes with a suffix letter. -/

namespace Cvmfs.Crypto

open List Any

/-- Characters are signed. -/
def isHexDigit (c : UInt8) : Bool :=
  !(c.toInt8 < 48 || 102 < c.toInt8 || (57 < c.toInt8 && c.toInt8 < 97))

/-- The number of digits before the first dash, unless there is another character. -/
def countDigits : Bytes → Option Nat
  | [] => some 0
  | c :: s =>
    if c = 45 then some 0 else if isHexDigit c then (countDigits s).map (· + 1) else none

def matched : Bytes → Bytes → Nat
  | c :: s, d :: name => if c = d then matched s name + 1 else 0
  | _, _ => 0

/-- The length is an `unsigned`. -/
def isValid (str : Bytes) : Bool :=
  let l := str.length % 2 ^ 32
  let s := str.take l
  match countDigits s with
  | none => false
  | some i => l ≠ 0 && [.md5, .sha1, .rmd160, .shake128].any fun (a : Algorithms) =>
    i = 2 * a.digestSize && i + matched (s.drop i) a.algorithmId = l &&
      l = i + a.algorithmId.length

def Any.toStringWithSuffix (h : Any) (suffix : UInt8) : Bytes :=
  h.toString ++ if suffix = 0 then [] else [suffix]

/-- A text may be longer than a hash by the suffix. -/
def mkFromSuffixedHexPtr (s : Bytes) : Any × UInt8 :=
  if algorithmOfLength s.length = .any ∧ algorithmOfLength (s.length - 1) ≠ .any then
    (mkFromHexPtr s.dropLast, s.getLastD 0)
  else (mkFromHexPtr s, 0)

/-! ## Valid texts -/

variable {s : Bytes} {i n : Nat}

theorem toHex_fromHex {c d : UInt8} (hc : isHexDigit c = true) (hd : isHexDigit d = true) :
    hex (fromHex c * 16 + fromHex d) = [c, d] := by
  have hall : ∀ c : Fin 256, isHexDigit (UInt8.ofNat c) = true → fromHex (UInt8.ofNat c) < 16 ∧
      toHex (fromHex (UInt8.ofNat c)) = UInt8.ofNat c := by decide +kernel
  have hbyte : ∀ i j : Fin 16, (UInt8.ofNat i * 16 + UInt8.ofNat j) / 16 = UInt8.ofNat i ∧
      (UInt8.ofNat i * 16 + UInt8.ofNat j) % 16 = UInt8.ofNat j := by decide +kernel
  obtain ⟨hltc, hc⟩ := hall ⟨c.toNat, c.toNat_lt⟩ (by simpa using hc)
  obtain ⟨hltd, hd⟩ := hall ⟨d.toNat, d.toNat_lt⟩ (by simpa using hd)
  simp only [UInt8.ofNat_toNat] at hltc hltd hc hd
  obtain ⟨hdiv, hmod⟩ := hbyte ⟨(fromHex c).toNat, hltc⟩ ⟨(fromHex d).toNat, hltd⟩
  simp only [UInt8.ofNat_toNat] at hdiv hmod
  rw [hex, hdiv, hmod, hc, hd]

theorem countDigits_le (h : countDigits s = some i) :
    i ≤ s.length ∧ ∀ c ∈ s.take i, isHexDigit c = true := by
  fun_induction countDigits s generalizing i with
  | case1 | case2 =>
    cases h
    simp
  | case3 c s _ hc ih =>
    obtain ⟨j, hj, rfl⟩ := Option.map_eq_some_iff.1 h
    simpa [hc] using ih hj
  | case4 => cases h

theorem flatMap_hex_readHex (hlen : 2 * n ≤ s.length)
    (hs : ∀ c ∈ s.take (2 * n), isHexDigit c = true) : (readHex n s).flatMap hex = s.take (2 * n) := by
  induction n generalizing s with
  | zero => simp [readHex]
  | succ n ih =>
    obtain _ | ⟨c, _ | ⟨d, s⟩⟩ := s <;> simp only [length_nil, length_cons] at hlen
    · omega
    · omega
    rw [Nat.mul_add, take_succ_cons, take_succ_cons] at hs ⊢
    rw [readHex, flatMap_cons, toHex_fromHex (hs c (by simp)) (hs d (by simp)),
      ih (by omega) fun c hc => hs c (by simp [hc])]
    rfl

theorem countDigits_hex (d : Bytes) (t : Bytes) :
    countDigits (d.flatMap hex ++ t) = (countDigits t).map (· + 2 * d.length) := by
  have hall : ∀ n : Fin 256, (hex (UInt8.ofNat n)).all fun c => isHexDigit c && c != 45 := by
    decide +kernel
  induction d with
  | nil => simp
  | cons b d ih =>
    have hb := hall ⟨b.toNat, b.toNat_lt⟩
    simp [hex] at hb
    simp [flatMap_cons, hex, countDigits, hb, ih, Function.comp_def]
    grind

theorem matched_iff {name : Bytes} :
    matched s name = name.length ∧ s.length = name.length ↔ s = name := by
  induction s generalizing name with
  | nil => cases name <;> simp [matched]
  | cons c s ih =>
    cases name with
    | nil => simp [matched]
    | cons d name => by_cases h : c = d <;> simp [matched, h, ← ih]

theorem isValid_iff : isValid s = true ↔
    ∃ h : Any, h.algorithm ≠ .any ∧ h.toString = s.take (s.length % 2 ^ 32) := by
  have hlen : (s.take (s.length % 2 ^ 32)).length = s.length % 2 ^ 32 := by simp [Nat.mod_le]
  rw [isValid]
  generalize s.take (s.length % 2 ^ 32) = t at *
  rw [← hlen]
  constructor
  · intro h
    split at h
    · cases h
    next i hi =>
    simp only [Bool.and_eq_true, any_eq_true, decide_eq_true_eq] at h
    obtain ⟨-, a, ha, ⟨rfl, hmatch⟩, hl⟩ := h
    have hname : t.drop (2 * a.digestSize) = a.algorithmId :=
      matched_iff.1 ⟨by omega, by rw [length_drop]; omega⟩
    refine ⟨⟨a, readHex a.digestSize t, length_readHex (by omega)⟩, ?_, ?_⟩
    · rintro rfl
      simp at ha
    · obtain ⟨hle, hdigits⟩ := countDigits_le hi
      rw [Any.toString, flatMap_hex_readHex hle hdigits, ← hname, take_append_drop]
  rintro ⟨h, ha, rfl⟩
  have hdigits : countDigits h.toString = some (2 * h.algorithm.digestSize) := by
    rw [Any.toString, countDigits_hex, h.size]
    cases h.algorithm <;> rfl
  have hdrop : h.toString.drop (2 * h.algorithm.digestSize) = h.algorithm.algorithmId := by
    rw [Any.toString, ← h.size, ← length_flatMap_hex, drop_left]
  simp only [hdigits, Bool.and_eq_true, any_eq_true, decide_eq_true_eq, length_toString]
  refine ⟨?_, h.algorithm, ?_, ⟨rfl, ?_⟩, rfl⟩
  · cases h.algorithm <;> decide
  · revert ha
    cases h.algorithm <;> simp
  · rw [hdrop, (matched_iff.2 rfl).1]

/-- A text is accepted as a hash exactly if it is one, unless it is so long that its length wraps
around to that of a hash in front of it. Hashes of an algorithm are read back from their texts,
with and without suffix. -/
theorem hash_texts_exact_iff (s : Bytes) (h : Any) (suffix : UInt8) :
    ((isValid s = true ↔ ∃ h : Any, h.algorithm ≠ .any ∧ h.toString = s) ↔
      (s.length < 2 ^ 32 ∨
        ¬∃ h : Any, h.algorithm ≠ .any ∧ h.toString = s.take (s.length % 2 ^ 32))) ∧
    (mkFromHexPtr h.toString = h ↔ h.algorithm ≠ .any) ∧
    (mkFromSuffixedHexPtr (h.toStringWithSuffix suffix) = (h, suffix) ↔ h.algorithm ≠ .any) := by
  have hmk : mkFromHexPtr h.toString = h ↔ h.algorithm ≠ .any := by
    refine ⟨fun heq ha => ?_, mkFromHexPtr_toString⟩
    have := mkFromHexPtr_algorithm h.toString
    rw [heq, length_toString, ha] at this
    revert this
    decide
  refine ⟨?_, hmk, ?_⟩
  · rw [isValid_iff]
    by_cases hs : s.length < 2 ^ 32
    · rw [Nat.mod_eq_of_lt hs, take_length]
      exact ⟨fun _ => .inl hs, fun _ => Iff.rfl⟩
    have hno : ¬∃ h : Any, h.algorithm ≠ .any ∧ h.toString = s := by
      rintro ⟨h, -, rfl⟩
      rw [length_toString] at hs
      revert hs
      cases h.algorithm <;> decide
    simp only [hs, hno, iff_false, false_or]
  · have hlen : algorithmOfLength h.toString.length ≠ .any ∧
        algorithmOfLength (h.toString.length + 1) = .any := by
      rw [length_toString]
      cases h.algorithm <;> decide
    by_cases hsuffix : suffix = 0
    · simp [toStringWithSuffix, mkFromSuffixedHexPtr, hsuffix, hlen.1, hmk]
    · simp [toStringWithSuffix, mkFromSuffixedHexPtr, hsuffix, hlen.1, hlen.2, hmk]

/-- The 32 digits at the front of a text of 4 GiB. -/
theorem long_text_valid : ∃ s, isValid s = true ∧ ∀ h : Any, h.toString ≠ s := by
  obtain ⟨s, hs⟩ : ∃ s, s = replicate (2 ^ 32 + 32) (48 : UInt8) := ⟨_, rfl⟩
  refine ⟨s, isValid_iff.2 ⟨.null .md5, nofun, ?_⟩, fun h heq => ?_⟩
  · rw [hs, length_replicate, take_replicate]
    rfl
  have hlen := congrArg length heq
  rw [hs, length_replicate, length_toString] at hlen
  revert hlen
  cases h.algorithm <;> decide

end Cvmfs.Crypto
