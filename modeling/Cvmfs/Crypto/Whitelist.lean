import Cvmfs.Crypto.Letter

/-! # Whitelists

A whitelist is a letter with two dates, the name of the repository, flags and fingerprints, one a
line. It is read by offsets: each line is looked up behind the one before, up to a line of two
dashes. The lines that are read are kept, to compare them with the part that is signed. -/

namespace Cvmfs.Crypto

open List Buffer
open Lib.Decimal (ascii scanSigned)

/-! ## Lines -/

/-- An `unsigned` that is passed as an `int`. -/
def toInt (n : Nat) : Int := if n % 2 ^ 32 < 2 ^ 31 then n % 2 ^ 32 else n % 2 ^ 32 - 2 ^ 32

/-- The text up to a newline; a negative size is an empty text. -/
def getLineMem (text : Bytes) (textSize : Int) : Bytes :=
  (text.take textSize.toNat).takeWhile (· ≠ newline)

def Buffer.lineAt (b : Buffer) (payload : Nat) : Line where
  offset := payload
  text := getLineMem (b.bytes.drop payload) (toInt (b.bytes.length + 2 ^ 32 - payload))

def Line.next (l : Line) : Nat := l.offset + l.text.length + 1

/-! ## Dates -/

structure Tm where
  year : Int
  mon : Int
  mday : Int
  hour : Int

/-- The current time in parts, if the C library can tell, the time of a date with its normal form,
and what the four numbers of a date are without digits. -/
structure Clock where
  now : Option Tm
  timegm : Tm → Int × Tm
  uninitialised : Tm

def string2Int64 (s : Bytes) (uninitialised : Int) : Int := (scanSigned 64 s).getD uninitialised

def substr (s : Bytes) (pos n : Nat) : Bytes := (s.drop pos).take n

def Clock.expiryDate (clock : Clock) (line : Bytes) : Tm where
  year := string2Int64 (substr line 1 4) clock.uninitialised.year - 1900
  mon := string2Int64 (substr line 5 2) clock.uninitialised.mon - 1
  mday := string2Int64 (substr line 7 2) clock.uninitialised.mday
  hour := string2Int64 (substr line 9 2) clock.uninitialised.hour

def Clock.isBefore (clock : Clock) (t : Tm) : Bool :=
  match clock.now with
  | none => false
  | some now =>
    if now.year < t.year then true
    else if now.year > t.year then false
    else if now.mon < t.mon then true
    else if now.mon > t.mon then false
    else if now.mday < t.mday then true
    else if now.mday > t.mday then false
    else decide (now.hour < t.hour)

/-! ## Parsing -/

inductive Failures where
  | ok
  | malformed
  | nameMismatch
  | expired
  deriving DecidableEq

structure Whitelist where
  fqrn : Bytes
  fingerprints : List Any := []
  expires : Int := 0
  verificationFlags : Nat := 0

def toLower (c : UInt8) : UInt8 := if 65 ≤ c ∧ c ≤ 90 then c + 32 else c

/-- The fingerprint before a blank or a comment, without colons. -/
def mkFromFingerprint (fingerprint : Bytes) : Any :=
  mkFromHexPtr (((fingerprint.takeWhile fun c => c ≠ 32 ∧ c ≠ 9 ∧ c ≠ 35).filter (· ≠ 58)).map toLower)

/-- The fingerprints from a line on, and the lines that are read after it. -/
def Buffer.fingerprints (b : Buffer) (line : Line) : List Any × List Line :=
  if line.text = [dash, dash] then ([], [])
  else
    let hash := mkFromFingerprint line.text
    let found := if hash.isNull then [] else [hash]
    let next := b.lineAt line.next
    if line.next < b.bytes.length then
      let more := b.fingerprints next
      (found ++ more.1, next :: more.2)
    else (found, [next])
termination_by b.bytes.length - line.offset
decreasing_by
  simp only [Line.next, lineAt] at *
  omega

/-- The outcome, the whitelist as it is then, and all lines that were read. -/
structure Parsed where
  code : Failures
  whitelist : Whitelist
  lines : List Line

namespace Whitelist

/-- `kFlagVerifyRsa`, `kFlagVerifyPkcs7` and `kFlagVerifyCaChain` -/
def flags (verifyPkcs7 verifyCachain : Bool) : Nat :=
  (if verifyPkcs7 then 0x02 else 0x01) ||| (if verifyCachain then 0x04 else 0)

def parseWhitelist (clock : Clock) (w : Whitelist) (b : Buffer) : Parsed :=
  let issued := b.lineAt 0
  if issued.text.length ≠ 14 then ⟨.malformed, w, [issued]⟩
  else
    let expiry := b.lineAt 15
    if expiry.text.length ≠ 15 then ⟨.malformed, w, [issued, expiry]⟩
    else
      let date := clock.timegm (clock.expiryDate expiry.text)
      if clock.isBefore date.2 = false then ⟨.expired, w, [issued, expiry]⟩
      else
        let w := { w with expires := date.1 }
        let name := b.lineAt (15 + 16)
        if w.fqrn ≠ [] ∧ 78 :: w.fqrn ≠ name.text then
          ⟨.nameMismatch, w, [issued, expiry, name]⟩
        else
          let pkcs7 := b.lineAt name.next
          let verifyPkcs7 := pkcs7.text = ascii "Vpkcs7"
          let cachain := if verifyPkcs7 then b.lineAt pkcs7.next else pkcs7
          let verifyCachain := cachain.text = ascii "Wcachain"
          let first := if verifyCachain then b.lineAt cachain.next else cachain
          let found := b.fingerprints first
          ⟨.ok, { w with
              fingerprints := w.fingerprints ++ found.1
              verificationFlags := flags verifyPkcs7 verifyCachain },
            [issued, expiry, name, pkcs7, cachain, first] ++ found.2⟩

end Whitelist

/-! ## The lines that are read -/

/-- The line of two dashes after the letter. -/
def Line.IsMark (l : Line) (length : Nat) : Prop := l.offset = length ∧ l.text = [dash, dash]

/-- A line of the letter, or the one that ends it. -/
def Line.Read (l : Line) (bytes : Bytes) (length : Nat) : Prop :=
  l.Within bytes length ∨ l.IsMark length

variable {b : Buffer} {letter rest : Bytes}

theorem getLineMem_eq (text : Bytes) : getLineMem text text.length = text.takeWhile (· ≠ newline) := by
  rw [getLineMem, Int.toNat_natCast, take_length]

theorem Buffer.lineAt_text (hsize : b.bytes.length < 2 ^ 31) {payload : Nat}
    (hp : payload ≤ b.bytes.length) :
    (b.lineAt payload).text = (b.bytes.drop payload).takeWhile (· ≠ newline) := by
  have hint : toInt (b.bytes.length + 2 ^ 32 - payload) = (b.bytes.drop payload).length := by
    unfold toInt
    rw [length_drop]
    split <;> omega
  rw [lineAt, hint, getLineMem_eq]

theorem Buffer.lineAt_zero_large (hsize : 2 ^ 31 ≤ b.bytes.length) : (b.lineAt 0).text = [] := by
  have hlt := b.size_lt
  have hint : (toInt (b.bytes.length + 2 ^ 32 - 0)).toNat = 0 := by
    unfold toInt
    split <;> omega
  rw [lineAt, getLineMem, hint]
  rfl

theorem takeWhile_length_lt {text : Bytes} {n : Nat} (h : text[n]? = some newline) :
    (text.takeWhile (· ≠ newline)).length ≤ n := by
  induction text generalizing n with
  | nil => simp at h
  | cons c text ih =>
    by_cases hc : c = newline
    · simp [hc]
    cases n with
    | zero => exact absurd (by simpa using h) hc
    | succ n =>
      have ih := ih (by simpa using h)
      simpa [takeWhile_cons, hc] using ih

namespace Cut

variable (h : Cut b.bytes letter rest)
include h

theorem length_lt : letter.length + 3 ≤ b.bytes.length := by
  simp [h.split]

section

variable (hsize : b.bytes.length < 2 ^ 31)
include hsize

variable {payload : Nat}

theorem lineAt_within
    (hp : payload < letter.length) : (b.lineAt payload).Within b.bytes letter.length := by
  have hlen := h.length_lt
  have htext := lineAt_text hsize (show payload ≤ b.bytes.length by omega)
  refine ⟨?_, ?_⟩
  · rw [htext]
    exact takeWhile_prefix _
  obtain ⟨hsplit, body, rfl⟩ := h
  rw [length_append, length_singleton] at hp ⊢
  have hnewline : (b.bytes.drop payload)[body.length - payload]? = some newline := by
    rw [getElem?_drop, Nat.add_sub_cancel' (by omega), hsplit]
    simp
  have hle := takeWhile_length_lt hnewline
  rw [htext]
  show payload + _ < _
  omega

theorem lineAt_mark : (b.lineAt letter.length).IsMark letter.length := by
  have hlen := h.length_lt
  refine ⟨rfl, ?_⟩
  rw [lineAt_text hsize (by omega), h.split]
  have hne : dash ≠ newline := by decide
  simp [hne]

theorem lineAt_read
    (hp : payload ≤ letter.length) : (b.lineAt payload).Read b.bytes letter.length := by
  rcases hp.lt_or_eq with hlt | rfl
  · exact .inl (h.lineAt_within hsize hlt)
  · exact .inr (h.lineAt_mark hsize)

theorem next_le (hp : payload ≤ letter.length) (hne : (b.lineAt payload).text ≠ [dash, dash]) :
    (b.lineAt payload).next ≤ letter.length := by
  rcases h.lineAt_read hsize hp with hwithin | hmark
  · exact hwithin.inside
  · exact absurd hmark.2 hne

/-- **The fingerprints end with the letter.** -/
theorem fingerprints_read (hp : payload ≤ letter.length) :
    ∀ l ∈ (b.fingerprints (b.lineAt payload)).2, l.Read b.bytes letter.length := by
  generalize hline : b.lineAt payload = line
  induction hn : b.bytes.length - line.offset using Nat.strong_induction_on
    generalizing payload line with
  | _ n ih =>
    rw [fingerprints]
    split
    · simp
    next hmark =>
      have hnext : line.next ≤ letter.length := by
        rw [← hline] at hmark ⊢
        exact h.next_le hsize hp hmark
      have hread := h.lineAt_read hsize hnext
      simp only
      split
      next hlt =>
        have hless : b.bytes.length - line.next < n := by
          rw [← hn]
          simp only [Line.next] at hlt ⊢
          omega
        intro l hl
        rcases mem_cons.1 hl with rfl | hl
        · exact hread
        · exact ih _ hless hnext _ rfl rfl l hl
      · intro l hl
        cases mem_singleton.1 hl
        exact hread

theorem add_length_le {n : Nat}
    (hp : payload ≤ letter.length) (hn : (b.lineAt payload).text.length = n) (hne : n ≠ 2) :
    payload + (n + 1) ≤ letter.length := by
  have hnext := h.next_le hsize hp fun he => hne (by simp [← hn, he])
  rwa [Line.next, hn] at hnext

theorem skip_le (hp : payload ≤ letter.length)
    {flag : Bytes} (hne : flag ≠ [dash, dash]) :
    ∃ payload' ≤ letter.length,
      (if (b.lineAt payload).text = flag then b.lineAt (b.lineAt payload).next
        else b.lineAt payload) = b.lineAt payload' := by
  split
  next hflag => exact ⟨_, h.next_le hsize hp (hflag ▸ hne), rfl⟩
  · exact ⟨_, hp, rfl⟩

end

/-- **A whitelist is read up to the mark.** -/
theorem parseWhitelist_read (clock : Clock) (w : Whitelist) (hw : w.fqrn ≠ []) :
    ∀ l ∈ (w.parseWhitelist clock b).lines, l.Read b.bytes letter.length := by
  by_cases hsize : b.bytes.length < 2 ^ 31
  case neg =>
    have hempty := lineAt_zero_large (not_lt.1 hsize)
    have hpos : 0 < letter.length := by
      obtain ⟨body, rfl⟩ := h.ends
      simp
    have hread : (b.lineAt 0).Read b.bytes letter.length := by
      refine .inl ⟨by simp [hempty], ?_⟩
      rw [hempty]
      exact hpos
    simpa [Whitelist.parseWhitelist, hempty] using hread
  have hissued := h.lineAt_read hsize (Nat.zero_le _)
  unfold Whitelist.parseWhitelist
  simp only
  split
  · simpa using hissued
  next hlen =>
  have h15 := h.add_length_le hsize (Nat.zero_le _) (not_not.1 hlen) (by decide)
  have hexpiry := h.lineAt_read hsize h15
  split
  · simpa using ⟨hissued, hexpiry⟩
  next hlen =>
  have h31 := h.add_length_le hsize h15 (not_not.1 hlen) (by decide)
  have hname := h.lineAt_read hsize h31
  split
  · simpa using ⟨hissued, hexpiry⟩
  split
  · simpa using ⟨hissued, hexpiry, hname⟩
  next hfqrn =>
  -- the name of the repository cannot be the mark; without a name it is not compared
  have hline : 78 :: w.fqrn = (b.lineAt (15 + 16)).text := by
    by_contra hne
    exact hfqrn ⟨hw, hne⟩
  have hnext := h.next_le hsize h31 (by simp [← hline, dash])
  obtain ⟨p, hp, hcachain⟩ := h.skip_le hsize hnext (show ascii "Vpkcs7" ≠ [dash, dash] by decide)
  obtain ⟨q, hq, hfirst⟩ := h.skip_le hsize hp (show ascii "Wcachain" ≠ [dash, dash] by decide)
  rw [hcachain, hfirst]
  intro l hl
  rcases mem_append.1 hl with hl | hl
  · simp only [mem_cons, not_mem_nil, or_false] at hl
    rcases hl with rfl | rfl | rfl | rfl | rfl | rfl
    · exact hissued
    · exact hexpiry
    · exact hname
    · exact h.lineAt_read hsize hnext
    · exact h.lineAt_read hsize hp
    · exact h.lineAt_read hsize hq
  · exact h.fingerprints_read hsize hq l hl

end Cut

/-! ## Letters are parsed where they are signed -/

/-- Verification answers, and what is parsed from a letter that is accepted lies in the part
that was hashed. -/
def Buffer.ParsedWhereSigned (s : Signatures) (byRsa : Bool) (b : Buffer) : Prop :=
  ∃ answer letterLength pos, s.verifyLetter byRsa b = .ok answer ∧
    b.cutLetter dash = .ok (letterLength, pos) ∧
    (answer = true →
      (∀ l ∈ keyvalLines b.bytes, l.Within b.bytes letterLength) ∧
      (∀ content, parseKeyvalMem b.bytes content =
        parseKeyvalMem (b.bytes.take letterLength) content) ∧
      ∀ (clock : Clock) (w : Whitelist), w.fqrn ≠ [] →
        ∀ l ∈ (w.parseWhitelist clock b).lines, l.Read b.bytes letterLength)

/-- **Letters are parsed where they are signed** if and only if the scan for the mark stays in the
buffer and the line after the mark, if it ends, has the length of a hash. -/
theorem letters_parsedWhereSigned_iff (s : Signatures) (byRsa : Bool) (b : Buffer) :
    b.ParsedWhereSigned s byRsa ↔ ¬ b.Overruns ∧ b.HashLineFits := by
  rw [← s.verifyLetter_ok_iff byRsa b]
  constructor
  · rintro ⟨answer, letterLength, pos, hanswer, -⟩
    exact ⟨answer, hanswer⟩
  rintro ⟨answer, hanswer⟩
  cases answer with
  | true =>
    obtain ⟨letter, rest, hcut, hlength⟩ := Signatures.verifyLetter_true hanswer
    refine ⟨true, _, _, hanswer, hlength, fun _ => ⟨hcut.keyvalLines_within, ?_, ?_⟩⟩
    · intro content
      rw [hcut.parseKeyvalMem_eq]
      congr 1
      rw [hcut.split, take_left]
    · exact fun clock w hw => hcut.parseWhitelist_read clock w hw
  | false =>
    cases hlength : b.cutLetter dash with
    | error f => simp [Signatures.verifyLetter, hlength] at hanswer
    | ok cut => exact ⟨false, cut.1, cut.2, hanswer, hlength, by simp⟩

def noSignatures : Signatures where
  hash a _ := replicate a.digestSize 0
  size a text := by simp
  verifyRsa _ _ := false
  verify _ _ := false

def shortHashLine : Buffer := ⟨mark ++ ascii "x" ++ [newline], by decide⟩

theorem shortHashLine_panics : noSignatures.verifyLetter true shortHashLine = .error .panic ∧
      ¬ shortHashLine.ParsedWhereSigned noSignatures true := by
  have hpanic : noSignatures.verifyLetter true shortHashLine = .error .panic := by decide
  refine ⟨hpanic, ?_⟩
  rintro ⟨answer, letterLength, pos, hanswer, -⟩
  rw [hpanic] at hanswer
  cases hanswer

end Cvmfs.Crypto
