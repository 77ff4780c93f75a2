import Cvmfs.Crypto.Hash

/-! # Signed letters

A letter is some lines, a line of two dashes, the hash of the lines and the signature of the
hash. `CutLetter` looks for the end of the lines byte by byte, `ParseKeyvalMem` line by line. -/

namespace Cvmfs.Crypto

open List Nat

def newline : UInt8 := 10

def dash : UInt8 := 45

/-- Bytes whose number fits an `unsigned`. -/
structure Buffer where
  bytes : Bytes
  size_lt : bytes.length < 2 ^ 32

inductive Fault where
  | outOfBounds
  | panic
  deriving DecidableEq

/-! ## Cutting -/

namespace Buffer

/-- Compares bytes from a position on up to the first difference. Positions are 32 bits wide. -/
def readsAs (b : Buffer) (pos : Nat) : Bytes → Except Fault Bool
  | [] => .ok true
  | c :: cs =>
    match b.bytes[pos % 2 ^ 32]? with
    | none => .error .outOfBounds
    | some d => if d = c then b.readsAs (pos + 1) cs else .ok false

/-- The loop of `CutLetter`, with the bytes from `pos` on: the length of the letter and the
position after the mark. -/
def cutFrom (b : Buffer) (separator : UInt8) (pos : Nat) : Bytes → Except Fault (Nat × Nat)
  | [] => .ok (pos, pos)
  | c :: rest =>
    if c = newline ∧ (pos + 4) % 2 ^ 32 ≤ b.bytes.length then
      match b.readsAs (pos + 1) [separator, separator, newline] with
      | .error f => .error f
      | .ok true => .ok (pos + 1, pos + 4)
      | .ok false => b.cutFrom separator (pos + 1) rest
    else b.cutFrom separator (pos + 1) rest

def cutLetter (b : Buffer) (separator : UInt8) : Except Fault (Nat × Nat) :=
  b.cutFrom separator 0 b.bytes

end Buffer

/-! ## Verification -/

/-- Hash functions, and what the keys of the signature manager accept for a text. -/
structure Signatures where
  hash : Algorithms → Bytes → Bytes
  size : ∀ a text, (hash a text).length = a.digestSize
  verifyRsa : Bytes → Bytes → Bool
  verify : Bytes → Bytes → Bool

def splitLine : Bytes → Option (Bytes × Bytes)
  | [] => none
  | c :: rest => if c = newline then some ([], rest) else (splitLine rest).map (Prod.map (c :: ·) id)

namespace Signatures

variable (s : Signatures)

/-- There is no context for a hash without algorithm. -/
def hashMem (a : Algorithms) (text : Bytes) : Except Fault Any :=
  if a = .any then .error .panic else .ok ⟨a, s.hash a text, s.size a text⟩

def verifyLetter (byRsa : Bool) (b : Buffer) : Except Fault Bool :=
  match b.cutLetter dash with
  | .error f => .error f
  | .ok (letterLength, pos) =>
    if b.bytes.length ≤ pos then .ok false
    else
      match splitLine (b.bytes.drop pos) with
      | none => .ok false
      | some (hashStr, signature) =>
        match s.hashMem (mkFromHexPtr hashStr).algorithm (b.bytes.take letterLength) with
        | .error f => .error f
        | .ok computed =>
          if mkFromHexPtr hashStr ≠ computed then .ok false
          else .ok (if byRsa then s.verifyRsa hashStr signature else s.verify hashStr signature)

end Signatures

/-! ## Keys and values -/

abbrev Content := UInt8 → Option Bytes

/-- Values of the key `Z` are collected. -/
def Content.add (content : Content) : Bytes → Content
  | [] => content
  | key :: tail =>
    if key ≠ 90 then Function.update content key (some tail)
    else
      match content key with
      | none => Function.update content key (some tail)
      | some value => Function.update content key (some (value ++ 124 :: tail))

/-- The loop of `ParseKeyvalMem`, with the line so far. -/
def keyvalFrom (content : Content) (line : Bytes) : Bytes → Content
  | [] => content
  | c :: rest =>
    if c = newline then
      if line = [dash, dash] then content else keyvalFrom (content.add line) [] rest
    else keyvalFrom content (line ++ [c]) rest

def parseKeyvalMem (buffer : Bytes) (content : Content) : Content := keyvalFrom content [] buffer

structure Line where
  offset : Nat
  text : Bytes
  deriving DecidableEq

/-- The lines that become pairs, with the same loop. -/
def keyvalLinesFrom (offset : Nat) (line : Bytes) : Bytes → List Line
  | [] => []
  | c :: rest =>
    if c = newline then
      if line = [dash, dash] then []
      else if line = [] then keyvalLinesFrom (offset + 1) [] rest
      else ⟨offset, line⟩ :: keyvalLinesFrom (offset + line.length + 1) [] rest
    else keyvalLinesFrom offset (line ++ [c]) rest

def keyvalLines (buffer : Bytes) : List Line := keyvalLinesFrom 0 [] buffer

theorem keyvalFrom_eq_foldl (content : Content) (line : Bytes) (offset : Nat) (rest : Bytes) :
    keyvalFrom content line rest =
      (keyvalLinesFrom offset line rest).foldl (fun content l => content.add l.text) content := by
  induction rest generalizing content line offset with
  | nil => rfl
  | cons c rest ih =>
    simp only [keyvalFrom, keyvalLinesFrom]
    split
    · split
      · rfl
      split
      next hline =>
        subst hline
        exact ih _ _ _
      · rw [foldl_cons]
        exact ih _ _ _
    · exact ih _ _ _

/-- **The pairs are those of the lines.** -/
theorem parseKeyvalMem_eq_foldl (buffer : Bytes) (content : Content) :
    parseKeyvalMem buffer content =
      (keyvalLines buffer).foldl (fun content l => content.add l.text) content :=
  keyvalFrom_eq_foldl content [] 0 buffer

/-! ## The first mark -/

def mark : Bytes := [newline, dash, dash, newline]

/-- The letter with its last newline, and what follows the mark. -/
def splitMark : Bytes → Option (Bytes × Bytes)
  | [] => none
  | c :: rest =>
    if mark <+: c :: rest then some ([c], rest.drop 3)
    else (splitMark rest).map (Prod.map (c :: ·) id)

/-- The letter ends with a newline and the mark follows. -/
structure Cut (bytes letter rest : Bytes) : Prop where
  split : bytes = letter ++ dash :: dash :: newline :: rest
  ends : ∃ body, letter = body ++ [newline]

theorem mark_isPrefix_iff {c : UInt8} {rest : Bytes} :
    mark <+: c :: rest ↔ c = newline ∧ [dash, dash, newline] <+: rest := by
  rw [mark, cons_prefix_cons]
  exact and_congr_left fun _ => eq_comm

theorem splitMark_cut {bytes letter rest : Bytes} (h : splitMark bytes = some (letter, rest)) :
    Cut bytes letter rest := by
  induction bytes generalizing letter with
  | nil => cases h
  | cons c bytes ih =>
    rw [splitMark] at h
    split at h
    next hmark =>
      obtain ⟨rfl, tail, rfl⟩ := mark_isPrefix_iff.1 hmark
      cases h
      exact ⟨rfl, [], rfl⟩
    · obtain ⟨⟨l, r⟩, hl, he⟩ := Option.map_eq_some_iff.1 h
      cases he
      obtain ⟨hsplit, body, hbody⟩ := ih hl
      exact ⟨congrArg (c :: ·) hsplit, c :: body, congrArg (c :: ·) hbody⟩

namespace Buffer

variable {b : Buffer} {letter rest : Bytes} {pos : Nat}

theorem readsAs_eq (hrest : b.bytes.drop pos = rest)
    (hpos : pos ≤ b.bytes.length) (cs : Bytes) :
    b.readsAs pos cs =
      if cs <+: rest then .ok true else if rest <+: cs then .error .outOfBounds else .ok false := by
  induction cs generalizing pos rest with
  | nil => simp [readsAs]
  | cons c cs ih =>
    have hmod : pos % 2 ^ 32 = pos := mod_eq_of_lt (hpos.trans_lt b.size_lt)
    cases rest with
    | nil =>
      have hnone : b.bytes[pos]? = none := by
        rw [getElem?_eq_none_iff, ← drop_eq_nil_iff]
        exact hrest
      rw [readsAs, hmod, hnone]
      simp
    | cons d rest =>
      have hsome : b.bytes[pos]? = some d := by
        rw [← head?_drop, hrest, head?_cons]
      have hnext : b.bytes.drop (pos + 1) = rest := by
        rw [← tail_drop, hrest, tail_cons]
      have hlt : pos + 1 ≤ b.bytes.length := (List.getElem?_eq_some_iff.1 hsome).1
      simp only [readsAs, hmod, hsome, cons_prefix_cons]
      by_cases hd : d = c
      · simp [hd, ih hnext hlt]
      · simp [hd, Ne.symm hd]

/-- A newline and dashes at the end of a part of the buffer, where positions wrap around. -/
def EndsOpen (pos : Nat) (rest : Bytes) : Prop :=
  ∃ n k, 2 ^ 32 - 4 ≤ pos + n ∧ rest.drop n = newline :: replicate k dash

theorem endsOpen_cons {c : UInt8} : EndsOpen pos (c :: rest) ↔
      (2 ^ 32 - 4 ≤ pos ∧ c = newline ∧ ∃ k, rest = replicate k dash) ∨
        EndsOpen (pos + 1) rest := by
  constructor
  · rintro ⟨n, k, hn, hdrop⟩
    cases n with
    | zero =>
      obtain ⟨rfl, rfl⟩ := cons.inj hdrop
      exact .inl ⟨hn, rfl, k, rfl⟩
    | succ n => exact .inr ⟨n, k, by omega, hdrop⟩
  · rintro (⟨hpos, rfl, k, rfl⟩ | ⟨n, k, hn, hdrop⟩)
    · exact ⟨0, k, hpos, rfl⟩
    · exact ⟨n + 1, k, by omega, hdrop⟩

theorem isPrefix_dashes_iff (hlen : rest.length ≤ 2) :
    rest <+: [dash, dash, newline] ↔ ∃ k, rest = replicate k dash := by
  match rest, hlen with
  | [], _ => exact ⟨fun _ => ⟨0, rfl⟩, fun _ => nil_prefix⟩
  | [c], _ =>
    simp only [cons_prefix_cons, nil_prefix, and_true]
    exact ⟨fun hc => ⟨1, by simp [hc]⟩, fun ⟨k, hk⟩ => eq_of_mem_replicate (n := k) (by simp [← hk])⟩
  | [c, d], _ =>
    simp only [cons_prefix_cons, nil_prefix, and_true]
    exact ⟨fun ⟨hc, hd⟩ => ⟨2, by simp [hc, hd]⟩, fun ⟨k, hk⟩ =>
      ⟨eq_of_mem_replicate (n := k) (by simp [← hk]),
        eq_of_mem_replicate (n := k) (by simp [← hk])⟩⟩

theorem cutFrom_none (hrest : b.bytes.drop pos = rest)
    (hpos : pos ≤ b.bytes.length) (h : splitMark rest = none) :
    (EndsOpen pos rest → b.cutFrom dash pos rest = .error .outOfBounds) ∧ (¬ EndsOpen pos rest →
        b.cutFrom dash pos rest = .ok (b.bytes.length, b.bytes.length)) := by
  induction rest generalizing pos with
  | nil =>
    have hend : pos = b.bytes.length := le_antisymm hpos (drop_eq_nil_iff.1 hrest)
    refine ⟨?_, fun _ => by rw [cutFrom, hend]⟩
    rintro ⟨n, k, -, hdrop⟩
    simp at hdrop
  | cons c rest ih =>
    have hlen := congrArg length hrest
    simp only [length_drop, length_cons] at hlen
    have hsize := b.size_lt
    have hnext : b.bytes.drop (pos + 1) = rest := by
      rw [← tail_drop, hrest, tail_cons]
    have hmark : ¬ mark <+: c :: rest := fun hmark => by simp [splitMark, hmark] at h
    have hnone : splitMark rest = none := by simpa [splitMark, hmark] using h
    have ih := ih hnext (by omega) hnone
    rw [mark_isPrefix_iff, not_and] at hmark
    rw [endsOpen_cons, cutFrom, readsAs_eq hnext (by omega)]
    by_cases hc : c = newline
    · rw [if_neg (hmark hc)]
      by_cases hpre : rest <+: [dash, dash, newline]
      · have hshort : rest.length ≤ 2 := by
          have hle := hpre.length_le
          have hne : rest.length ≠ 3 := fun he => hmark hc (hpre.eq_of_length he ▸ prefix_rfl)
          simp only [length_cons, length_nil] at hle
          omega
        have hdashes := (isPrefix_dashes_iff hshort).1 hpre
        by_cases hwrap : 2 ^ 32 - 4 ≤ pos
        · -- the position after the mark wraps around, and the check for the end passes
          have hguard : (pos + 4) % 2 ^ 32 ≤ b.bytes.length := by omega
          rw [if_pos ⟨hc, hguard⟩, if_pos hpre]
          exact ⟨fun _ => rfl, fun hno => absurd (.inl ⟨hwrap, hc, hdashes⟩) hno⟩
        · have hguard : ¬ (pos + 4) % 2 ^ 32 ≤ b.bytes.length := by omega
          rw [if_neg fun h => hguard h.2, or_iff_right fun h => hwrap h.1]
          exact ih
      · by_cases hdashes : 2 ^ 32 - 4 ≤ pos ∧ ∃ k, rest = replicate k dash
        · exact absurd ((isPrefix_dashes_iff (by omega)).2 hdashes.2) hpre
        · rw [if_neg hpre, ite_self, or_iff_right fun h => hdashes ⟨h.1, h.2.2⟩]
          exact ih
    · rw [if_neg fun h => hc h.1, or_iff_right fun h => hc h.2.1]
      exact ih

theorem cutFrom_some {bytes : Bytes} (hbytes : b.bytes.drop pos = bytes)
    (hpos : pos ≤ b.bytes.length) (h : splitMark bytes = some (letter, rest)) :
    b.cutFrom dash pos bytes = .ok (pos + letter.length, pos + letter.length + 3) := by
  induction bytes generalizing pos letter with
  | nil => cases h
  | cons c bytes ih =>
    have hlen := congrArg length hbytes
    simp only [length_drop, length_cons] at hlen
    have hsize := b.size_lt
    have hnext : b.bytes.drop (pos + 1) = bytes := by
      rw [← tail_drop, hbytes, tail_cons]
    rw [cutFrom, readsAs_eq hnext (by omega)]
    rw [splitMark] at h
    split at h
    next hmark =>
      obtain ⟨rfl, hpre⟩ := mark_isPrefix_iff.1 hmark
      cases h
      have hthree := hpre.length_le
      simp only [length_cons, length_nil] at hthree
      have hguard : (pos + 4) % 2 ^ 32 ≤ b.bytes.length := by omega
      rw [if_pos ⟨rfl, hguard⟩, if_pos hpre]
      rfl
    next hmark =>
      obtain ⟨⟨l, r⟩, hl, he⟩ := Option.map_eq_some_iff.1 h
      cases he
      rw [mark_isPrefix_iff, not_and] at hmark
      have ih := ih hnext (by omega) hl
      have hfound := (splitMark_cut hl).split
      have hlong : ¬ bytes <+: [dash, dash, newline] := by
        intro hpre
        have hle := hpre.length_le
        obtain ⟨body, rfl⟩ := (splitMark_cut hl).ends
        simp [hfound] at hle
        omega
      have harith : pos + 1 + l.length = pos + (l.length + 1) := by omega
      rw [length_cons]
      rw [← harith, ← ih]
      by_cases hc : c = newline
      · simp [hc, hmark hc, hlong]
      · simp [hc]

/-- The scan leaves the buffer. -/
def Overruns (b : Buffer) : Prop := splitMark b.bytes = none ∧ EndsOpen 0 b.bytes

theorem cutLetter_some (h : splitMark b.bytes = some (letter, rest)) :
    b.cutLetter dash = .ok (letter.length, letter.length + 3) := by
  simpa [cutLetter] using cutFrom_some (b.bytes.drop_zero) (zero_le _) h

theorem cutLetter_none (h : splitMark b.bytes = none) (ho : ¬ b.Overruns) :
    b.cutLetter dash = .ok (b.bytes.length, b.bytes.length) :=
  (cutFrom_none b.bytes.drop_zero (zero_le _) h).2 fun hopen => ho ⟨h, hopen⟩

theorem cutLetter_overruns (h : b.Overruns) : b.cutLetter dash = .error .outOfBounds :=
  (cutFrom_none b.bytes.drop_zero (zero_le _) h.1).1 h.2

end Buffer

/-! ## The parsed lines -/

/-- A line that stands in the first bytes of a buffer together with the byte that ends it. -/
structure Line.Within (l : Line) (bytes : Bytes) (length : Nat) : Prop where
  stands : l.text <+: bytes.drop l.offset
  inside : l.offset + l.text.length < length

theorem Line.Within.mono {l : Line} {bytes n m} (h : l.Within bytes n) (hn : n ≤ m) :
    l.Within bytes m := ⟨h.stands, h.inside.trans_le hn⟩

theorem keyvalLinesFrom_within {bytes body rest : Bytes} {offset : Nat} {line : Bytes}
    (hbytes : bytes.drop offset = line ++ (body ++ (mark ++ rest))) :
    ∀ l ∈ keyvalLinesFrom offset line (body ++ (mark ++ rest)),
      l.Within bytes (offset + line.length + body.length + 1) := by
  induction body generalizing offset line with
  | nil =>
    intro l hl
    have hstop : ∀ n, keyvalLinesFrom n [] (dash :: dash :: newline :: rest) = [] := by
      intro n
      simp [keyvalLinesFrom, dash, newline]
    rw [nil_append, mark, cons_append, keyvalLinesFrom, if_pos rfl] at hl
    split at hl
    · cases hl
    split at hl <;> rw [cons_append, cons_append, cons_append, nil_append, hstop] at hl
    · cases hl
    · cases mem_singleton.1 hl
      exact ⟨⟨mark ++ rest, by simp [hbytes]⟩, by simp⟩
  | cons c body ih =>
    intro l hl
    rw [cons_append, keyvalLinesFrom] at hl
    split at hl
    next hc =>
      have hnext : bytes.drop (offset + line.length + 1) = [] ++ (body ++ (mark ++ rest)) := by
        have hdrop := congrArg (drop (line.length + 1)) hbytes
        rw [drop_drop] at hdrop
        rw [add_assoc, hdrop]
        simp [drop_append]
      have hlater := fun hl => (ih hnext l hl).mono (m := offset + line.length + (body.length + 1) + 1)
        (by simp; omega)
      split at hl
      · cases hl
      split at hl
      next hline =>
        subst hline
        exact hlater hl
      rcases mem_cons.1 hl with rfl | hl
      · refine ⟨⟨c :: body ++ (mark ++ rest), by simp [hbytes]⟩, ?_⟩
        simp only [length_cons]
        omega
      · exact hlater hl
    · have hnext : bytes.drop offset = (line ++ [c]) ++ (body ++ (mark ++ rest)) := by simp [hbytes]
      exact (ih hnext l hl).mono (by simp; omega)

theorem keyvalFrom_append (content : Content) (line body rest : Bytes) :
    keyvalFrom content line (body ++ (mark ++ rest)) =
      keyvalFrom content line (body ++ [newline]) := by
  induction body generalizing content line with
  | nil =>
    have hne : dash ≠ newline := by decide
    simp [mark, keyvalFrom, hne]
  | cons c body ih =>
    simp only [cons_append, keyvalFrom]
    split
    · split
      · rfl
      · exact ih _ _
    · exact ih _ _

variable {bytes letter rest : Bytes}

theorem Cut.keyvalLines_within (h : Cut bytes letter rest) :
    ∀ l ∈ keyvalLines bytes, l.Within bytes letter.length := by
  obtain ⟨hsplit, body, rfl⟩ := h
  have hbytes : bytes = body ++ (mark ++ rest) := by simp [hsplit, mark]
  have hstart : bytes.drop 0 = [] ++ (body ++ (mark ++ rest)) := by simp [hbytes]
  intro l hl
  rw [keyvalLines, hbytes] at hl
  simpa using keyvalLinesFrom_within hstart l hl

theorem Cut.parseKeyvalMem_eq (h : Cut bytes letter rest) (content : Content) :
    parseKeyvalMem bytes content = parseKeyvalMem letter content := by
  obtain ⟨hsplit, body, rfl⟩ := h
  have hbytes : bytes = body ++ (mark ++ rest) := by simp [hsplit, mark]
  rw [parseKeyvalMem, hbytes, keyvalFrom_append]
  rfl

/-! ## When verification answers -/

/-- A hash line after the mark has the length of some hash. -/
def Buffer.HashLineFits (b : Buffer) : Prop :=
  ∀ letter rest hashStr signature, splitMark b.bytes = some (letter, rest) →
    splitLine rest = some (hashStr, signature) →
    hashStr.length = 32 ∨ hashStr.length = 40 ∨ hashStr.length = 47 ∨ hashStr.length = 49

/-- **A verified letter is cut at its first mark.** -/
theorem Signatures.verifyLetter_true {s : Signatures} {byRsa : Bool} {b : Buffer}
    (h : s.verifyLetter byRsa b = .ok true) :
    ∃ letter rest, Cut b.bytes letter rest ∧ b.cutLetter dash = .ok (letter.length, letter.length + 3) := by
  cases hmark : splitMark b.bytes with
  | none =>
    exfalso
    by_cases ho : b.Overruns
    · simp [verifyLetter, Buffer.cutLetter_overruns ho] at h
    · simp [verifyLetter, Buffer.cutLetter_none hmark ho] at h
  | some p =>
    obtain ⟨letter, rest⟩ := p
    exact ⟨letter, rest, splitMark_cut hmark, Buffer.cutLetter_some hmark⟩

theorem Signatures.hashMem_ok_iff (s : Signatures) (hashStr text : Bytes) :
    (∃ computed, s.hashMem (mkFromHexPtr hashStr).algorithm text = .ok computed) ↔
      hashStr.length = 32 ∨ hashStr.length = 40 ∨ hashStr.length = 47 ∨ hashStr.length = 49 := by
  have hany := @algorithmOfLength_eq_any_iff hashStr.length
  rw [mkFromHexPtr_algorithm, hashMem]
  split
  next h =>
    have hne := hany.1 h
    simp only [reduceCtorEq, exists_false, false_iff]
    omega
  next h =>
    rw [hany] at h
    simp only [Except.ok.injEq, exists_eq', true_iff]
    omega

/-- **Verification answers** unless the scan leaves the buffer or the hash line has a length
that no hash has. -/
theorem Signatures.verifyLetter_ok_iff (s : Signatures) (byRsa : Bool) (b : Buffer) :
    (∃ answer, s.verifyLetter byRsa b = .ok answer) ↔ ¬ b.Overruns ∧ b.HashLineFits := by
  cases hmark : splitMark b.bytes with
  | none =>
    have hfits : b.HashLineFits := fun _ _ _ _ h => by simp [hmark] at h
    by_cases ho : b.Overruns
    · simp [verifyLetter, Buffer.cutLetter_overruns ho, ho]
    · simp [verifyLetter, Buffer.cutLetter_none hmark ho, ho, hfits]
  | some p =>
    obtain ⟨letter, rest⟩ := p
    have ho : ¬ b.Overruns := fun ho => by simp [ho.1] at hmark
    have hcut := splitMark_cut hmark
    have hdrop : b.bytes.drop (letter.length + 3) = rest := by
      rw [hcut.split]
      simp [drop_append]
    have hsize : b.bytes.length ≤ letter.length + 3 ↔ rest = [] := by
      rw [← drop_eq_nil_iff, hdrop]
    rw [verifyLetter, Buffer.cutLetter_some hmark]
    simp only [hdrop, hsize, ho, not_false_eq_true, true_and]
    cases hline : splitLine rest with
    | none =>
      have hfits : b.HashLineFits := by
        intro l r hashStr signature hl hr
        rw [hmark] at hl
        cases hl
        rw [hline] at hr
        cases hr
      simp only [hfits, iff_true]
      split <;> exact ⟨_, rfl⟩
    | some q =>
      obtain ⟨hashStr, signature⟩ := q
      have hne : rest ≠ [] := fun he => by simp [he, splitLine] at hline
      have hfits : b.HashLineFits ↔
          hashStr.length = 32 ∨ hashStr.length = 40 ∨ hashStr.length = 47 ∨ hashStr.length = 49 := by
        refine ⟨fun h => h _ _ _ _ hmark hline, fun h l r hs sg hl hr => ?_⟩
        rw [hmark] at hl
        cases hl
        rw [hline] at hr
        cases hr
        exact h
      rw [hfits, ← s.hashMem_ok_iff hashStr (b.bytes.take letter.length), if_neg hne]
      simp only
      cases s.hashMem (mkFromHexPtr hashStr).algorithm (b.bytes.take letter.length) with
      | error f => simp
      | ok computed =>
        simp only [Except.ok.injEq, exists_eq', iff_true]
        split <;> exact ⟨_, rfl⟩

end Cvmfs.Crypto
