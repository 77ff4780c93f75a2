import Mathlib.Data.List.Forall2
import Mathlib.Data.List.TakeWhile
import Cvmfs.Lib.Ere

/-! # Path patterns

A `Pathspec` is split at the separators into patterns of one directory level each. To match a
path, it is written as the text of a regular expression, which is compiled and executed with
`REG_EXTENDED` and `REG_NEWLINE`. Wildcards and placeholders stay within a directory level,
except that the wildcards of a relaxed match do not.

The bar is not among the characters that are escaped in the text. -/

namespace Cvmfs.PathFilters

open Lib.Ere List Compiles

abbrev Text := List UInt8

def kSeparator : UInt8 := 47
def kEscaper : UInt8 := 92
def kWildcard : UInt8 := 42
def kPlaceholder : UInt8 := 63

def isSpecialChar (c : UInt8) : Bool := c == kWildcard || c == kPlaceholder

/-! ## Patterns of one directory level -/

inductive SubPattern where
  | plaintext (chars : Text)
  | wildcard
  | placeholder
  deriving DecidableEq

structure ElementPattern where
  subpatterns : List SubPattern
  valid : Bool
  deriving DecidableEq

/-- The characters up to the next special one, if they are well escaped, and the rest. -/
def parsePlaintext : Text → Bool → Text × Bool × Text
  | [], _ => ([], true, [])
  | c :: cs, nextIsEscaped =>
    if isSpecialChar c && !nextIsEscaped then ([], true, c :: cs)
    else if c == kEscaper && !nextIsEscaped then parsePlaintext cs true
    else if nextIsEscaped then
      if isSpecialChar c || c == kEscaper then
        let (chars, valid, rest) := parsePlaintext cs false
        (c :: chars, valid, rest)
      else
        let (chars, _, rest) := parsePlaintext cs true
        (chars, false, rest)
    else
      let (chars, valid, rest) := parsePlaintext cs false
      (c :: chars, valid, rest)

def parseSpecialChar (c : UInt8) : SubPattern :=
  if c == kWildcard then .wildcard else .placeholder

/-- Every round consumes a character, so the length of the text is enough fuel. -/
def parseElement : Nat → Text → ElementPattern
  | 0, _ => ⟨[], true⟩
  | _ + 1, [] => ⟨[], true⟩
  | fuel + 1, c :: cs =>
    if isSpecialChar c then
      let e := parseElement fuel cs
      ⟨parseSpecialChar c :: e.subpatterns, e.valid⟩
    else
      let (chars, valid, rest) := parsePlaintext (c :: cs) false
      let e := parseElement fuel rest
      if chars = [] then ⟨e.subpatterns, false⟩
      else ⟨.plaintext chars :: e.subpatterns, e.valid && valid⟩

/-! ## Pathspecs -/

structure Pathspec where
  patterns : List ElementPattern
  valid : Bool
  absolute : Bool
  deriving DecidableEq

/-- The parts between separators; `current` is what has been read of the next one. -/
def elements : Text → Text → List Text
  | current, [] => if current = [] then [] else [current]
  | current, c :: cs =>
    if c = kSeparator then (if current = [] then [] else [current]) ++ elements [] cs
    else elements (current ++ [c]) cs

def patternsOf (spec : Text) : List ElementPattern :=
  (elements [] spec).map fun e => parseElement e.length e

def Pathspec.parse (spec : Text) : Pathspec where
  patterns := patternsOf spec
  valid := !(patternsOf spec).isEmpty && (patternsOf spec).all (·.valid)
  absolute := spec.head? == some kSeparator

/-! ## Regular expressions -/

/-- One of `. \ * ? [ ] ( ) { } ^ $ +`. -/
def isSpecialRegexCharacter (c : UInt8) : Bool :=
  c == 46 || c == 92 || c == 42 || c == 63 || c == 91 || c == 93 || c == 40 || c == 41 ||
    c == 123 || c == 125 || c == 94 || c == 36 || c == 43

def escape (c : UInt8) : Text := if isSpecialRegexCharacter c then [92, c] else [c]

def SubPattern.generateRegularExpression (isRelaxed : Bool) : SubPattern → Text
  | .plaintext chars => chars.flatMap escape
  | .wildcard => if isRelaxed then [46, 42] else [91, 94, kSeparator, 93, 42]
  | .placeholder => [91, 94, kSeparator, 93]

def ElementPattern.generateRegularExpression (isRelaxed : Bool) (e : ElementPattern) :
    Text :=
  e.subpatterns.flatMap (·.generateRegularExpression isRelaxed)

def Pathspec.generateRegularExpression (isRelaxed : Bool) (r : Pathspec) : Text :=
  94 :: ((if r.absolute then [kSeparator] else []) ++
    [kSeparator].intercalate (r.patterns.map (·.generateRegularExpression isRelaxed)) ++
    [kSeparator, 63, 36])

/-- What the C library sees of a string. -/
def cStr (s : Text) : Text := s.takeWhile (· != 0)

def applyRegularExpression (queryPath regex : Text) : Bool :=
  exec (compile (cStr regex)) (cStr queryPath)

def Pathspec.isMatching (r : Pathspec) (queryPath : Text) : Bool :=
  !queryPath.isEmpty && (!(queryPath.head? == some kSeparator) || r.absolute) &&
    applyRegularExpression queryPath (r.generateRegularExpression false)

def Pathspec.isMatchingRelaxed (r : Pathspec) (queryPath : Text) : Bool :=
  !queryPath.isEmpty && applyRegularExpression queryPath (r.generateRegularExpression true)

/-! ## Matching by directory levels -/

def SubPattern.chars : SubPattern → Text
  | .plaintext chars => chars
  | .wildcard => []
  | .placeholder => []

def Pathspec.chars (r : Pathspec) : Text :=
  r.patterns.flatMap fun e => e.subpatterns.flatMap SubPattern.chars

/-- The pieces that a strict match compiles to. -/
def SubPattern.pieces : SubPattern → List Piece
  | .plaintext chars => chars.flatMap fun c => [.one (.lit c)]
  | .wildcard => [.many (.except kSeparator)]
  | .placeholder => [.one (.except kSeparator)]

def ElementPattern.pieces (e : ElementPattern) : List Piece := e.subpatterns.flatMap (·.pieces)

/-- A name on one directory level matches the pattern. -/
def ElementPattern.Matches (e : ElementPattern) (name : Text) : Prop :=
  Consumes e.pieces name

/-- The absolute path with these names. -/
def joinPath (names : List Text) : Text := names.flatMap (kSeparator :: ·)

theorem compiles_escape {c} (hbar : c ≠ 124) : Compiles (escape c) [.one (.lit c)] := by
  unfold escape
  split
  · exact compiles_escaped c
  rename_i h
  refine compiles_literal ?_
  simp only [isSpecialRegexCharacter, Bool.or_eq_true, not_or] at h
  simp_all [isOperator]

theorem SubPattern.compiles {sub : SubPattern} (hbar : 124 ∉ sub.chars) :
    Compiles (sub.generateRegularExpression false) sub.pieces := by
  cases sub with
  | plaintext chars =>
    exact flatMap fun c hc => compiles_escape fun h => hbar (h ▸ hc)
  | wildcard => exact compiles_except_star kSeparator
  | placeholder => exact compiles_except kSeparator

theorem ElementPattern.compiles {e : ElementPattern}
    (hbar : ∀ sub ∈ e.subpatterns, 124 ∉ sub.chars) :
    Compiles (e.generateRegularExpression false) e.pieces :=
  flatMap fun sub hsub => SubPattern.compiles (hbar sub hsub)

theorem cons_intercalate : ∀ {xs : List Text}, xs ≠ [] →
    kSeparator :: [kSeparator].intercalate xs = joinPath xs
  | [], hne => absurd rfl hne
  | [x], _ => by simp [joinPath]
  | x :: y :: xs, _ => by
    have ih := cons_intercalate (cons_ne_nil y xs)
    rw [joinPath, flatMap_cons, ← joinPath, ← ih]
    simp [intercalate]

theorem cStr_eq_self {s} (h : 0 ∉ s) : cStr s = s := by
  refine takeWhile_eq_self_iff.2 fun c hc => bne_iff_ne.2 fun heq => ?_
  exact h (heq ▸ hc)

def Pathspec.pieces (r : Pathspec) : List Piece :=
  r.patterns.flatMap fun e => .one (.lit kSeparator) :: e.pieces

section

variable {r : Pathspec}

theorem mem_generateRegularExpression {sub : SubPattern} {c : UInt8}
    (h : c ∈ sub.generateRegularExpression false) :
    c ∈ sub.chars ∨ c ∈ [92, 91, 94, kSeparator, 93, 42] := by
  cases sub with
  | plaintext chars =>
    obtain ⟨d, hd, hc⟩ := mem_flatMap.1 h
    unfold escape at hc
    split at hc
    · simp only [mem_cons, not_mem_nil, or_false] at hc
      rcases hc with rfl | rfl
      · exact .inr (.head _)
      · exact .inl hd
    · cases mem_singleton.1 hc
      exact .inl hd
  | wildcard => exact .inr (.tail _ h)
  | placeholder =>
    refine .inr ?_
    simp only [SubPattern.generateRegularExpression, mem_cons, not_mem_nil, or_false] at h ⊢
    tauto

/-- There is no separator before the first level of a relative pattern. -/
def Pathspec.lead {α : Type} (r : Pathspec) (l : List α) : List α :=
  if r.absolute then l else l.tail

theorem Pathspec.generateRegularExpression_eq (hne : r.patterns ≠ []) :
    r.generateRegularExpression false =
      94 :: (r.lead (r.patterns.flatMap fun e => kSeparator :: e.generateRegularExpression false) ++
        [kSeparator, 63, 36]) := by
  have hmapped : r.patterns.map (·.generateRegularExpression false) ≠ [] := by simpa using hne
  have hjoin := cons_intercalate hmapped
  rw [joinPath, flatMap_map] at hjoin
  rw [generateRegularExpression, lead]
  cases r.absolute with
  | true => rw [if_pos rfl, if_pos rfl, singleton_append, hjoin]
  | false => rw [if_neg nofun, if_neg nofun, ← hjoin, nil_append, tail_cons]

theorem Pathspec.compile_strict (hne : r.patterns ≠ []) (hbar : 124 ∉ r.chars)
    (hnul : 0 ∉ r.chars) : compile (cStr (r.generateRegularExpression false)) =
      [.bol :: (r.lead r.pieces ++ [.opt (.lit kSeparator)] ++ [.eol])] := by
  have hchars : ∀ {e : ElementPattern} {sub : SubPattern} {c : UInt8}, e ∈ r.patterns →
      sub ∈ e.subpatterns → c ∈ sub.chars → c ∈ r.chars := fun he hsub hc =>
    mem_flatMap.2 ⟨_, he, mem_flatMap.2 ⟨_, hsub, hc⟩⟩
  have hlead : ∀ {l : Text}, r.lead l ⊆ l := by
    intro l
    rw [lead]
    split
    · exact Subset.refl l
    · exact fun _ => mem_of_mem_tail
  have htext : 0 ∉ r.generateRegularExpression false := by
    rw [r.generateRegularExpression_eq hne]
    intro hmem
    simp only [mem_cons, mem_append, not_mem_nil, or_false] at hmem
    rcases hmem with hmem | hmem | hmem | hmem | hmem
    · cases hmem
    · obtain ⟨e, he, hmem⟩ := mem_flatMap.1 (hlead hmem)
      rcases mem_cons.1 hmem with hmem | hmem
      · cases hmem
      obtain ⟨sub, hsub, hc⟩ := mem_flatMap.1 hmem
      rcases mem_generateRegularExpression hc with hc | hc
      · exact hnul (hchars he hsub hc)
      · revert hc
        decide
    · cases hmem
    · cases hmem
    · cases hmem
  have helement : ∀ e ∈ r.patterns, Compiles (e.generateRegularExpression false) e.pieces :=
    fun e he => ElementPattern.compiles fun sub hsub hmem => hbar (hchars he hsub hmem)
  have hlevel : ∀ e ∈ r.patterns, Compiles (kSeparator :: e.generateRegularExpression false)
      (.one (.lit kSeparator) :: e.pieces) := fun e he =>
    (compiles_literal (c := kSeparator) rfl).append (helement e he)
  rw [cStr_eq_self htext, r.generateRegularExpression_eq hne]
  refine line ?_ rfl
  rw [lead, lead, pieces]
  split
  · exact flatMap hlevel
  · obtain ⟨e, es, hes⟩ := exists_cons_of_ne_nil hne
    rw [hes] at helement hlevel ⊢
    exact (helement e (.head _)).append (flatMap fun e he => hlevel e (.tail _ he))

theorem consumes_pieces {patterns u} :
    Consumes (patterns.flatMap fun e => .one (.lit kSeparator) :: e.pieces) u ↔
      ∃ names, Forall₂ ElementPattern.Matches patterns names ∧ u = joinPath names := by
  induction patterns generalizing u with
  | nil =>
    constructor
    · rintro rfl
      exact ⟨[], .nil, rfl⟩
    · rintro ⟨names, h, rfl⟩
      cases h
      rfl
  | cons e patterns ih =>
    rw [flatMap_cons, consumes_append]
    constructor
    · rintro ⟨v, w, rfl, ⟨c, name, rfl, hc, hname⟩, hw⟩
      obtain ⟨names, hnames, rfl⟩ := ih.1 hw
      have hsep : c = kSeparator := eq_of_beq hc
      exact ⟨name :: names, .cons hname hnames, by rw [hsep]; rfl⟩
    · rintro ⟨names, h, rfl⟩
      cases h with
      | cons hname hnames =>
        exact ⟨_, _, rfl, ⟨_, _, rfl, beq_self_eq_true _, hname⟩, ih.2 ⟨_, hnames, rfl⟩⟩

theorem Pathspec.plain_of_mem_pieces {p} (hp : p ∈ r.pieces) : p.Plain := by
  obtain ⟨e, -, hp⟩ := mem_flatMap.1 hp
  rcases mem_cons.1 hp with rfl | hp
  · trivial
  obtain ⟨sub, -, hp⟩ := mem_flatMap.1 hp
  cases sub with
  | plaintext chars =>
    obtain ⟨c, -, hp⟩ := mem_flatMap.1 hp
    cases mem_singleton.1 hp
    trivial
  | wildcard | placeholder =>
    cases mem_singleton.1 hp
    trivial

/-- Plain characters: all but those that end a line or a string of the C library. -/
def Printable (path : Text) : Prop := 10 ∉ path ∧ 0 ∉ path

/-- The path as an absolute one if the pattern is relative. -/
def Pathspec.rooted (r : Pathspec) (path : Text) : Text :=
  if r.absolute then path else kSeparator :: path

theorem Pathspec.consumes_lead (hne : r.patterns ≠ []) {path : Text} {ps : List Piece} :
    Consumes (r.lead r.pieces ++ ps) path ↔ Consumes (r.pieces ++ ps) (r.rooted path) := by
  rw [lead, rooted]
  split
  · rfl
  obtain ⟨e, es, hes⟩ := exists_cons_of_ne_nil hne
  rw [pieces, hes]
  constructor
  · exact fun h => ⟨_, _, rfl, beq_self_eq_true _, h⟩
  · rintro ⟨c, v, hv, -, h⟩
    cases hv
    exact h

theorem Pathspec.consumes_line {path : Text} :
    Consumes (r.pieces ++ [.opt (.lit kSeparator)]) path ↔
      ∃ names, Forall₂ ElementPattern.Matches r.patterns names ∧
        (path = joinPath names ∨ path = joinPath names ++ [kSeparator]) := by
  rw [consumes_append]
  constructor
  · rintro ⟨v, w, rfl, hv, hw⟩
    obtain ⟨names, hnames, rfl⟩ := consumes_pieces.1 hv
    refine ⟨names, hnames, ?_⟩
    rcases hw with rfl | ⟨c, t, rfl, hc, rfl⟩
    · exact .inl (append_nil _)
    · rw [eq_of_beq hc]
      exact .inr rfl
  · rintro ⟨names, hnames, hpath⟩
    refine ⟨joinPath names, ?_⟩
    rcases hpath with rfl | rfl
    · exact ⟨[], (append_nil _).symm, consumes_pieces.2 ⟨names, hnames, rfl⟩, .inl rfl⟩
    · exact ⟨[kSeparator], rfl, consumes_pieces.2 ⟨names, hnames, rfl⟩,
        .inr ⟨_, [], rfl, beq_self_eq_true _, rfl⟩⟩

theorem Pathspec.isMatching_spec (hne : r.patterns ≠ []) (hbar : 124 ∉ r.chars)
    (hnul : 0 ∉ r.chars) {path} (hpath : Printable path) :
    r.isMatching path = true ↔ path ≠ [] ∧ (path.head? = some kSeparator → r.absolute = true) ∧
      ∃ names, Forall₂ ElementPattern.Matches r.patterns names ∧
        (r.rooted path = joinPath names ∨ r.rooted path = joinPath names ++ [kSeparator]) := by
  have hplain : ∀ p ∈ r.lead r.pieces ++ [.opt (.lit kSeparator)], p.Plain := by
    intro p hp
    rcases mem_append.1 hp with hp | hp
    · rw [lead] at hp
      split at hp
      · exact r.plain_of_mem_pieces hp
      · exact r.plain_of_mem_pieces (mem_of_mem_tail hp)
    · cases mem_singleton.1 hp
      trivial
  rw [← consumes_line, ← consumes_lead hne, ← exec_line hplain hpath.1, ← r.compile_strict hne hbar hnul,
    isMatching, Bool.and_eq_true, Bool.and_eq_true, and_assoc, applyRegularExpression,
    cStr_eq_self hpath.2]
  refine and_congr (by simp) (and_congr ?_ Iff.rfl)
  cases r.absolute <;> simp

theorem Pathspec.isMatching_iff (habsolute : r.absolute = true) (hne : r.patterns ≠ [])
    (hbar : 124 ∉ r.chars) (hnul : 0 ∉ r.chars) {path} (hpath : Printable path) :
    r.isMatching path = true ↔ ∃ names, Forall₂ ElementPattern.Matches r.patterns names ∧
      (path = joinPath names ∨ path = joinPath names ++ [kSeparator]) := by
  rw [isMatching_spec hne hbar hnul hpath, rooted, if_pos habsolute]
  refine ⟨fun h => h.2.2, fun ⟨names, hnames, hpath⟩ => ⟨?_, fun _ => habsolute, names, hnames, hpath⟩⟩
  cases names with
  | nil => exact absurd (forall₂_nil_right_iff.1 hnames) hne
  | cons name names => rcases hpath with rfl | rfl <;> exact cons_ne_nil _ _

end

end Cvmfs.PathFilters
