import Cvmfs.Lib.Glob
import Cvmfs.PathFilters.Pruning

/-! # What a pattern stands for

A `Pathspec` is translated into a regular expression, and into a string for `glob()`. Both are
compared with the pattern itself: an asterisk stands for any text, a question mark for any byte,
on one directory level. -/

namespace Cvmfs.PathFilters

open Lib.Ere List
open Lib.Decimal (ascii)

/-! ## Glob strings -/

def globEscape (c : UInt8) : Text := if isSpecialChar c then [92, c] else [c]

def SubPattern.generateGlobString : SubPattern → Text
  | .plaintext chars => chars.flatMap globEscape
  | .wildcard => [42]
  | .placeholder => [63]

def ElementPattern.generateGlobString (e : ElementPattern) : Text :=
  e.subpatterns.flatMap SubPattern.generateGlobString

def Pathspec.getGlobString (r : Pathspec) : Text :=
  r.lead (joinPath (r.patterns.map ElementPattern.generateGlobString))

/-! ## The texts of a pattern -/

def Stands : List SubPattern → Text → Prop
  | [], name => name = []
  | .plaintext chars :: subs, name => ∃ v, name = chars ++ v ∧ Stands subs v
  | .wildcard :: subs, name => ∃ w v, name = w ++ v ∧ Stands subs v
  | .placeholder :: subs, name => ∃ c v, name = c :: v ∧ Stands subs v

def ElementPattern.StandsFor (e : ElementPattern) (name : Text) : Prop :=
  Stands e.subpatterns name ∧ kSeparator ∉ name

/-- The path splits at the separators into names that the patterns stand for one by one. -/
def Pathspec.StandsFor (r : Pathspec) (path : Text) : Prop :=
  ∃ names, Forall₂ ElementPattern.StandsFor r.patterns names ∧
    (r.rooted path = joinPath names ∨ r.rooted path = joinPath names ++ [kSeparator])

variable {subs : List SubPattern} {name chars : Text}

theorem consumes_plaintext {ps : List Piece} :
    Consumes ((chars.flatMap fun c => [.one (.lit c)]) ++ ps) name ↔
      ∃ v, name = chars ++ v ∧ Consumes ps v := by
  induction chars generalizing name with
  | nil => simp
  | cons c chars ih =>
    rw [flatMap_cons, append_assoc, singleton_append, Consumes]
    simp only [ih, Atom.has, beq_iff_eq]
    constructor
    · rintro ⟨d, v, rfl, rfl, w, rfl, h⟩
      exact ⟨w, rfl, h⟩
    · rintro ⟨v, rfl, h⟩
      exact ⟨c, _, rfl, rfl, v, rfl, h⟩

theorem consumes_iff_stands (hline : 10 ∉ name) (hlevel : kSeparator ∉ name) :
    Consumes (subs.flatMap SubPattern.pieces) name ↔ Stands subs name := by
  have hhas : ∀ {c}, c ∈ name → (Atom.except kSeparator).has c = true := fun {c} hc => by
    simp only [Atom.has, Bool.and_eq_true, bne_iff_ne]
    exact ⟨fun h => hlevel (h ▸ hc), fun h => hline (h ▸ hc)⟩
  induction subs generalizing name with
  | nil => rfl
  | cons sub subs ih =>
    cases sub with
    | plaintext chars =>
      rw [flatMap_cons, SubPattern.pieces, consumes_plaintext]
      refine exists_congr fun v => and_congr_right fun h => ?_
      subst h
      exact ih (fun h => hline (mem_append_right _ h)) (fun h => hlevel (mem_append_right _ h))
        fun h => hhas (mem_append_right _ h)
    | wildcard =>
      refine exists_congr fun w => exists_congr fun v => and_congr_right fun h => ?_
      subst h
      refine (and_iff_right fun c hc => hhas (mem_append_left _ hc)).trans ?_
      exact ih (fun h => hline (mem_append_right _ h)) (fun h => hlevel (mem_append_right _ h))
        fun h => hhas (mem_append_right _ h)
    | placeholder =>
      refine exists_congr fun c => exists_congr fun v => and_congr_right fun h => ?_
      subst h
      refine (and_iff_right (hhas (.head _))).trans ?_
      exact ih (fun h => hline (.tail _ h)) (fun h => hlevel (.tail _ h)) fun h => hhas (.tail _ h)

theorem matchItems_plaintext {items : List Lib.Glob.Item} :
    Lib.Glob.matchItems (chars.map .char ++ items) name = true ↔
      ∃ v, name = chars ++ v ∧ Lib.Glob.matchItems items v = true := by
  induction chars generalizing name with
  | nil => simp
  | cons c chars ih =>
    cases name with
    | nil => simp [Lib.Glob.matchItems]
    | cons d name =>
      rw [map_cons, cons_append, Lib.Glob.matchItems, Bool.and_eq_true, beq_iff_eq, ih]
      simp [and_assoc]

theorem parse_plaintext (hbracket : 91 ∉ chars) (hbackslash : 92 ∉ chars) (rest : Text) :
    Lib.Glob.parse 0 (chars.flatMap globEscape ++ rest) =
      chars.map .char ++ Lib.Glob.parse 0 rest := by
  induction chars with
  | nil => rfl
  | cons c chars ih =>
    have ih := ih (fun h => hbracket (.tail _ h)) (fun h => hbackslash (.tail _ h))
    have hc : c ≠ 91 ∧ c ≠ 92 :=
      ⟨fun h => hbracket (h ▸ .head _), fun h => hbackslash (h ▸ .head _)⟩
    rw [flatMap_cons, append_assoc, globEscape, map_cons, cons_append]
    split
    · simp [Lib.Glob.parse, ih]
    next hspecial =>
      rw [singleton_append, Lib.Glob.parse_char, ih]
      simp only [isSpecialChar, Bool.or_eq_true, not_or, kWildcard, kPlaceholder] at hspecial
      simp [Lib.Glob.isSpecial, hspecial, hc]

theorem matchName_iff_stands (hbracket : 91 ∉ subs.flatMap SubPattern.chars)
    (hbackslash : 92 ∉ subs.flatMap SubPattern.chars) :
    Lib.Glob.matchName (subs.flatMap SubPattern.generateGlobString) name = true ↔
      Stands subs name := by
  rw [Lib.Glob.matchName]
  induction subs generalizing name with
  | nil => simp [Lib.Glob.parse, Lib.Glob.matchItems, Stands]
  | cons sub subs ih =>
    simp only [flatMap_cons, mem_append, not_or] at hbracket hbackslash ⊢
    have ih name := @ih name hbracket.2 hbackslash.2
    cases sub with
    | plaintext chars =>
      have hchars : 91 ∉ chars ∧ 92 ∉ chars := ⟨hbracket.1, hbackslash.1⟩
      simp only [SubPattern.generateGlobString, parse_plaintext hchars.1 hchars.2,
        matchItems_plaintext, ih]
      rfl
    | wildcard =>
      simp only [SubPattern.generateGlobString, singleton_append, Lib.Glob.parse, if_true,
        Lib.Glob.matchItems_many, ih]
      rfl
    | placeholder =>
      cases name with
      | nil => simp [SubPattern.generateGlobString, Lib.Glob.parse, Lib.Glob.matchItems, Stands]
      | cons c name =>
        simp [SubPattern.generateGlobString, Lib.Glob.parse, Lib.Glob.matchItems, Stands, ih]

/-! ## Paths -/

theorem splitOn_joinPath {names : List Text} (hnames : ∀ n ∈ names, kSeparator ∉ n) :
    (joinPath names).splitOn 47 = [] :: names := by
  cases names with
  | nil => rfl
  | cons n names =>
    rw [← cons_intercalate (cons_ne_nil n names), splitOn_cons_eq_if_modifyHead, if_pos (by decide)]
    exact congrArg ([] :: ·) (splitOn_intercalate 47 hnames (cons_ne_nil n names))

theorem exists_joinPath (rest : Text) :
    ∃ n names, kSeparator :: rest = joinPath (n :: names) ∧ ∀ m ∈ n :: names, kSeparator ∉ m := by
  induction rest with
  | nil => exact ⟨[], [], rfl, by simp⟩
  | cons c rest ih =>
    obtain ⟨n, names, hrest, hnames⟩ := ih
    by_cases hc : c = kSeparator
    · refine ⟨[], n :: names, ?_, forall_mem_cons.2 ⟨not_mem_nil, hnames⟩⟩
      rw [hc, hrest]
      rfl
    rw [joinPath, flatMap_cons, cons_append] at hrest
    obtain ⟨hn, hnames⟩ := forall_mem_cons.1 hnames
    refine ⟨c :: n, names, ?_, forall_mem_cons.2 ⟨?_, hnames⟩⟩
    · rw [(cons.inj hrest).2, joinPath, flatMap_cons]
      rfl
    · exact fun h => (mem_cons.1 h).elim (fun he => hc he.symm) hn

theorem forall₂_congr_mem {α β : Type} {R S : α → β → Prop} {l : List α} {u : List β}
    (h : ∀ a ∈ l, ∀ b ∈ u, (R a b ↔ S a b)) : Forall₂ R l u ↔ Forall₂ S l u := by
  rw [forall₂_iff_zip, forall₂_iff_zip]
  refine and_congr_right fun _ => forall_congr' fun a => forall_congr' fun b =>
    forall_congr' fun hab => ?_
  exact h a (of_mem_zip hab).1 b (of_mem_zip hab).2

section

variable {r : Pathspec} {path : Text} {names : List Text}

theorem mem_joinPath {n : Text} {c : UInt8} (hn : n ∈ names) (hc : c ∈ n) :
    c ∈ joinPath names := mem_flatMap.2 ⟨n, hn, .tail _ hc⟩

theorem forall₂_matches_iff (hsep : kSeparator ∉ r.chars) (hline : 10 ∉ joinPath names) :
    Forall₂ ElementPattern.Matches r.patterns names ↔
      Forall₂ ElementPattern.StandsFor r.patterns names := by
  refine forall₂_congr_mem fun e he n hn => ?_
  have hn' : 10 ∉ n := fun h => hline (mem_joinPath hn h)
  have he' : kSeparator ∉ e.subpatterns.flatMap SubPattern.chars :=
    fun h => hsep (mem_flatMap.2 ⟨e, he, h⟩)
  constructor
  · exact fun h => ⟨(consumes_iff_stands hn' (h.not_mem he')).1 h, h.not_mem he'⟩
  · exact fun h => (consumes_iff_stands hn' h.2).2 h.1

theorem standsFor_iff (hsep : kSeparator ∉ r.chars) (hpath : Printable path) :
    r.StandsFor path ↔ ∃ names, Forall₂ ElementPattern.Matches r.patterns names ∧
      (r.rooted path = joinPath names ∨ r.rooted path = joinPath names ++ [kSeparator]) := by
  have hrooted : 10 ∉ r.rooted path := by
    rw [Pathspec.rooted]
    split
    · exact hpath.1
    · exact fun h => (mem_cons.1 h).elim (by decide) hpath.1
  refine exists_congr fun names => and_congr_left fun h => (forall₂_matches_iff hsep ?_).symm
  rcases h with h | h <;> rw [h] at hrooted
  · exact hrooted
  · exact fun hn => hrooted (mem_append_left _ hn)

theorem standsFor_joinPath (habsolute : r.absolute = true) (hnames : ∀ n ∈ names, kSeparator ∉ n)
    (hlast : (joinPath names).getLast? ≠ some kSeparator) :
    r.StandsFor (joinPath names) ↔ Forall₂ ElementPattern.StandsFor r.patterns names := by
  rw [Pathspec.StandsFor, Pathspec.rooted, if_pos habsolute]
  constructor
  · rintro ⟨names', h, he | he⟩
    · have hnames' : ∀ n ∈ names', kSeparator ∉ n := by
        intro n hn
        obtain ⟨i, hi, rfl⟩ := getElem_of_mem hn
        exact (h.get (h.length_eq ▸ hi) hi).2
      have hsplit := splitOn_joinPath hnames
      rw [he, splitOn_joinPath hnames'] at hsplit
      rwa [← (cons.inj hsplit).2]
    · exact absurd (he ▸ getLast?_concat) hlast
  · exact fun h => ⟨names, h, .inl rfl⟩

theorem matchPath_joinPath (habsolute : r.absolute = true) (hbracket : 91 ∉ r.chars)
    (hbackslash : 92 ∉ r.chars) (hsep : kSeparator ∉ r.chars)
    (hnames : ∀ n ∈ names, kSeparator ∉ n) : Lib.Glob.matchPath r.getGlobString (joinPath names) ↔
      Forall₂ ElementPattern.StandsFor r.patterns names := by
  have hglobs : ∀ g ∈ r.patterns.map ElementPattern.generateGlobString, kSeparator ∉ g := by
    intro g hg hmem
    obtain ⟨e, he, rfl⟩ := mem_map.1 hg
    obtain ⟨sub, hsub, hmem⟩ := mem_flatMap.1 hmem
    cases sub with
    | plaintext chars =>
      obtain ⟨c, hc, hmem⟩ := mem_flatMap.1 hmem
      have hcs : c = kSeparator := by
        unfold globEscape at hmem
        split at hmem
        · simpa [kSeparator, eq_comm] using hmem
        · simpa [eq_comm] using hmem
      exact hsep (mem_flatMap.2 ⟨e, he, mem_flatMap.2 ⟨_, hsub, hcs ▸ hc⟩⟩)
    | wildcard | placeholder => simp [SubPattern.generateGlobString, kSeparator] at hmem
  rw [Lib.Glob.matchPath, Pathspec.getGlobString, Pathspec.lead, if_pos habsolute,
    splitOn_joinPath hglobs, splitOn_joinPath hnames, forall₂_cons, and_iff_right (by rfl),
    forall₂_map_left_iff]
  refine forall₂_congr_mem fun e he n hn => ?_
  have hmem : ∀ {c}, c ∈ e.subpatterns.flatMap SubPattern.chars → c ∈ r.chars :=
    fun h => mem_flatMap.2 ⟨e, he, h⟩
  exact (matchName_iff_stands (fun h => hbracket (hmem h)) fun h => hbackslash (hmem h)).trans
    (and_iff_left (hnames n hn)).symm

end

/-- **A pathspec denotes its pattern**, as a regular expression for all patterns without bars, and
as a glob string for those without brackets and backslashes. -/
theorem pathspec_denotes_pattern (spec : Text) (hvalid : (Pathspec.parse spec).valid = true)
    (hbar : 124 ∉ (Pathspec.parse spec).chars) (hnul : 0 ∉ (Pathspec.parse spec).chars)
    (path : Text) (hne : path ≠ []) (hpath : Printable path) :
    ((Pathspec.parse spec).isMatching path = true ↔
      (path.head? = some kSeparator ↔ (Pathspec.parse spec).absolute = true) ∧
        (Pathspec.parse spec).StandsFor path) ∧
    ((Pathspec.parse spec).absolute = true → 91 ∉ (Pathspec.parse spec).chars →
      92 ∉ (Pathspec.parse spec).chars → path.head? = some kSeparator →
      path.getLast? ≠ some kSeparator →
      (Lib.Glob.matchPath (Pathspec.parse spec).getGlobString path ↔
        (Pathspec.parse spec).isMatching path = true)) := by
  have hsep := separator_not_mem_chars spec
  have hpatterns : (Pathspec.parse spec).patterns ≠ [] := by
    intro h
    simp [Pathspec.parse, show patternsOf spec = [] from h] at hvalid
  generalize Pathspec.parse spec = r at *
  have hmatch : r.isMatching path = true ↔
      (path.head? = some kSeparator ↔ r.absolute = true) ∧ r.StandsFor path := by
    rw [r.isMatching_spec hpatterns hbar hnul hpath, and_iff_right hne, ← standsFor_iff hsep hpath]
    refine and_congr_left fun hstands => ⟨fun hhead => ⟨hhead, fun ha => ?_⟩, Iff.mp⟩
    obtain ⟨names, hnames, h⟩ := hstands
    obtain ⟨n, names, rfl⟩ : ∃ n ns, names = n :: ns := by
      cases names with
      | nil => exact absurd (forall₂_nil_right_iff.1 hnames) hpatterns
      | cons n ns => exact ⟨n, ns, rfl⟩
    rw [Pathspec.rooted, if_pos ha] at h
    rcases h with h | h <;> rw [h] <;> rfl
  refine ⟨hmatch, fun ha hbracket hbackslash hhead hlast => ?_⟩
  obtain ⟨rest, rfl⟩ := head?_eq_some_iff.1 hhead
  obtain ⟨n, names, hrest, hnames⟩ := exists_joinPath rest
  rw [hmatch, and_iff_right (iff_of_true hhead ha)]
  rw [hrest] at hlast ⊢
  rw [matchPath_joinPath ha hbracket hbackslash hsep hnames, standsFor_joinPath ha hnames hlast]

theorem pathspec_denotes_pattern_wildcard :
    (Pathspec.parse (ascii "/a*")).StandsFor (ascii "/ab") :=
  ((pathspec_denotes_pattern (ascii "/a*") (by decide) (by decide) (by decide) (ascii "/ab")
    (by decide) ⟨by decide, by decide⟩).1.1 (by decide)).2

/-- A bracket is not escaped in the glob string, a bar not in the regular expression, and an
absolute pattern does not match a relative path that has the same names. -/
theorem pathspec_translations_differ :
    (Lib.Glob.matchPath (Pathspec.parse (ascii "/a[b]")).getGlobString (ascii "/ab") ∧
      (Pathspec.parse (ascii "/a[b]")).isMatching (ascii "/ab") = false) ∧
    ((Pathspec.parse (ascii "/a|b")).isMatching (ascii "/ax") = true ∧
      (Pathspec.parse (ascii "/a|b")).patterns = [⟨[.plaintext (ascii "a|b")], true⟩]) ∧
    Forall₂ ElementPattern.StandsFor (Pathspec.parse (ascii "/a")).patterns [ascii "a"] ∧
      (Pathspec.parse (ascii "/a")).isMatching (ascii "a") = false := by
  refine ⟨⟨?_, by decide⟩, ⟨by decide, by decide⟩, .cons ⟨⟨[], rfl, rfl⟩, by decide⟩ .nil,
    by decide⟩
  exact .cons (by decide) (.cons (by decide) .nil)

end Cvmfs.PathFilters
