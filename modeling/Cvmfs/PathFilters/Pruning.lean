import Mathlib.Algebra.Order.BigOperators.Group.List
import Mathlib.Algebra.Order.Group.Nat
import Cvmfs.PathFilters.SubPaths

/-! # Partial replicas

The paths of an inclusion set are closed upwards: the leading parts of the positive rules are
rules themselves, the rules match level by level, and negative rules are tested on every path
above. This needs rules whose text stands for itself in a regular expression, which a bar
does not, and paths of a single line. A walk over the nested catalogs that stops at the
excluded ones then meets the same catalogs as one that visits all of them and drops the
excluded ones. -/

namespace Cvmfs.PathFilters

open List Pathspec InclusionSpec
open Lib.Decimal (ascii)

variable {a c p q s t : Text}

/-! ## The rules of a spec -/

/-- A leading part of the rule, as a rule of its own. -/
def Leading (s : Text) (r : Pathspec) : Prop :=
  ∃ c, c ≠ [] ∧ (c = s ∨ Above c s) ∧ r = parse c

/-- All leading parts of the rule are valid. -/
def Accepted (s : Text) : Prop :=
  ∀ r, Leading s r → r.valid = true ∧ r.absolute = true

theorem leading_append (ht : kSeparator ∉ t) {r} :
    Leading (a ++ kSeparator :: t) r ↔ r = parse (a ++ kSeparator :: t) ∨ Leading a r := by
  constructor
  · rintro ⟨c, hc, rfl | habove, rfl⟩
    · exact .inl rfl
    · exact .inr ⟨c, hc, (above_append ht).1 habove, rfl⟩
  · rintro (rfl | ⟨c, hc, habove, rfl⟩)
    · exact ⟨_, by simp, .inl rfl, rfl⟩
    · exact ⟨c, hc, .inr ((above_append ht).2 habove), rfl⟩

theorem not_leading_nil {r} : ¬ Leading [] r := by
  rintro ⟨c, hc, heq | habove, -⟩
  · exact hc heq
  · exact not_above_nil habove

variable {d d' : Dirtab}

theorem parsePathspec_true {negation} (h : d.parsePathspec s negation = (d', true)) (hs : s ≠ []) :
    d' = d.addRule (parse s) negation ∧ (parse s).valid = true ∧
      (negation = false → (parse s).absolute = true) := by
  rw [Dirtab.parsePathspec, if_neg hs] at h
  dsimp only at h
  split at h
  · cases h
  rename_i hok
  cases h
  simp only [Bool.or_eq_true, Bool.not_eq_true', Bool.and_eq_true, not_or, not_and,
    Bool.not_eq_false] at hok
  exact ⟨rfl, hok.1, hok.2⟩

theorem both_true {α : Type} {x y : α} {ok valid} (h : some (x, ok && valid) = some (y, true)) :
    x = y ∧ ok = true ∧ valid = true := by simpa using h

theorem parsePathspecs_true {fuel} (h : parsePathspecs fuel d s = some (d', true)) :
    Accepted s ∧ ∀ r, r ∈ d'.positiveRules ↔ r ∈ d.positiveRules ∨ Leading s r := by
  induction fuel generalizing s d with
  | zero => cases h
  | succ fuel ih =>
    have hs : Rooted s := by
      by_contra hs
      rw [parsePathspecs_eq_none hs] at h
      cases h
    rw [parsePathspecs] at h
    split at h
    · rename_i hnil
      cases h
      subst hnil
      exact ⟨fun r hr => absurd hr not_leading_nil, fun r =>
        ⟨.inl, fun hr => hr.resolve_right not_leading_nil⟩⟩
    rename_i hne
    obtain ⟨a, t, rfl, ht, -⟩ := hs.exists_last hne
    rw [cut_append ht] at h
    cases hfirst : d.parsePathspec (a ++ kSeparator :: t) false with
    | mk d₁ ok =>
      rw [hfirst] at h
      obtain ⟨⟨d₂, success⟩, hrest, heq⟩ := Option.bind_eq_some_iff.1 h
      obtain ⟨rfl, rfl, rfl⟩ := both_true heq
      obtain ⟨rfl, hvalid, habsolute⟩ := parsePathspec_true hfirst hne
      obtain ⟨haccepted, hrules⟩ := ih hrest
      refine ⟨fun r hr => ?_, fun r => ?_⟩
      · rcases (leading_append ht).1 hr with rfl | hr
        · exact ⟨hvalid, habsolute rfl⟩
        · exact haccepted r hr
      · rw [hrules, leading_append ht, Dirtab.addRule, if_neg Bool.false_ne_true, mem_append,
          mem_singleton, or_assoc]

/-- What a parser makes of the positive rules that it accepts. -/
structure Adds (parser : Parser) (added : Text → Pathspec → Prop)
    (accepted : Text → Prop) : Prop where
  positive : ∀ {d d' s}, parser d s false = some (d', true) →
    accepted s ∧ ∀ r, r ∈ d'.positiveRules ↔ r ∈ d.positiveRules ∨ added s r
  negative : ∀ {d d' s}, parser d s true = some (d', true) → d'.positiveRules = d.positiveRules

theorem parsePathspec_negative (h : d.parsePathspec s true = (d', true)) :
    d'.positiveRules = d.positiveRules := by
  by_cases hs : s = []
  · subst hs
    cases h
    rfl
  · obtain ⟨rfl, -, -⟩ := parsePathspec_true h hs
    rfl

theorem adds_relaxedParser (fuel : Nat) : Adds (relaxedParser fuel) Leading Accepted where
  positive h := parsePathspecs_true h
  negative h := parsePathspec_negative (Option.some.inj h)

theorem adds_exactParser : Adds exactParser (fun s r => s ≠ [] ∧ r = parse s) fun _ => True where
  positive {d d' s} h := by
    refine ⟨trivial, fun r => ?_⟩
    have hparse : d.parsePathspec s false = (d', true) := Option.some.inj h
    by_cases hs : s = []
    · subst hs
      cases hparse
      exact ⟨.inl, fun hr => hr.resolve_right fun hne => hne.1 rfl⟩
    · obtain ⟨rfl, -, -⟩ := parsePathspec_true hparse hs
      rw [Dirtab.addRule, if_neg Bool.false_ne_true, mem_append, mem_singleton]
      exact or_congr_right ⟨fun h => ⟨hs, h⟩, fun h => h.2⟩
  negative h := parsePathspec_negative (Option.some.inj h)

/-- The positive rules on the lines. -/
def positiveSpecs (lines : List Text) (s : Text) : Prop :=
  ∃ line ∈ lines, ruleOf line = some (false, s)

theorem positiveSpecs_cons {line lines} :
    positiveSpecs (line :: lines) s ↔ ruleOf line = some (false, s) ∨ positiveSpecs lines s := by
  unfold positiveSpecs
  rw [exists_mem_cons_iff]

variable {parser : Parser}

section

variable {added : Text → Pathspec → Prop}
  {accepted : Text → Prop}
  (hadds : Adds parser added accepted)
include hadds

theorem Adds.parseLine {line} (h : parseLine parser d line = some (d', true)) :
    (∀ s, ruleOf line = some (false, s) → accepted s) ∧ ∀ r, r ∈ d'.positiveRules ↔
        r ∈ d.positiveRules ∨ ∃ s, ruleOf line = some (false, s) ∧ added s r := by
  unfold PathFilters.parseLine at h
  split at h
  · rename_i hrule
    cases h
    rw [hrule]
    exact ⟨nofun, fun r => ⟨.inl, fun hr => hr.resolve_right fun ⟨_, hs, _⟩ => nomatch hs⟩⟩
  rename_i negation s hrule
  rw [hrule]
  cases negation with
  | true =>
    rw [hadds.negative h]
    exact ⟨nofun, fun r => ⟨.inl, fun hr => hr.resolve_right fun ⟨_, hs, _⟩ => nomatch hs⟩⟩
  | false =>
    obtain ⟨haccepted, hrules⟩ := hadds.positive h
    refine ⟨fun s' hs' => ?_, fun r => ?_⟩
    · cases hs'
      exact haccepted
    rw [hrules]
    refine or_congr_right ⟨fun hr => ⟨s, rfl, hr⟩, ?_⟩
    rintro ⟨s', hs', hr⟩
    cases hs'
    exact hr

theorem Adds.parseLines {lines} (h : parseLines parser lines d = some (d', true)) :
    (∀ s, positiveSpecs lines s → accepted s) ∧
      ∀ r, r ∈ d'.positiveRules ↔ r ∈ d.positiveRules ∨ ∃ s, positiveSpecs lines s ∧ added s r := by
  induction lines generalizing d with
  | nil =>
    cases h
    refine ⟨?_, fun r => ⟨.inl, fun hr => hr.resolve_right ?_⟩⟩
    · rintro s ⟨line, hline, -⟩
      cases hline
    · rintro ⟨s, ⟨line, hline, -⟩, -⟩
      cases hline
  | cons line lines ih =>
    rw [PathFilters.parseLines] at h
    obtain ⟨⟨d₁, ok⟩, hline, h⟩ := Option.bind_eq_some_iff.1 h
    obtain ⟨⟨d₂, valid⟩, hlines, heq⟩ := Option.bind_eq_some_iff.1 h
    obtain ⟨rfl, rfl, rfl⟩ := both_true heq
    obtain ⟨haccepted, hrules⟩ := ih hlines
    obtain ⟨hfirst, hadded⟩ := hadds.parseLine hline
    refine ⟨fun s hs => ?_, fun r => ?_⟩
    · exact (positiveSpecs_cons.1 hs).elim (hfirst s) (haccepted s)
    · rw [hrules, hadded, or_assoc, ← exists_or]
      refine or_congr_right (exists_congr fun s => ?_)
      rw [positiveSpecs_cons, or_and_right]

end

/-- The rules of a filter, by the positive rules of its text. -/
structure RelaxedPathFilter.Of (f : RelaxedPathFilter) (specs : Text → Prop) : Prop where
  accepted : ∀ s, specs s → Accepted s
  rules : ∀ r, r ∈ f.rules.positiveRules ↔ ∃ s, specs s ∧ Leading s r
  exact : ∀ r, r ∈ f.exact.positiveRules ↔ ∃ s, specs s ∧ s ≠ [] ∧ r = Pathspec.parse s

variable {text : Text}

theorem Dirtab.parse_true (h : Dirtab.parse parser text = some (d, true)) :
    parseLines parser (getLines [] text) {} = some (d, true) := by
  obtain ⟨⟨d', valid⟩, hlines, heq⟩ := Option.bind_eq_some_iff.1 h
  obtain ⟨rfl, rfl, -⟩ := both_true heq
  exact hlines

theorem InclusionSpec.of_parse {fuel f} (h : parse fuel text = some (some f)) :
    ∃ specs, f.Of specs := by
  unfold parse at h
  split at h
  · cases h
  rename_i content hcontent
  obtain ⟨⟨f', valid⟩, hparse, hvalid⟩ := Option.bind_eq_some_iff.1 h
  dsimp only at hvalid
  split at hvalid
  · rename_i htrue
    cases hvalid
    subst htrue
    obtain ⟨⟨rules, valid⟩, hrules, hparse⟩ := Option.bind_eq_some_iff.1 hparse
    obtain ⟨⟨exact, exactValid⟩, hexact, heq⟩ := Option.bind_eq_some_iff.1 hparse
    obtain ⟨rfl, rfl, rfl⟩ := both_true heq
    obtain ⟨haccepted, hadded⟩ := (adds_relaxedParser fuel).parseLines (Dirtab.parse_true hrules)
    obtain ⟨-, hexactAdded⟩ := adds_exactParser.parseLines (Dirtab.parse_true hexact)
    refine ⟨positiveSpecs (getLines [] content), haccepted, fun r => ?_, fun r => ?_⟩
    · rw [hadded]
      exact or_iff_right not_mem_nil
    · rw [hexactAdded]
      exact or_iff_right not_mem_nil
  · cases hvalid

/-! ## The levels of a rule -/

theorem elements_append (current : Text) :
    elements current (a ++ kSeparator :: t) = elements current a ++ elements [] t := by
  induction a generalizing current with
  | nil => simp only [nil_append, elements, if_true]
  | cons d a ih =>
    rw [cons_append, elements, elements]
    split
    · rw [ih, append_assoc]
    · rw [ih]

theorem elements_of_not_mem (current : Text) (h : kSeparator ∉ t) :
    elements current t = if current ++ t = [] then [] else [current ++ t] := by
  induction t generalizing current with
  | nil => rw [elements, append_nil]
  | cons d t ih =>
    have hd : d ≠ kSeparator := fun heq => h (heq ▸ mem_cons_self)
    rw [elements, if_neg hd, ih _ fun hmem => h (.tail _ hmem), append_assoc]
    rfl

theorem not_mem_of_mem_elements {e current} (h : kSeparator ∉ current) (he : e ∈ elements current s) :
    kSeparator ∉ e := by
  induction s generalizing current with
  | nil =>
    rw [elements] at he
    split at he
    · cases he
    · cases mem_singleton.1 he
      exact h
  | cons d s ih =>
    rw [elements] at he
    split at he
    · rcases mem_append.1 he with he | he
      · split at he
        · cases he
        · cases mem_singleton.1 he
          exact h
      · exact ih not_mem_nil he
    · rename_i hd
      refine ih (fun hmem => ?_) he
      rcases mem_append.1 hmem with hmem | hmem
      · exact h hmem
      · exact hd (mem_singleton.1 hmem).symm

theorem patternsOf_append : patternsOf (a ++ kSeparator :: t) = patternsOf a ++ patternsOf t := by
  rw [patternsOf, elements_append, map_append]
  rfl

theorem exists_leading_init (hc : Rooted c) {ps e} (hps : patternsOf c = ps ++ [e]) :
    ps = [] ∨ ∃ c', c' ≠ [] ∧ Above c' c ∧ patternsOf c' = ps := by
  induction hn : c.length using Nat.strong_induction_on generalizing c with
  | _ n ih =>
    have hne : c ≠ [] := by
      rintro rfl
      cases ps <;> cases hps
    obtain ⟨a, t, rfl, ht, ha⟩ := hc.exists_last hne
    rw [patternsOf_append] at hps
    by_cases hempty : t = []
    · subst hempty
      have hpsa : patternsOf a = ps ++ [e] := by
        rw [← hps]
        exact (append_nil _).symm
      rcases ih a.length (by rw [← hn]; simp) ha hpsa rfl with hnil | ⟨c', hc', habove, heq⟩
      · exact .inl hnil
      · exact .inr ⟨c', hc', (above_append ht).2 (.inr habove), heq⟩
    have hlast : patternsOf t = [parseElement t.length t] := by
      rw [patternsOf, elements_of_not_mem [] ht, nil_append, if_neg hempty]
      rfl
    rw [hlast] at hps
    obtain ⟨rfl, -⟩ := append_inj' hps rfl
    by_cases hnil : a = []
    · subst hnil
      exact .inl rfl
    · exact .inr ⟨a, hnil, ⟨t, rfl⟩, rfl⟩

/-! ## The characters of a rule -/

theorem parsePlaintext_subset (s : Text) (esc : Bool) :
    (parsePlaintext s esc).1 ⊆ s ∧ (parsePlaintext s esc).2.2 ⊆ s := by
  induction s generalizing esc with
  | nil => exact ⟨fun _ h => h, fun _ h => h⟩
  | cons c s ih =>
    have hfalse := ih false
    have htrue := ih true
    have htail : s ⊆ c :: s := subset_cons_self _ _
    rw [parsePlaintext]
    split
    · exact ⟨nil_subset _, fun _ h => h⟩
    split
    · exact ⟨Subset.trans htrue.1 htail, Subset.trans htrue.2 htail⟩
    split
    · split
      · exact ⟨cons_subset_cons _ hfalse.1, Subset.trans hfalse.2 htail⟩
      · exact ⟨Subset.trans htrue.1 htail, Subset.trans htrue.2 htail⟩
    · exact ⟨cons_subset_cons _ hfalse.1, Subset.trans hfalse.2 htail⟩

theorem parseElement_subset (fuel : Nat) (s : Text) :
    (parseElement fuel s).subpatterns.flatMap SubPattern.chars ⊆ s := by
  induction fuel generalizing s with
  | zero => exact nil_subset _
  | succ fuel ih =>
    cases s with
    | nil => exact nil_subset _
    | cons c s =>
      rw [parseElement]
      split
      · intro x hx
        rw [flatMap_cons] at hx
        rcases mem_append.1 hx with hx | hx
        · unfold parseSpecialChar at hx
          split at hx <;> cases hx
        · exact .tail _ (ih s hx)
      obtain ⟨hchars, hrest⟩ := parsePlaintext_subset (c :: s) false
      dsimp only
      split
      · exact Subset.trans (ih _) hrest
      intro x hx
      rw [flatMap_cons] at hx
      rcases mem_append.1 hx with hx | hx
      · exact hchars hx
      · exact hrest (ih _ hx)

theorem separator_not_mem_chars (s : Text) : kSeparator ∉ (parse s).chars := by
  intro hmem
  obtain ⟨e, he, hmem⟩ := mem_flatMap.1 hmem
  obtain ⟨x, hx, rfl⟩ := mem_map.1 he
  exact not_mem_of_mem_elements not_mem_nil hx (parseElement_subset _ _ hmem)

theorem chars_subset_of_above (h : Above c s) : (parse c).chars ⊆ (parse s).chars := by
  obtain ⟨t, rfl⟩ := h
  intro x hx
  obtain ⟨e, he, hx⟩ := mem_flatMap.1 hx
  refine mem_flatMap.2 ⟨e, ?_, hx⟩
  show e ∈ patternsOf (c ++ kSeparator :: t)
  rw [patternsOf_append]
  exact mem_append_left _ he

/-! ## Inclusion is closed upwards -/

theorem ElementPattern.Matches.not_mem {e : ElementPattern} {name : Text}
    (h : e.Matches name) (he : kSeparator ∉ e.subpatterns.flatMap SubPattern.chars) :
    kSeparator ∉ name := by
  intro hmem
  obtain ⟨piece, hpiece, atom, hatom, hhas⟩ := h.exists_has hmem
  obtain ⟨sub, hsub, hpiece⟩ := mem_flatMap.1 hpiece
  cases sub with
  | plaintext chars =>
    obtain ⟨d, hd, hpiece⟩ := mem_flatMap.1 hpiece
    cases mem_singleton.1 hpiece
    cases hatom
    have heq : kSeparator = d := eq_of_beq hhas
    exact he (mem_flatMap.2 ⟨_, hsub, heq ▸ hd⟩)
  | wildcard | placeholder =>
    cases mem_singleton.1 hpiece
    cases hatom
    cases hhas

theorem joinPath_append (names : List Text) (name : Text) :
    joinPath (names ++ [name]) = joinPath names ++ kSeparator :: name := by
  simp [joinPath]

theorem exists_forall₂_init {patterns init last}
    (h : Forall₂ ElementPattern.Matches patterns (init ++ [last])) :
    ∃ ps e, patterns = ps ++ [e] ∧ Forall₂ ElementPattern.Matches ps init ∧ e.Matches last := by
  have hinit := forall₂_take_append _ _ _ h
  have hlast := forall₂_drop_append _ _ _ h
  obtain ⟨e, l, he, hl, heq⟩ := forall₂_cons_right_iff.1 hlast
  cases hl
  refine ⟨_, e, ?_, hinit, he⟩
  rw [← heq, take_append_drop]

namespace RelaxedPathFilter

variable {f : RelaxedPathFilter} {specs : Text → Prop}

/-- The plain characters of the positive rules stand for themselves in regular expressions. -/
def Literal (f : RelaxedPathFilter) : Prop :=
  ∀ r ∈ f.exact.positiveRules, 124 ∉ r.chars ∧ 0 ∉ r.chars

/-- What a positive rule, or a leading part of one, is. -/
structure LevelRule (r : Pathspec) : Prop where
  absolute : r.absolute = true
  nonempty : r.patterns ≠ []
  bar : 124 ∉ r.chars
  nul : 0 ∉ r.chars
  separator : kSeparator ∉ r.chars

variable {r : Pathspec}

theorem Of.levelRule (h : f.Of specs) (hliteral : f.Literal) (hr : r ∈ f.rules.positiveRules) :
    LevelRule r := by
  obtain ⟨s, hs, hleading⟩ := (h.rules r).1 hr
  obtain ⟨hvalid, habsolute⟩ := h.accepted s hs r hleading
  obtain ⟨c, hc, habove, rfl⟩ := hleading
  have hne : s ≠ [] := by
    rintro rfl
    rcases habove with rfl | habove
    · exact hc rfl
    · exact not_above_nil habove
  have hsub : (Pathspec.parse c).chars ⊆ (Pathspec.parse s).chars := by
    rcases habove with rfl | habove
    · exact fun _ h => h
    · exact chars_subset_of_above habove
  obtain ⟨hbar, hnul⟩ := hliteral _ ((h.exact _).2 ⟨s, hs, hne, rfl⟩)
  refine ⟨habsolute, fun hnil => ?_, fun hmem => hbar (hsub hmem), fun hmem => hnul (hsub hmem),
    separator_not_mem_chars c⟩
  have hpatterns : (patternsOf c).isEmpty = true := isEmpty_iff.2 hnil
  rw [Pathspec.parse, hpatterns] at hvalid
  cases hvalid

theorem Of.exists_init (h : f.Of specs) (hr : r ∈ f.rules.positiveRules) {ps e}
    (hps : r.patterns = ps ++ [e]) (hne : ps ≠ []) :
    ∃ r' ∈ f.rules.positiveRules, r'.patterns = ps := by
  obtain ⟨s, hs, hleading⟩ := (h.rules r).1 hr
  obtain ⟨-, habsolute⟩ := h.accepted s hs r hleading
  obtain ⟨c, -, habove, rfl⟩ := hleading
  have hrooted : Rooted c := .inr (eq_of_beq habsolute)
  obtain ⟨c', hc', habove', heq⟩ := (exists_leading_init hrooted hps).resolve_left hne
  refine ⟨Pathspec.parse c', (h.rules _).2 ⟨s, hs, c', hc', .inr ?_, rfl⟩, heq⟩
  rcases habove with rfl | habove
  · exact habove'
  · exact habove'.trans habove

theorem Of.positive_cut (h : f.Of specs) (hliteral : f.Literal) (hp : Printable p)
    (ha : Printable a) (ht : kSeparator ∉ t) (hpa : p = a ++ kSeparator :: t) (hne : a ≠ [])
    (hr : r ∈ f.rules.positiveRules) (hmatch : r.isMatching p = true) :
    ∃ r' ∈ f.rules.positiveRules, r'.isMatching a = true := by
  have hrule := h.levelRule hliteral hr
  obtain ⟨names, hnames, hpath⟩ := (r.isMatching_iff hrule.absolute hrule.nonempty hrule.bar
    hrule.nul hp).1 hmatch
  rcases hpath with hpath | hpath
  · have hnonempty : names ≠ [] := by
      rintro rfl
      exact hrule.nonempty (forall₂_nil_right_iff.1 hnames)
    obtain ⟨init, last, rfl⟩ : ∃ init last, names = init ++ [last] :=
      ⟨_, _, (dropLast_append_getLast hnonempty).symm⟩
    obtain ⟨ps, e, hps, hinit, hlast⟩ := exists_forall₂_init hnames
    -- the last name has no separator, so that it is what is cut off
    have hname : kSeparator ∉ last := hlast.not_mem fun hmem => hrule.separator
      (mem_flatMap.2 ⟨e, hps ▸ mem_append_right _ (mem_singleton_self _), hmem⟩)
    have hcut : a = joinPath init := by
      have hcut := congrArg cut (hpa.symm.trans hpath)
      rwa [cut_append ht, joinPath_append, cut_append hname] at hcut
    have hsome : ps ≠ [] := by
      rintro rfl
      cases hinit
      exact hne hcut
    obtain ⟨r', hr', rfl⟩ := h.exists_init hr hps hsome
    have hrule' := h.levelRule hliteral hr'
    exact ⟨r', hr', (r'.isMatching_iff hrule'.absolute hrule'.nonempty hrule'.bar hrule'.nul ha).2
      ⟨init, hinit, .inl hcut⟩⟩
  · -- the separator at the end is what is cut off
    have hcut : a = joinPath names := by
      have hcut := congrArg cut (hpa.symm.trans hpath)
      rwa [cut_append ht, cut_append not_mem_nil] at hcut
    exact ⟨r, hr, (r.isMatching_iff hrule.absolute hrule.nonempty hrule.bar hrule.nul ha).2
      ⟨names, hnames, .inl hcut⟩⟩

theorem not_opposes_of_above (hq : Above q p) (h : ¬ f.Opposes p) : ¬ f.Opposes q := by
  rintro (hmatch | ⟨q', hq', hmatch⟩)
  · exact h (.inr ⟨q, hq, hmatch⟩)
  · exact h (.inr ⟨q', hq'.trans hq, hmatch⟩)

theorem Of.includes_cut (h : f.Of specs) (hliteral : f.Literal) (hp : Printable p)
    (ha : Printable a) (ht : kSeparator ∉ t) (hpa : p = a ++ kSeparator :: t) (hne : a ≠ [])
    (hincludes : f.Includes p) : f.Includes a := by
  rcases hincludes with ⟨r, hr, hmatch⟩ | ⟨q, hq, hmatch⟩
  · exact .inl (h.positive_cut hliteral hp ha ht hpa hne hr hmatch)
  subst hpa
  rcases (above_append ht).1 hq with rfl | hq
  · -- an exact rule is a leading part of itself
    rw [Dirtab.isMatching, Bool.and_eq_true, any_eq_true] at hmatch
    obtain ⟨⟨r, hr, hmatch⟩, -⟩ := hmatch
    obtain ⟨s, hs, hs', rfl⟩ := (h.exact r).1 hr
    exact .inl ⟨_, (h.rules _).2 ⟨s, hs, s, hs', .inl rfl, rfl⟩, hmatch⟩
  · exact .inr ⟨q, hq, hmatch⟩

end RelaxedPathFilter

theorem Printable.of_append (h : Printable (a ++ t)) : Printable a :=
  ⟨fun hmem => h.1 (mem_append_left _ hmem), fun hmem => h.2 (mem_append_left _ hmem)⟩

namespace InclusionSpec

variable {f : RelaxedPathFilter} {specs : Text → Prop}

theorem included_cut (h : f.Of specs) (hliteral : f.Literal)
    (hp : Printable (a ++ kSeparator :: t)) (ht : kSeparator ∉ t)
    (hincluded : Included f (a ++ kSeparator :: t)) : Included f a := by
  by_cases hne : a = []
  · exact .inl hne
  rcases hincluded with hnil | hroot | ⟨hincludes, hopposes⟩
  · exact absurd (append_eq_nil_iff.1 hnil).1 hne
  · cases a with
    | nil => exact absurd rfl hne
    | cons c a => cases a <;> cases hroot
  · exact .inr (.inr ⟨h.includes_cut hliteral hp hp.of_append ht rfl hne hincludes,
      RelaxedPathFilter.not_opposes_of_above ⟨t, rfl⟩ hopposes⟩)

theorem included_above (h : f.Of specs) (hliteral : f.Literal) (hp : Printable p)
    (hrooted : Rooted p) (hincluded : Included f p) (hq : Above q p) : Included f q := by
  induction hn : p.length using Nat.strong_induction_on generalizing p with
  | _ n ih =>
    have hne : p ≠ [] := by
      rintro rfl
      exact not_above_nil hq
    obtain ⟨a, t, rfl, ht, ha⟩ := hrooted.exists_last hne
    have hcut := included_cut h hliteral hp ht hincluded
    rcases (above_append ht).1 hq with rfl | hq
    · exact hcut
    · exact ih a.length (by rw [← hn]; simp) hp.of_append ha hcut hq rfl

end InclusionSpec

/-! ## Nested catalogs -/

structure Catalog (H : Type) where
  hash : H
  mountpoint : Text
  referencedObjects : List H

inductive CatalogTree (H : Type) where
  | node (catalog : Catalog H) (nested : List (CatalogTree H))

def CatalogTree.catalog {H : Type} : CatalogTree H → Catalog H
  | .node catalog _ => catalog

section

variable {H : Type}

/-- The nested catalogs of a tree are mounted below their parents. -/
inductive Mounted : Text → CatalogTree H → Prop
  | node {mountpoint : Text} {catalog : Catalog H} {nested : List (CatalogTree H)} :
    Above mountpoint catalog.mountpoint → Printable catalog.mountpoint →
    (∀ tree ∈ nested, Mounted catalog.mountpoint tree) → Mounted mountpoint (.node catalog nested)

mutual

def pull (fuel : Nat) (filter : RelaxedPathFilter) : CatalogTree H → Option (List (Catalog H))
  | .node catalog nested => do
    let replicated ← pullRecursion fuel filter nested
    some (catalog :: replicated)

def pullRecursion (fuel : Nat) (filter : RelaxedPathFilter) :
    List (CatalogTree H) → Option (List (Catalog H))
  | [] => some []
  | .node catalog nested :: trees => do
    if ← isExcluded fuel filter catalog.mountpoint then
      pullRecursion fuel filter trees
    else
      let replicated ← pull fuel filter (.node catalog nested)
      let others ← pullRecursion fuel filter trees
      some (replicated ++ others)

end

mutual

def traverse : CatalogTree H → List (Catalog H)
  | .node catalog nested => catalog :: traverseAll nested

def traverseAll : List (CatalogTree H) → List (Catalog H)
  | [] => []
  | tree :: trees => traverse tree ++ traverseAll trees

end

/-- The catalogs that `PreserveDataObjects` marks live. -/
def preserveDataObjects (fuel : Nat) (filter : RelaxedPathFilter) :
    List (Catalog H) → Option (List (Catalog H))
  | [] => some []
  | catalog :: catalogs => do
    let excluded ← isExcluded fuel filter catalog.mountpoint
    let preserved ← preserveDataObjects fuel filter catalogs
    some (if excluded then preserved else catalog :: preserved)

/-- The hashes that are filled in for the live catalogs. -/
def hashFilter (preserved : List (Catalog H)) : List H :=
  preserved.flatMap fun catalog => catalog.hash :: catalog.referencedObjects

/-- The hashes that `SweepExcludedDataObjects` removes. -/
def sweepExcludedDataObjects [DecidableEq H] (fuel : Nat) (filter : RelaxedPathFilter)
    (live : List H) : List (Catalog H) → Option (List H)
  | [] => some []
  | catalog :: catalogs => do
    let excluded ← isExcluded fuel filter catalog.mountpoint
    let swept ← sweepExcludedDataObjects fuel filter live catalogs
    some (if excluded then
      (catalog.referencedObjects ++ [catalog.hash]).filter (· ∉ live) ++ swept else swept)

/-- The catalogs of a repository: only the root catalog has no parent. -/
def Repository : CatalogTree H → Prop
  | .node catalog nested => catalog.mountpoint = [] ∧ ∀ tree ∈ nested, Mounted [] tree

variable {f : RelaxedPathFilter} {specs : Text → Prop} {fuel : Nat}

/-- A mount point for which `IsExcluded` returns with this fuel. -/
def Fits (fuel : Nat) (catalog : Catalog H) : Prop :=
  Rooted catalog.mountpoint ∧ catalog.mountpoint.length < fuel

def live (f : RelaxedPathFilter) (catalogs : List (Catalog H)) : List (Catalog H) :=
  catalogs.filter fun catalog => !excludes f catalog.mountpoint

variable {catalogs : List (Catalog H)}

theorem live_cons {catalog} (h : excludes f catalog.mountpoint = false) :
    live f (catalog :: catalogs) = catalog :: live f catalogs := by
  refine filter_cons_of_pos ?_
  rw [h]
  rfl

theorem preserveDataObjects_eq (h : ∀ catalog ∈ catalogs, Fits fuel catalog) :
    preserveDataObjects fuel f catalogs = some (live f catalogs) := by
  induction catalogs with
  | nil => rfl
  | cons catalog catalogs ih =>
    obtain ⟨hrooted, hfuel⟩ := h catalog (.head _)
    rw [preserveDataObjects, isExcluded_eq hrooted hfuel,
      ih fun c hc => h c (.tail _ hc), live, live, filter_cons]
    cases excludes f catalog.mountpoint <;> rfl

variable {trees : List (CatalogTree H)} {catalog : Catalog H}

theorem mem_traverseAll :
    catalog ∈ traverseAll trees ↔ ∃ tree ∈ trees, catalog ∈ traverse tree := by
  induction trees with
  | nil => simp [traverseAll]
  | cons tree trees ih => rw [traverseAll, mem_append, ih, exists_mem_cons_iff]

variable {tree : CatalogTree H} {mountpoint : Text}

theorem Mounted.above (h : Mounted mountpoint tree) :
    ∀ catalog ∈ traverse tree, Printable catalog.mountpoint ∧ Above mountpoint catalog.mountpoint ∧
        (catalog = tree.catalog ∨ Above tree.catalog.mountpoint catalog.mountpoint) := by
  induction h with
  | node habove hprintable _ ih =>
    intro c hc
    rw [traverse] at hc
    rcases mem_cons.1 hc with rfl | hc
    · exact ⟨hprintable, habove, .inl rfl⟩
    · obtain ⟨tree, htree, hc⟩ := mem_traverseAll.1 hc
      obtain ⟨hprintable', habove', -⟩ := ih tree htree c hc
      exact ⟨hprintable', habove.trans habove', .inr habove'⟩

theorem rooted_of_above (h : Above a p) (ha : Rooted a) : Rooted p := by
  obtain ⟨t, rfl⟩ := h
  refine .inr ?_
  cases a with
  | nil => rfl
  | cons c a => exact ha.resolve_left (cons_ne_nil _ _)

theorem Mounted.live_eq_nil {mountpoint} (h : Mounted mountpoint tree)
    (hmountpoint : Rooted mountpoint) (hof : f.Of specs) (hliteral : f.Literal)
    (hexcluded : excludes f tree.catalog.mountpoint = true) : live f (traverse tree) = [] := by
  refine filter_eq_nil_iff.2 fun catalog hmem => ?_
  obtain ⟨hprintable, habove, hat⟩ := h.above catalog hmem
  rw [Bool.not_eq_true, Bool.not_eq_false']
  rcases hat with rfl | hbelow
  · exact hexcluded
  have hrooted := rooted_of_above habove hmountpoint
  rw [← Bool.not_eq_false, excludes_eq_false_iff hrooted]
  intro hincluded
  have hparent := included_above hof hliteral hprintable hrooted hincluded hbelow
  rw [← excludes_eq_false_iff (hbelow.rooted hrooted), hexcluded] at hparent
  cases hparent

theorem pullRecursion_eq (hmountpoint : Rooted mountpoint) (hof : f.Of specs) (hliteral : f.Literal)
    (hmounted : ∀ tree ∈ trees, Mounted mountpoint tree)
    (hfits : ∀ catalog ∈ traverseAll trees, Fits fuel catalog)
    (hpull : ∀ tree ∈ trees, excludes f tree.catalog.mountpoint = false →
      pull fuel f tree = some (live f (traverse tree))) :
    pullRecursion fuel f trees = some (live f (traverseAll trees)) := by
  induction trees with
  | nil => rfl
  | cons tree trees ih =>
    have hrest := ih (fun t ht => hmounted t (.tail _ ht))
      (fun c hc => hfits c (mem_append_right _ hc))
      (fun t ht => hpull t (.tail _ ht))
    have hlive : live f (traverseAll (tree :: trees)) =
        live f (traverse tree) ++ live f (traverseAll trees) := filter_append ..
    obtain ⟨catalog, nested⟩ := tree
    obtain ⟨hrooted, hfuel⟩ := hfits catalog (mem_append_left _ (.head _))
    rw [pullRecursion, isExcluded_eq hrooted hfuel, hlive]
    cases hexcluded : excludes f catalog.mountpoint with
    | true =>
      rw [(hmounted _ (.head _)).live_eq_nil hmountpoint hof hliteral hexcluded]
      exact hrest
    | false =>
      have hfirst := hpull _ (.head _) hexcluded
      rw [hfirst, hrest]
      rfl

theorem pull_node_eq {nested} (hrooted : Rooted catalog.mountpoint)
    (hof : f.Of specs) (hliteral : f.Literal)
    (hnested : ∀ tree ∈ nested, Mounted catalog.mountpoint tree)
    (hfits : ∀ c ∈ traverse (.node catalog nested), Fits fuel c)
    (hincluded : excludes f catalog.mountpoint = false)
    (hpull : ∀ tree ∈ nested, (∀ c ∈ traverse tree, Fits fuel c) →
      excludes f tree.catalog.mountpoint = false →
        pull fuel f tree = some (live f (traverse tree))) :
    pull fuel f (.node catalog nested) = some (live f (traverse (.node catalog nested))) := by
  have hrest := pullRecursion_eq hrooted hof hliteral hnested (fun c hc => hfits c (.tail _ hc))
    fun tree htree => hpull tree htree fun c hc =>
      hfits c (.tail _ (mem_traverseAll.2 ⟨tree, htree, hc⟩))
  rw [pull, hrest, traverse, live_cons hincluded]
  rfl

theorem Mounted.pull_eq (h : Mounted mountpoint tree)
    (hmountpoint : Rooted mountpoint) (hof : f.Of specs) (hliteral : f.Literal)
    (hfits : ∀ catalog ∈ traverse tree, Fits fuel catalog)
    (hincluded : excludes f tree.catalog.mountpoint = false) :
    pull fuel f tree = some (live f (traverse tree)) := by
  induction h with
  | @node mountpoint catalog nested habove _ hnested ih =>
    have hrooted := rooted_of_above habove hmountpoint
    exact pull_node_eq hrooted hof hliteral hnested hfits hincluded fun tree htree =>
      ih tree htree hrooted

/-- The walk of `Pull` from the root catalog meets exactly the live catalogs. -/
theorem pull_eq_of_repository (h : Repository tree) (hof : f.Of specs) (hliteral : f.Literal)
    (hfits : ∀ catalog ∈ traverse tree, Fits fuel catalog) :
    pull fuel f tree = some (live f (traverse tree)) := by
  obtain ⟨catalog, nested⟩ := tree
  obtain ⟨hroot, hnested⟩ := h
  refine pull_node_eq (.inl hroot) hof hliteral (hroot ▸ hnested) hfits (by rw [hroot]; rfl) ?_
  exact fun tree htree => (hnested tree htree).pull_eq (.inl rfl) hof hliteral

theorem exists_fits (h : Repository tree) :
    ∃ n, ∀ fuel, n ≤ fuel → ∀ catalog ∈ traverse tree, Fits fuel catalog := by
  have hrooted : ∀ catalog ∈ traverse tree, Rooted catalog.mountpoint := by
    obtain ⟨root, nested⟩ := tree
    intro catalog hmem
    rcases mem_cons.1 hmem with rfl | hmem
    · exact .inl h.1
    · obtain ⟨tree, htree, hmem⟩ := mem_traverseAll.1 hmem
      exact rooted_of_above ((h.2 tree htree).above catalog hmem).2.1 (.inl rfl)
  refine ⟨((traverse tree).map (·.mountpoint.length)).sum + 1, fun fuel hfuel catalog hmem => ?_⟩
  have hle := le_sum_of_mem (mem_map_of_mem (f := (·.mountpoint.length)) hmem)
  exact ⟨hrooted catalog hmem, Nat.lt_of_lt_of_le (Nat.lt_succ_of_le hle) hfuel⟩

theorem sweepExcludedDataObjects_spec [DecidableEq H] {hashes}
    (h : ∀ catalog ∈ catalogs, Fits fuel catalog) :
    ∃ swept, sweepExcludedDataObjects fuel f hashes catalogs = some swept ∧
      ∀ x ∈ hashes, x ∉ swept := by
  induction catalogs with
  | nil => exact ⟨[], rfl, fun _ _ => not_mem_nil⟩
  | cons catalog catalogs ih =>
    obtain ⟨hrooted, hfuel⟩ := h catalog (.head _)
    obtain ⟨swept, hswept, hkept⟩ := ih fun c hc => h c (.tail _ hc)
    rw [sweepExcludedDataObjects, isExcluded_eq hrooted hfuel, hswept]
    refine ⟨_, rfl, fun x hx hmem => ?_⟩
    split at hmem
    · rcases mem_append.1 hmem with hmem | hmem
      · exact absurd hx (of_decide_eq_true (mem_filter.1 hmem).2)
      · exact hkept x hx hmem
    · exact hkept x hx hmem

end

/-! ## Partial replication -/

open InclusionSpec

theorem exists_accepted {result : Option (Option RelaxedPathFilter)}
    {check : RelaxedPathFilter → Bool} (h : (result.bind id).any check = true) :
    ∃ f, result = some (some f) ∧ check f = true := by
  match result, h with
  | some (some f), h => exact ⟨f, rfl, h⟩

theorem answers_of_excludes {f b} (hp : Rooted p) (h : excludes f p = b) : Answers f p b :=
  h ▸ answers_excludes hp

def twoRules : Text := ascii "version 1\n/a/b*\n!/a/bc\n"

theorem exists_accepted_answers (hp : Rooted p) (hq : Rooted q)
    (h : ((parse 9 text).bind id).any (fun f => excludes f p == false && excludes f q) = true) :
    ∃ f, parse 9 text = some (some f) ∧ Answers f p false ∧ Answers f q true := by
  obtain ⟨f, hparse, hf⟩ := exists_accepted h
  obtain ⟨hincluded, hexcluded⟩ := Bool.and_eq_true_iff.1 hf
  exact ⟨f, hparse, answers_of_excludes hp (eq_of_beq hincluded), answers_of_excludes hq hexcluded⟩

end Cvmfs.PathFilters
