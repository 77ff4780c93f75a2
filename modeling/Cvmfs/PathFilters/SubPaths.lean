import Cvmfs.PathFilters.InclusionSpec

/-! # The loops over leading parts

A text that begins with a separator is cut down to the empty text, and the loops test exactly
its leading parts. Any other text is never cut down to the empty one. -/

namespace Cvmfs.PathFilters

open List Nat Option

/-- The text is empty or begins with a separator. -/
def Rooted (s : Text) : Prop := s = [] ∨ s.head? = some kSeparator

instance (s : Text) : Decidable (Rooted s) := inferInstanceAs (Decidable (_ ∨ _))

/-- A path above another one: a leading part that ends before a separator. -/
def Above (a p : Text) : Prop := ∃ t, p = a ++ kSeparator :: t

variable {a p q s t : Text}

/-! ## Cutting -/

theorem findLastOf_eq_none {c} (h : c ∉ s) : findLastOf c s = none := by
  induction s with
  | nil => rfl
  | cons d s ih =>
    have hd : d ≠ c := fun heq => h (heq ▸ mem_cons_self)
    rw [findLastOf, ih fun hmem => h (.tail _ hmem)]
    simp only [if_neg hd]

theorem findLastOf_append {c} (h : c ∉ t) : findLastOf c (a ++ c :: t) = some a.length := by
  induction a with
  | nil =>
    rw [nil_append, findLastOf, findLastOf_eq_none h]
    simp
  | cons d a ih =>
    rw [cons_append, findLastOf, ih]
    rfl

theorem cut_append (h : kSeparator ∉ t) : cut (a ++ kSeparator :: t) = a := by
  rw [cut, findLastOf_append h]
  exact take_left' rfl

theorem cut_eq_self (h : kSeparator ∉ s) : cut s = s := by
  rw [cut, findLastOf_eq_none h]

theorem exists_last (h : kSeparator ∈ s) : ∃ a t, s = a ++ kSeparator :: t ∧ kSeparator ∉ t := by
  obtain ⟨x, y, hs, hx⟩ := eq_append_cons_of_mem (mem_reverse.2 h)
  refine ⟨y.reverse, x.reverse, ?_, fun hmem => hx (mem_reverse.1 hmem)⟩
  rw [← reverse_reverse s, hs, reverse_append, reverse_cons, append_assoc]
  rfl

theorem Rooted.exists_last (h : Rooted s) (hne : s ≠ []) :
    ∃ a t, s = a ++ kSeparator :: t ∧ kSeparator ∉ t ∧ Rooted a := by
  have hhead := h.resolve_left hne
  obtain ⟨a, t, rfl, ht⟩ := PathFilters.exists_last (mem_of_mem_head? hhead)
  refine ⟨a, t, rfl, ht, ?_⟩
  cases a with
  | nil => exact .inl rfl
  | cons c a => exact .inr hhead

theorem above_append (ht : kSeparator ∉ t) : Above q (a ++ kSeparator :: t) ↔ q = a ∨ Above q a := by
  constructor
  · rintro ⟨u, hu⟩
    rcases append_eq_append_iff.1 hu with ⟨x, rfl, hx⟩ | ⟨x, rfl, hx⟩
    · cases x with
      | nil => exact .inl (append_nil _)
      | cons c x =>
        cases hx
        exact absurd (mem_append_right x (.head _)) ht
    · cases x with
      | nil => exact .inl (append_nil _).symm
      | cons c x =>
        cases hx
        exact .inr ⟨x, rfl⟩
  · rintro (rfl | ⟨u, rfl⟩)
    · exact ⟨t, rfl⟩
    · exact ⟨u ++ kSeparator :: t, by simp⟩

theorem not_above_nil : ¬ Above q [] := by
  rintro ⟨t, ht⟩
  cases q <;> cases ht

theorem Above.rooted (h : Above q p) (hp : Rooted p) : Rooted q := by
  obtain ⟨t, rfl⟩ := h
  cases q with
  | nil => exact .inl rfl
  | cons c q => exact .inr (hp.resolve_left (cons_ne_nil _ _))

theorem Above.trans (hq : Above q a) (ha : Above a p) : Above q p := by
  obtain ⟨t, rfl⟩ := hq
  obtain ⟨u, rfl⟩ := ha
  exact ⟨t ++ kSeparator :: u, by simp⟩

/-! ## Matching -/

theorem anySubPath_spec (test : Text → Bool) {fuel} (hp : Rooted p) (hfuel : p.length < fuel) :
    ∃ b, anySubPath test fuel p = some b ∧ (b = true ↔ ∃ q, Above q p ∧ test q = true) := by
  induction fuel generalizing p with
  | zero => exact absurd hfuel (not_lt_zero _)
  | succ fuel ih =>
    rw [anySubPath]
    split
    · rename_i hnil
      subst hnil
      refine ⟨false, rfl, nofun, ?_⟩
      rintro ⟨q, hq, -⟩
      exact absurd hq not_above_nil
    rename_i hne
    obtain ⟨a, t, rfl, ht, ha⟩ := hp.exists_last hne
    rw [cut_append ht]
    split
    · rename_i htest
      exact ⟨true, rfl, fun _ => ⟨a, (above_append ht).2 (.inl rfl), htest⟩, fun _ => rfl⟩
    rename_i htest
    have hlength : a.length < fuel := by
      rw [length_append, length_cons] at hfuel
      omega
    obtain ⟨b, hb, hiff⟩ := ih ha hlength
    refine ⟨b, hb, hiff.trans ?_⟩
    constructor
    · rintro ⟨q, hq, hqtest⟩
      exact ⟨q, (above_append ht).2 (.inr hq), hqtest⟩
    rintro ⟨q, hq, hqtest⟩
    rcases (above_append ht).1 hq with rfl | hq
    · exact absurd hqtest htest
    · exact ⟨q, hq, hqtest⟩

namespace RelaxedPathFilter

variable {f : RelaxedPathFilter}

/-- A negative rule matches the path or one above. -/
def Opposes (f : RelaxedPathFilter) (p : Text) : Prop :=
  f.rules.isOpposing p = true ∨ ∃ q, Above q p ∧ f.rules.isOpposing q = true

/-- A positive rule, or a leading part of one, matches the path, or a rule matches a path
above. -/
def Includes (f : RelaxedPathFilter) (p : Text) : Prop :=
  (∃ r ∈ f.rules.positiveRules, r.isMatching p = true) ∨
    ∃ q, Above q p ∧ f.exact.isMatching q = true

theorem isOpposing_spec {fuel} (hp : Rooted p) (hfuel : p.length < fuel) :
    ∃ b, f.isOpposing fuel p = some b ∧ (b = true ↔ f.Opposes p) := by
  rw [isOpposing]
  split
  · rename_i h
    exact ⟨true, rfl, fun _ => .inl h, fun _ => rfl⟩
  · rename_i h
    obtain ⟨b, hb, hiff⟩ := anySubPath_spec f.rules.isOpposing hp hfuel
    exact ⟨b, hb, hiff.trans ⟨.inr, fun ho => ho.resolve_left h⟩⟩

theorem isMatching_spec {fuel} (hp : Rooted p) (hfuel : p.length < fuel) :
    ∃ b, f.isMatching fuel p = some b ∧ (b = true ↔ f.Includes p ∧ ¬ f.Opposes p) := by
  obtain ⟨o, ho, hoiff⟩ := isOpposing_spec (f := f) hp hfuel
  obtain ⟨e, he, heiff⟩ := anySubPath_spec f.exact.isMatching hp hfuel
  have hpositive : f.rules.positiveRules.any (·.isMatching p) = true ↔
      ∃ r ∈ f.rules.positiveRules, r.isMatching p = true := any_eq_true
  rw [isMatching, hasPositiveMatch, ho, he]
  unfold Includes
  rw [← hpositive, ← heiff, ← hoiff]
  cases f.rules.positiveRules.any (·.isMatching p) <;> cases o <;> cases e <;> simp

end RelaxedPathFilter

namespace InclusionSpec

variable {f : RelaxedPathFilter}

/-- `IsExcluded` returns this answer. -/
def Answers (f : RelaxedPathFilter) (p : Text) (b : Bool) : Prop :=
  ∃ n, ∀ fuel, n ≤ fuel → isExcluded fuel f p = some b

theorem Answers.unique {b b'} (h : Answers f p b) (h' : Answers f p b') : b = b' := by
  obtain ⟨n, hn⟩ := h
  obtain ⟨n', hn'⟩ := h'
  exact some.inj ((hn _ (le_max_left n n')).symm.trans (hn' _ (le_max_right n n')))

/-- The paths that are in the inclusion set. -/
def Included (f : RelaxedPathFilter) (p : Text) : Prop :=
  p = [] ∨ p = [kSeparator] ∨ f.Includes p ∧ ¬ f.Opposes p

/-- The answer of `IsExcluded` for a rooted path. -/
def excludes (f : RelaxedPathFilter) (p : Text) : Bool :=
  (isExcluded (p.length + 1) f p).getD false

section

variable (hp : Rooted p)
include hp

theorem isExcluded_spec {fuel} (hfuel : p.length < fuel) :
    ∃ b, isExcluded fuel f p = some b ∧ (b = false ↔ Included f p) := by
  unfold isExcluded Included
  split
  · rename_i hroot
    exact ⟨false, rfl, fun _ => hroot.imp_right .inl, fun _ => rfl⟩
  rename_i hroot
  rw [not_or] at hroot
  obtain ⟨b, hb, hiff⟩ := RelaxedPathFilter.isMatching_spec (f := f) hp hfuel
  refine ⟨!b, by rw [hb]; rfl, ?_⟩
  rw [Bool.not_eq_false', hiff]
  exact ⟨fun h => .inr (.inr h), fun h => (h.resolve_left hroot.1).resolve_left hroot.2⟩

theorem excludes_eq_false_iff : excludes f p = false ↔ Included f p := by
  obtain ⟨b, hb, hiff⟩ := isExcluded_spec (f := f) hp (lt_succ_self _)
  rw [excludes, hb]
  exact hiff

theorem isExcluded_eq {fuel} (hfuel : p.length < fuel) :
    isExcluded fuel f p = some (excludes f p) := by
  obtain ⟨b, hb, hiff⟩ := isExcluded_spec (f := f) hp hfuel
  have hiff' := hiff.trans (excludes_eq_false_iff hp).symm
  rw [hb]
  cases b <;> cases he : excludes f p <;> simp_all

theorem answers_excludes : Answers f p (excludes f p) :=
  ⟨p.length + 1, fun _ hfuel => isExcluded_eq hp hfuel⟩

theorem answers_false_iff : Answers f p false ↔ Included f p := by
  rw [← excludes_eq_false_iff hp]
  exact ⟨fun h => (answers_excludes hp).unique h, fun h => h ▸ answers_excludes hp⟩

end

end InclusionSpec

/-! ## Parsing -/

theorem exists_parsePathspecs {fuel d} (hs : Rooted s) (hfuel : s.length < fuel) :
    ∃ r, parsePathspecs fuel d s = some r := by
  induction fuel generalizing s d with
  | zero => exact absurd hfuel (not_lt_zero _)
  | succ fuel ih =>
    rw [parsePathspecs]
    split
    · exact ⟨_, rfl⟩
    rename_i hne
    obtain ⟨a, t, rfl, ht, ha⟩ := hs.exists_last hne
    rw [cut_append ht]
    generalize d.parsePathspec (a ++ kSeparator :: t) false = first
    obtain ⟨d', ok⟩ := first
    have hlength : a.length < fuel := by
      rw [length_append, length_cons] at hfuel
      omega
    obtain ⟨r, hr⟩ := ih (d := d') ha hlength
    dsimp only
    rw [hr]
    exact ⟨_, rfl⟩

theorem not_rooted_cut (hs : ¬ Rooted s) : ¬ Rooted (cut s) := by
  by_cases hsep : kSeparator ∈ s
  · obtain ⟨a, t, rfl, ht⟩ := exists_last hsep
    rw [cut_append ht]
    intro ha
    refine hs (.inr ?_)
    rcases ha with rfl | ha
    · rfl
    · cases a with
      | nil => cases ha
      | cons c a => exact ha
  · rwa [cut_eq_self hsep]

theorem parsePathspecs_eq_none (hs : ¬ Rooted s) (fuel : Nat) (d : Dirtab) :
    parsePathspecs fuel d s = none := by
  induction fuel generalizing s d with
  | zero => rfl
  | succ fuel ih =>
    rw [parsePathspecs, if_neg fun h => hs (.inl h)]
    dsimp only
    rw [ih (not_rooted_cut hs)]
    rfl

def RulesRooted (lines : List Text) : Prop :=
  ∀ line ∈ lines, ∀ s, ruleOf line = some (false, s) → Rooted s

theorem exists_parseLine {fuel d line}
    (h : ∀ s, ruleOf line = some (false, s) → Rooted s ∧ s.length < fuel) :
    ∃ r, parseLine (relaxedParser fuel) d line = some r := by
  unfold parseLine
  match hrule : ruleOf line with
  | none => exact ⟨_, rfl⟩
  | some (true, s) => exact ⟨_, rfl⟩
  | some (false, s) => exact exists_parsePathspecs (h s hrule).1 (h s hrule).2

theorem parseLine_eq_none {line} (hrule : ruleOf line = some (false, s)) (hs : ¬ Rooted s)
    (fuel : Nat) (d : Dirtab) : parseLine (relaxedParser fuel) d line = none := by
  rw [parseLine, hrule]
  exact parsePathspecs_eq_none hs fuel d

theorem exists_parseLines {parser lines}
    (h : ∀ line ∈ lines, ∀ d, ∃ r, parseLine parser d line = some r) (d : Dirtab) :
    ∃ r, parseLines parser lines d = some r := by
  induction lines generalizing d with
  | nil => exact ⟨_, rfl⟩
  | cons line lines ih =>
    obtain ⟨⟨d', ok⟩, hline⟩ := h line (.head _) d
    obtain ⟨⟨d'', valid⟩, hlines⟩ := ih (fun l hl => h l (.tail _ hl)) d'
    rw [parseLines, hline]
    dsimp only [bind_eq_bind, bind_some]
    rw [hlines]
    exact ⟨_, rfl⟩

theorem parseLines_eq_none {parser lines line} (hmem : line ∈ lines)
    (h : ∀ d, parseLine parser d line = none) (d : Dirtab) : parseLines parser lines d = none := by
  induction lines generalizing d with
  | nil => cases hmem
  | cons first lines ih =>
    rw [parseLines]
    rcases mem_cons.1 hmem with rfl | hmem
    · rw [h d]
      rfl
    cases parseLine parser d first with
    | none => rfl
    | some r =>
      dsimp only [bind_eq_bind, bind_some]
      rw [ih hmem r.1]
      rfl

theorem exists_length_lt (lines : List Text) :
    ∃ n, ∀ line ∈ lines, ∀ s, ruleOf line = some (false, s) → s.length < n := by
  induction lines with
  | nil => exact ⟨0, nofun⟩
  | cons line lines ih =>
    obtain ⟨n, hn⟩ := ih
    have hline : ∃ m, ∀ s, ruleOf line = some (false, s) → s.length < m := by
      cases hrule : ruleOf line with
      | none => exact ⟨0, nofun⟩
      | some r =>
        refine ⟨r.2.length + 1, fun s hs => ?_⟩
        cases hs
        exact lt_succ_self _
    obtain ⟨m, hm⟩ := hline
    refine ⟨max m n, fun l hl s hs => ?_⟩
    rcases mem_cons.1 hl with rfl | hl
    · exact lt_of_lt_of_le (hm s hs) (le_max_left m n)
    · exact lt_of_lt_of_le (hn l hl s hs) (le_max_right m n)

/-- `InclusionSpec::Parse` returns for exactly those texts, among the ones with a supported
version, whose positive rules are all rooted. -/
theorem InclusionSpec.exists_parse_iff (text : Text) : (∃ fuel r, parse fuel text = some r) ↔
      ∀ content ∈ filterContent text, RulesRooted (getLines [] content) := by
  unfold parse
  cases hcontent : filterContent text with
  | none => exact ⟨fun _ => nofun, fun _ => ⟨0, none, rfl⟩⟩
  | some content =>
    constructor
    · rintro ⟨fuel, r, hr⟩ content' hmem line hline s hrule
      cases hmem
      by_contra hs
      have hnone := parseLines_eq_none hline (parseLine_eq_none hrule hs fuel) {}
      dsimp only at hr
      rw [RelaxedPathFilter.parse, Dirtab.parse, hnone] at hr
      cases hr
    intro h
    obtain ⟨n, hn⟩ := exists_length_lt (getLines [] content)
    have hrelaxed : ∀ line ∈ getLines [] content, ∀ d,
        ∃ r, parseLine (relaxedParser n) d line = some r := fun line hline d =>
      exists_parseLine fun s hs => ⟨h content rfl line hline s hs, hn line hline s hs⟩
    have hplain : ∀ line ∈ getLines [] content, ∀ d,
        ∃ r, parseLine exactParser d line = some r := by
      intro line _ d
      unfold parseLine
      split
      · exact ⟨_, rfl⟩
      · exact ⟨_, rfl⟩
    obtain ⟨⟨rules, valid⟩, hrules⟩ := exists_parseLines hrelaxed {}
    obtain ⟨⟨exact, exactValid⟩, hexact⟩ := exists_parseLines hplain {}
    refine ⟨n, ?_⟩
    dsimp only
    rw [RelaxedPathFilter.parse, Dirtab.parse, Dirtab.parse, hrules, hexact]
    exact ⟨_, rfl⟩

end Cvmfs.PathFilters
