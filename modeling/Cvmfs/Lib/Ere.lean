import Mathlib.Algebra.Order.Ring.Int

/-! # Extended regular expressions

The part of the POSIX extended regular expressions without groups, intervals and bracket
expressions other than `[^c]`, compiled from its text and matched in newline mode: neither
`.` nor `[^c]` matches a newline, and the anchors match at the ends of lines. A match is
searched for at every position. -/

namespace Cvmfs.Lib.Ere

open List Bool

/-- What a single byte is matched with, in the C locale. -/
inductive Atom where
  | lit (c : UInt8)
  | any
  | except (c : UInt8)
  deriving DecidableEq

def Atom.has : Atom → UInt8 → Bool
  | .lit d, c => c == d
  | .any, c => c != 10
  | .except d, c => c != d && c != 10

inductive Token where
  | atom (a : Atom)
  | star
  | question
  | bol
  | eol
  | bar
  deriving DecidableEq

inductive Piece where
  | one (a : Atom)
  | many (a : Atom)
  | opt (a : Atom)
  | bol
  | eol
  deriving DecidableEq

/-! ## Compilation -/

def lex : List UInt8 → List Token
  | [] => []
  | 92 :: c :: rest => .atom (.lit c) :: lex rest
  | 91 :: 94 :: c :: 93 :: rest => .atom (.except c) :: lex rest
  | 46 :: rest => .atom .any :: lex rest
  | 42 :: rest => .star :: lex rest
  | 63 :: rest => .question :: lex rest
  | 94 :: rest => .bol :: lex rest
  | 36 :: rest => .eol :: lex rest
  | 124 :: rest => .bar :: lex rest
  | c :: rest => .atom (.lit c) :: lex rest

/-- The branches of an alternation, from the last piece of the text on. -/
def branches : List Token → List (List Piece)
  | [] => [[]]
  | .bar :: ts => [] :: branches ts
  | .atom a :: .star :: ts => push (.many a) (branches ts)
  | .atom a :: .question :: ts => push (.opt a) (branches ts)
  | .atom a :: ts => push (.one a) (branches ts)
  | .bol :: ts => push .bol (branches ts)
  | .eol :: ts => push .eol (branches ts)
  | .star :: ts => branches ts
  | .question :: ts => branches ts
where
  push (p : Piece) : List (List Piece) → List (List Piece)
    | [] => [[p]]
    | b :: bs => (p :: b) :: bs

def compile (text : List UInt8) : List (List Piece) := branches (lex text)

/-! ## Matching -/

def atEol : List UInt8 → Bool
  | [] => true
  | c :: _ => c == 10

/-- A repetition, followed by whatever `rest` matches. -/
def matchMany (a : Atom) (rest : Bool → List UInt8 → Bool) : Bool → List UInt8 → Bool
  | bol, [] => rest bol []
  | bol, c :: s => rest bol (c :: s) || (a.has c && matchMany a rest (c == 10) s)

/-- A branch matches at the beginning of the string; `bol` says if a line begins there. -/
def matchHere : List Piece → Bool → List UInt8 → Bool
  | [], _, _ => true
  | .bol :: ps, bol, s => bol && matchHere ps bol s
  | .eol :: ps, bol, s => atEol s && matchHere ps bol s
  | .one _ :: _, _, [] => false
  | .one a :: ps, _, c :: s => a.has c && matchHere ps (c == 10) s
  | .opt _ :: ps, bol, [] => matchHere ps bol []
  | .opt a :: ps, bol, c :: s =>
    matchHere ps bol (c :: s) || (a.has c && matchHere ps (c == 10) s)
  | .many a :: ps, bol, s => matchMany a (matchHere ps) bol s

def search (m : Bool → List UInt8 → Bool) : Bool → List UInt8 → Bool
  | bol, [] => m bol []
  | bol, c :: s => m bol (c :: s) || search m (c == 10) s

/-- One of the branches matches somewhere in the string. -/
def exec (bs : List (List Piece)) (s : List UInt8) : Bool :=
  bs.any fun b => search (matchHere b) true s

/-! ## Compiled text -/

/-- The bytes that do not stand for themselves. -/
def isOperator (c : UInt8) : Bool :=
  c == 92 || c == 91 || c == 46 || c == 42 || c == 63 || c == 94 || c == 36 || c == 124

variable {c : UInt8}

theorem lex_literal (h : isOperator c = false) (rest : List UInt8) :
    lex (c :: rest) = .atom (.lit c) :: lex rest := by
  simp only [isOperator, or_eq_false_iff, beq_eq_false_iff_ne, ne_eq] at h
  obtain ⟨⟨⟨⟨⟨⟨⟨hbackslash, hbracket⟩, hdot⟩, hstar⟩, hquestion⟩, hcaret⟩, hdollar⟩, hbar⟩ := h
  rw [lex] <;> simp_all

/-- No repetition operator comes first. -/
def Starts (ts : List Token) : Prop := ts.head? ≠ some .star ∧ ts.head? ≠ some .question

variable {a : Atom} {ps : List Piece}

theorem branches_one {ts} (hts : Starts ts) (h : branches ts = [ps]) :
    branches (.atom a :: ts) = [.one a :: ps] := by
  rw [branches]
  · rw [h]
    rfl
  · rintro ts' rfl
    exact hts.1 rfl
  · rintro ts' rfl
    exact hts.2 rfl

theorem branches_many {ts} (h : branches ts = [ps]) :
    branches (.atom a :: .star :: ts) = [.many a :: ps] := by
  rw [branches, h]
  rfl

/-- A text compiles to these pieces, whatever pieces its continuation compiles to. -/
def Compiles (text : List UInt8) (ps : List Piece) : Prop :=
  ∀ rest qs, Starts (lex rest) → branches (lex rest) = [qs] →
    Starts (lex (text ++ rest)) ∧ branches (lex (text ++ rest)) = [ps ++ qs]

theorem compiles_nil : Compiles [] [] := fun _ _ hrest h => ⟨hrest, h⟩

theorem Compiles.append {x y qs} (hx : Compiles x ps) (hy : Compiles y qs) :
    Compiles (x ++ y) (ps ++ qs) := by
  intro rest rs hrest h
  obtain ⟨hstarts, hbranches⟩ := hy rest rs hrest h
  rw [append_assoc, append_assoc]
  exact hx (y ++ rest) (qs ++ rs) hstarts hbranches

theorem Compiles.flatMap {α : Type} {f g} :
    ∀ {l : List α}, (∀ a ∈ l, Compiles (f a) (g a)) → Compiles (l.flatMap f) (l.flatMap g)
  | [], _ => compiles_nil
  | a :: l, h => by
    rw [flatMap_cons, flatMap_cons]
    exact (h a (.head _)).append (Compiles.flatMap fun b hb => h b (.tail _ hb))

theorem compiles_literal (h : isOperator c = false) : Compiles [c] [.one (.lit c)] := by
  intro rest qs hrest hqs
  rw [singleton_append, lex_literal h]
  exact ⟨⟨nofun, nofun⟩, branches_one hrest hqs⟩

theorem compiles_escaped (c : UInt8) : Compiles [92, c] [.one (.lit c)] := by
  intro rest qs hrest hqs
  exact ⟨⟨nofun, nofun⟩, branches_one hrest hqs⟩

theorem compiles_except (c : UInt8) : Compiles [91, 94, c, 93] [.one (.except c)] := by
  intro rest qs hrest hqs
  exact ⟨⟨nofun, nofun⟩, branches_one hrest hqs⟩

theorem compiles_except_star (c : UInt8) : Compiles [91, 94, c, 93, 42] [.many (.except c)] := by
  intro rest qs _ hqs
  exact ⟨⟨nofun, nofun⟩, branches_many hqs⟩

theorem Compiles.line {x} (h : Compiles x ps) (hc : isOperator c = false) :
    compile (94 :: (x ++ [c, 63, 36])) = [.bol :: (ps ++ [.opt (.lit c)] ++ [.eol])] := by
  have hend : lex [c, 63, 36] = [.atom (.lit c), .question, .eol] := by
    rw [lex_literal hc]
    rfl
  have hstarts : Starts (lex [c, 63, 36]) := by
    rw [hend]
    exact ⟨nofun, nofun⟩
  have hbranches : branches (lex [c, 63, 36]) = [[.opt (.lit c), .eol]] := by
    rw [hend]
    rfl
  have hx := (h _ _ hstarts hbranches).2
  show branches (.bol :: lex (x ++ [c, 63, 36])) = _
  rw [branches, hx, append_assoc]
  rfl

/-! ## What a branch without anchors consumes -/

def Consumes : List Piece → List UInt8 → Prop
  | [], u => u = []
  | .one a :: ps, u => ∃ c v, u = c :: v ∧ a.has c = true ∧ Consumes ps v
  | .opt a :: ps, u => Consumes ps u ∨ ∃ c v, u = c :: v ∧ a.has c = true ∧ Consumes ps v
  | .many a :: ps, u => ∃ w v, u = w ++ v ∧ (∀ c ∈ w, a.has c = true) ∧ Consumes ps v
  | .bol :: _, _ => False
  | .eol :: _, _ => False

/-- Pieces other than anchors. -/
def Piece.Plain : Piece → Prop
  | .bol => False
  | .eol => False
  | _ => True

variable {ps qs : List Piece} {s u : List UInt8}

def Piece.atom? : Piece → Option Atom
  | .one a => some a
  | .many a => some a
  | .opt a => some a
  | .bol => none
  | .eol => none

/-- What a piece takes from the front of a string. -/
def Piece.Takes : Piece → List UInt8 → Prop
  | .one a, w => ∃ c, a.has c = true ∧ w = [c]
  | .opt a, w => w = [] ∨ ∃ c, a.has c = true ∧ w = [c]
  | .many a, w => ∀ c ∈ w, a.has c = true
  | .bol, _ => False
  | .eol, _ => False

variable {p : Piece}

theorem Piece.Takes.has {w} (h : p.Takes w) (hc : c ∈ w) : ∃ a ∈ p.atom?, a.has c = true := by
  cases p <;> simp_all [Takes, atom?] <;> grind

theorem consumes_cons : Consumes (p :: ps) u ↔ ∃ w v, u = w ++ v ∧ p.Takes w ∧ Consumes ps v := by
  cases p with
  | one a => simp [Consumes, Piece.Takes]; grind
  | opt a => simp [Consumes, Piece.Takes]; grind
  | many a => rfl
  | bol | eol => simp [Consumes, Piece.Takes]

theorem Consumes.exists_has (h : Consumes ps u) (hc : c ∈ u) :
    ∃ p ∈ ps, ∃ a ∈ p.atom?, a.has c = true := by
  induction ps generalizing u with
  | nil =>
    cases h
    cases hc
  | cons p ps ih =>
    obtain ⟨w, v, rfl, hw, hv⟩ := consumes_cons.1 h
    rcases mem_append.1 hc with hc | hc
    · exact ⟨p, .head _, hw.has hc⟩
    · obtain ⟨q, hq, hhas⟩ := ih hv hc
      exact ⟨q, .tail _ hq, hhas⟩

theorem consumes_append :
    Consumes (ps ++ qs) u ↔ ∃ v w, u = v ++ w ∧ Consumes ps v ∧ Consumes qs w := by
  induction ps generalizing u with
  | nil => simp [Consumes]
  | cons p ps ih =>
    simp only [cons_append, consumes_cons, ih]
    constructor
    · rintro ⟨w, -, rfl, hw, v, z, rfl, hv, hz⟩
      exact ⟨w ++ v, z, by simp, ⟨w, v, rfl, hw, hv⟩, hz⟩
    · rintro ⟨-, z, rfl, ⟨w, v, rfl, hw, hv⟩, hz⟩
      exact ⟨w, v ++ z, by simp, hw, v, z, rfl, hv, hz⟩

theorem matchMany_iff {rest} (hrest : ∀ b b' s, rest b s = rest b' s) :
    ∀ {b : Bool} {s : List UInt8}, matchMany a rest b s = true ↔
      ∃ w v, s = w ++ v ∧ (∀ c ∈ w, a.has c = true) ∧ rest false v = true
  | b, [] => by
    rw [matchMany, hrest b false]
    constructor
    · intro h
      exact ⟨[], [], rfl, nofun, h⟩
    · rintro ⟨w, v, hs, -, h⟩
      obtain ⟨rfl, rfl⟩ := append_eq_nil_iff.1 hs.symm
      exact h
  | b, c :: s => by
    rw [matchMany, or_eq_true, and_eq_true, matchMany_iff hrest, hrest b false]
    constructor
    · rintro (h | ⟨hc, w, v, rfl, hw, h⟩)
      · exact ⟨[], c :: s, rfl, nofun, h⟩
      refine ⟨c :: w, v, rfl, fun d hd => ?_, h⟩
      rcases mem_cons.1 hd with rfl | hd
      · exact hc
      · exact hw d hd
    rintro ⟨w, v, hs, hw, h⟩
    cases w with
    | nil =>
      cases hs
      exact .inl h
    | cons d w =>
      cases hs
      exact .inr ⟨hw c (.head _), w, v, rfl, fun d hd => hw d (.tail _ hd), h⟩

theorem matchHere_flag (h : Piece.bol ∉ ps) (b b' : Bool) (s : List UInt8) :
    matchHere ps b s = matchHere ps b' s := by
  induction ps generalizing b b' s with
  | nil => rfl
  | cons p ps ih =>
    have hps : Piece.bol ∉ ps := fun hmem => h (.tail _ hmem)
    cases p with
    | bol => exact absurd (.head _) h
    | eol => rw [matchHere, matchHere, ih hps b b']
    | one a =>
      cases s with
      | nil => rfl
      | cons c s => rfl
    | opt a =>
      cases s with
      | nil | cons c s => rw [matchHere, matchHere, ih hps b b']
    | many a =>
      rw [matchHere, matchHere, Bool.eq_iff_iff, matchMany_iff (ih hps), matchMany_iff (ih hps)]

theorem matchHere_cons (hp : p.Plain) (hps : Piece.bol ∉ ps) {b} : matchHere (p :: ps) b s = true ↔
      ∃ w v, s = w ++ v ∧ p.Takes w ∧ matchHere ps false v = true := by
  cases p with
  | bol | eol => exact hp.elim
  | one a =>
    cases s with
    | nil => simp [matchHere, Piece.Takes]
    | cons c s =>
      rw [matchHere, matchHere_flag hps _ false]
      simp [Piece.Takes]
  | opt a =>
    cases s with
    | nil => simp [matchHere, Piece.Takes, matchHere_flag hps b false]
    | cons c s =>
      rw [matchHere, matchHere_flag hps b false, matchHere_flag hps (c == _) false]
      simp [Piece.Takes, or_and_right, and_or_left, exists_or]
  | many a => exact matchMany_iff (matchHere_flag hps)

theorem matchHere_append (hqs : Piece.bol ∉ qs) {b} (hplain : ∀ p ∈ ps, p.Plain) :
    matchHere (ps ++ qs) b s = true ↔
      ∃ u v, s = u ++ v ∧ Consumes ps u ∧ matchHere qs false v = true := by
  induction ps generalizing b s with
  | nil => simp [Consumes, matchHere_flag hqs b false]
  | cons p ps ih =>
    have htail : ∀ p ∈ ps, p.Plain := fun q hq => hplain q (.tail _ hq)
    have hbol : Piece.bol ∉ ps ++ qs := by
      intro hmem
      rcases mem_append.1 hmem with hmem | hmem
      · exact htail _ hmem
      · exact hqs hmem
    simp only [cons_append, matchHere_cons (hplain p (.head _)) hbol, consumes_cons, ih htail]
    constructor
    · rintro ⟨w, -, rfl, hw, u, v, rfl, hu, hv⟩
      exact ⟨w ++ u, v, by simp, ⟨w, u, rfl, hw, hu⟩, hv⟩
    · rintro ⟨-, v, rfl, ⟨w, u, rfl, hw, hu⟩, hv⟩
      exact ⟨w, u ++ v, by simp, hw, u, v, rfl, hu, hv⟩

theorem search_bol (hs : 10 ∉ s) :
    search (matchHere (.bol :: ps)) true s = matchHere ps true s := by
  have hfalse : ∀ {t : List UInt8}, 10 ∉ t → search (matchHere (.bol :: ps)) false t = false := by
    intro t
    induction t with
    | nil => exact fun _ => rfl
    | cons c t ih =>
      intro ht
      have hc : (c == 10) = false := beq_false_of_ne fun h => ht (h ▸ mem_cons_self)
      rw [search, hc, ih fun h => ht (.tail _ h)]
      rfl
  cases s with
  | nil => rfl
  | cons c s =>
    have hc : (c == 10) = false := beq_false_of_ne fun h => hs (h ▸ mem_cons_self)
    rw [search, hc, hfalse fun h => hs (.tail _ h), Bool.or_false]
    rfl

theorem exec_line (hps : ∀ p ∈ ps, p.Plain) (hs : 10 ∉ s) :
    exec [.bol :: (ps ++ [.eol])] s = true ↔ Consumes ps s := by
  rw [exec, any_cons, any_nil, Bool.or_false, search_bol hs, matchHere_append (by simp) hps]
  constructor
  · rintro ⟨u, v, rfl, hu, hv⟩
    cases v with
    | nil =>
      rw [append_nil]
      exact hu
    | cons c v =>
      have hc : c = 10 := by simpa [matchHere, atEol] using hv
      exact absurd (mem_append_right u (hc ▸ mem_cons_self)) hs
  · intro h
    exact ⟨s, [], (append_nil s).symm, h, rfl⟩

end Cvmfs.Lib.Ere
