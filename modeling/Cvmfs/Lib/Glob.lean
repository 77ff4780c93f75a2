import Mathlib.Data.List.Infix

/-! # Shell patterns

The pattern matching notation of POSIX for pathnames: `*`, `?`, bracket expressions and
backslashes, on bytes. A slash is matched by a slash only, a leading period by anything.
Character classes in bracket expressions are left out. -/

namespace Cvmfs.Lib.Glob

inductive Item where
  | char (c : UInt8)
  | any
  | many
  /-- a bracket expression, with the ends of its ranges -/
  | bracket (negated : Bool) (ranges : List (UInt8 × UInt8))

/-- The rest of a bracket expression, from its second member on. -/
def ranges : Nat → List (UInt8 × UInt8) → List UInt8 → Option (List (UInt8 × UInt8) × List UInt8)
  | fuel + 1, members, c :: rest =>
    if c = 93 ∧ members ≠ [] then some (members, rest)
    else
      match rest with
      | 45 :: d :: rest' =>
        if d = 93 then ranges fuel (members ++ [(c, c)]) rest
        else ranges fuel (members ++ [(c, d)]) rest'
      | _ => ranges fuel (members ++ [(c, c)]) rest
  | _, _, _ => none

/-- The items of a pattern behind the first `skip` characters. A bracket that is not closed is an
ordinary character. -/
def parse : Nat → List UInt8 → List Item
  | _, [] => []
  | skip + 1, _ :: cs => parse skip cs
  | 0, c :: cs =>
    if c = 42 then .many :: parse 0 cs
    else if c = 63 then .any :: parse 0 cs
    else if c = 91 then
      let negated := cs.head? = some 33
      match ranges cs.length [] (if negated then cs.tail else cs) with
      | some (members, rest) => .bracket negated members :: parse (cs.length - rest.length) cs
      | none => .char c :: parse 0 cs
    else if c = 92 then .char (cs.headD c) :: parse 1 cs
    else .char c :: parse 0 cs

def matchItems : List Item → List UInt8 → Bool
  | [], name => name.isEmpty
  | .many :: items, name => name.tails.any (matchItems items)
  | .char d :: items, c :: name => c == d && matchItems items name
  | .any :: items, _ :: name => matchItems items name
  | .bracket negated members :: items, c :: name =>
    (members.any fun m => decide (m.1 ≤ c ∧ c ≤ m.2)) != negated && matchItems items name
  | _, [] => false

def matchName (pattern name : List UInt8) : Bool := matchItems (parse 0 pattern) name

def matchPath (pattern path : List UInt8) : Prop :=
  List.Forall₂ (matchName · · = true) (pattern.splitOn 47) (path.splitOn 47)

/-- The bytes that do not stand for themselves. -/
def isSpecial (c : UInt8) : Bool := c == 42 || c == 63 || c == 91 || c == 92

theorem parse_char {c : UInt8} (h : isSpecial c = false) (cs : List UInt8) :
    parse 0 (c :: cs) = .char c :: parse 0 cs := by
  simp only [isSpecial, Bool.or_eq_false_iff, beq_eq_false_iff_ne] at h
  simp [parse, h]

theorem matchItems_many {items : List Item} {name : List UInt8} :
    matchItems (.many :: items) name = true ↔ ∃ w v, name = w ++ v ∧ matchItems items v = true := by
  rw [matchItems, List.any_eq_true]
  constructor
  · rintro ⟨v, hv, h⟩
    obtain ⟨w, rfl⟩ := (List.mem_tails _ _).1 hv
    exact ⟨w, v, rfl, h⟩
  · rintro ⟨w, v, rfl, h⟩
    exact ⟨v, (List.mem_tails _ _).2 ⟨w, rfl⟩, h⟩

end Cvmfs.Lib.Glob
