import Cvmfs.Client.Breadcrumb
import Cvmfs.PathFilters.Pathspec

/-! # Inclusion specs

The rules of an inclusion spec are read twice: into the rules of a `RelaxedPathFilter`, which
has all the leading parts of a positive rule as rules of their own, and into the plain rules
of its `exact` table. Parsing and matching go through the leading parts of a text by cutting
it at the last separator. `substr` with `npos` returns the whole text, so that these loops do
not end for a text that does not begin with a separator. They are modelled with fuel; `none`
means that the loop is still running. -/

namespace Cvmfs.PathFilters

open Lib.Decimal (ascii isDigit)

/-! ## Dirtabs -/

structure Dirtab where
  positiveRules : List Pathspec := []
  negativeRules : List Pathspec := []
  deriving DecidableEq

def Dirtab.addRule (d : Dirtab) (r : Pathspec) (negation : Bool) : Dirtab :=
  if negation then { d with negativeRules := d.negativeRules ++ [r] }
  else { d with positiveRules := d.positiveRules ++ [r] }

def Dirtab.parsePathspec (d : Dirtab) (spec : Text) (negation : Bool) : Dirtab × Bool :=
  if spec = [] then (d, true)
  else
    let r := Pathspec.parse spec
    if !r.valid || (!negation && !r.absolute) then (d, false) else (d.addRule r negation, true)

def isBlank (c : UInt8) : Bool := c == 32 || c == 9

def trim (raw : Text) : Text :=
  ((raw.dropWhile isBlank).reverse.dropWhile isBlank).reverse

def skipWhitespace (s : Text) : Text := s.dropWhile (· == 32)

def kCommentMarker : UInt8 := 35
def kNegationMarker : UInt8 := 33

/-- The rule on a line and if it is a negation; `none` for a comment. -/
def ruleOf (line : Text) : Option (Bool × Text) :=
  match skipWhitespace line with
  | [] => some (false, [])
  | c :: rest =>
    if c = kCommentMarker then none
    else if c = kNegationMarker then some (true, trim (skipWhitespace rest))
    else some (false, trim (c :: rest))

/-- `ParsePathspec` of the class that parses. -/
abbrev Parser := Dirtab → Text → Bool → Option (Dirtab × Bool)

def parseLine (parser : Parser) (d : Dirtab) (line : Text) : Option (Dirtab × Bool) :=
  match ruleOf line with
  | none => some (d, true)
  | some (negation, spec) => parser d spec negation

def parseLines (parser : Parser) : List Text → Dirtab → Option (Dirtab × Bool)
  | [], d => some (d, true)
  | line :: lines, d => do
    let (d, ok) ← parseLine parser d line
    let (d, valid) ← parseLines parser lines d
    some (d, ok && valid)

/-- There are no contradicting positive and negative rules. -/
def Dirtab.checkRuleValidity (d : Dirtab) : Bool :=
  d.positiveRules.all fun p => d.negativeRules.all fun n => p != n

/-- The lines of a text; `current` is what has been read of the next one. -/
def getLines : Text → Text → List Text
  | current, [] => if current = [] then [] else [current]
  | current, c :: cs =>
    if c = 10 then current :: getLines [] cs else getLines (current ++ [c]) cs

def Dirtab.parse (parser : Parser) (text : Text) : Option (Dirtab × Bool) := do
  let (d, valid) ← parseLines parser (getLines [] text) {}
  some (d, valid && d.checkRuleValidity)

def Dirtab.isOpposing (d : Dirtab) (path : Text) : Bool :=
  d.negativeRules.any (·.isMatchingRelaxed path)

def Dirtab.isMatching (d : Dirtab) (path : Text) : Bool :=
  d.positiveRules.any (·.isMatching path) && !d.isOpposing path

/-! ## Relaxed path filters -/

def findLastOf (c : UInt8) : Text → Option Nat
  | [] => none
  | d :: s =>
    match findLastOf c s with
    | some i => some (i + 1)
    | none => if d = c then some 0 else none

/-- `substr(0, find_last_of("/"))` -/
def cut (s : Text) : Text :=
  match findLastOf kSeparator s with
  | some n => s.take n
  | none => s

structure RelaxedPathFilter where
  rules : Dirtab
  exact : Dirtab
  deriving DecidableEq

/-- The loop of `ParsePathspec` for a positive rule. -/
def parsePathspecs : Nat → Dirtab → Text → Option (Dirtab × Bool)
  | 0, _, _ => none
  | fuel + 1, d, spec =>
    if spec = [] then some (d, true)
    else do
      let (d, ok) := d.parsePathspec spec false
      let (d, success) ← parsePathspecs fuel d (cut spec)
      some (d, ok && success)

def relaxedParser (fuel : Nat) : Parser := fun d spec negation =>
  if negation then some (d.parsePathspec spec true) else parsePathspecs fuel d spec

def exactParser : Parser := fun d spec negation => some (d.parsePathspec spec negation)

def RelaxedPathFilter.parse (fuel : Nat) (text : Text) :
    Option (RelaxedPathFilter × Bool) := do
  let (rules, valid) ← Dirtab.parse (relaxedParser fuel) text
  let (exact, exactValid) ← Dirtab.parse exactParser text
  some (⟨rules, exact⟩, valid && exactValid)

/-- The loops over the sub paths in `IsMatching` and `IsOpposing`. -/
def anySubPath (test : Text → Bool) : Nat → Text → Option Bool
  | 0, _ => none
  | fuel + 1, path =>
    if path = [] then some false
    else if test (cut path) then some true
    else anySubPath test fuel (cut path)

namespace RelaxedPathFilter

def isOpposing (fuel : Nat) (f : RelaxedPathFilter) (path : Text) : Option Bool :=
  if f.rules.isOpposing path then some true else anySubPath f.rules.isOpposing fuel path

/-- `Dirtab::IsMatching` with the virtual `IsOpposing` -/
def hasPositiveMatch (fuel : Nat) (f : RelaxedPathFilter) (path : Text) : Option Bool :=
  if f.rules.positiveRules.any (·.isMatching path) then (!·) <$> f.isOpposing fuel path
  else some false

def isMatching (fuel : Nat) (f : RelaxedPathFilter) (path : Text) : Option Bool := do
  let hasPositiveMatch ← f.hasPositiveMatch fuel path
  let hasPositiveMatch ←
    if hasPositiveMatch then some true else anySubPath f.exact.isMatching fuel path
  if hasPositiveMatch then (!·) <$> f.isOpposing fuel path else some false

end RelaxedPathFilter

/-! ## Inclusion specs -/

namespace InclusionSpec

def kCurrentVersion : Int := 1

/-- The version is cast to `int`. -/
def toVersion (s : Text) : Int := (Client.string2Uint64 s : Int).bmod (2 ^ 32)

def parseVersion (line : Text) : Option Int :=
  let trimmed := trim line
  if trimmed.take 8 ≠ (ascii "version ") then none
  else
    let version := trim (trimmed.drop 8)
    if version = [] || !version.all isDigit then none
    else some (toVersion version)

def isSkipped (line : Text) : Bool :=
  (trim line).isEmpty || (trim line).head? == some 35

def isVersionLine (line : Text) : Bool :=
  !isSkipped line && (trim line).take 7 == (ascii "version")

/-- What follows the version line. -/
def stripVersionLine : List Text → Text
  | [] => []
  | line :: lines =>
    if isVersionLine line then lines.flatMap (· ++ [10]) else stripVersionLine lines

def version (spec : Text) : Option Int := do
  let line ← (spec.splitOn 10).find? (!isSkipped ·)
  parseVersion (trim line)

/-- The path rules of a spec with a version that is supported. -/
def filterContent (spec : Text) : Option Text :=
  if version spec = some kCurrentVersion then some (stripVersionLine (spec.splitOn 10))
  else none

/-- The inner `none` is a spec that is rejected. -/
def parse (fuel : Nat) (spec : Text) : Option (Option RelaxedPathFilter) :=
  match filterContent spec with
  | none => some none
  | some content => do
    let (filter, valid) ← RelaxedPathFilter.parse fuel content
    some (if valid then some filter else none)

/-- For a spec that was accepted. -/
def isExcluded (fuel : Nat) (filter : RelaxedPathFilter) (path : Text) : Option Bool :=
  if path = [] ∨ path = [kSeparator] then some false
  else (!·) <$> filter.isMatching fuel path

end InclusionSpec

end Cvmfs.PathFilters
