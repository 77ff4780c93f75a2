import Mathlib.Data.List.Basic

/-! # Run scripts of overlay images

The run script of an image assigns the quoted entrypoint and command to variables, between single
quotes, and evaluates them. -/

namespace Cvmfs.Overlay

open List

abbrev Text := List Char

/-- `string::find`: what stands before the first `needle` and what behind it. -/
def find (needle : Text) : Text → Option (Text × Text)
  | [] => none
  | c :: s =>
    if needle.isPrefixOf (c :: s) then some ([], (c :: s).drop needle.length)
    else (find needle s).map fun (before, behind) => (c :: before, behind)

/-- The loop of `ReplaceAll` from `pos` on; `none` when it goes on after `fuel` replacements. The
next search starts at the replacement, not behind it. -/
def replaceFrom (needle replaceBy : Text) (fuel : Nat) (s : Text) : Option Text :=
  match find needle s with
  | none => some s
  | some (before, behind) =>
    match fuel with
    | 0 => none
    | fuel + 1 => (replaceFrom needle replaceBy fuel (replaceBy ++ behind)).map (before ++ ·)

def replaceAll (fuel : Nat) (haystack needle replaceBy : Text) : Option Text :=
  if needle = [] then some haystack else replaceFrom needle replaceBy fuel haystack

def shellEscape (fuel : Nat) (s : Text) : Option Text := do
  let escaped ← replaceAll fuel s ['\\'] ['\\', '\\']
  let escaped ← replaceAll fuel escaped ['"'] ['\\', '"']
  let escaped ← replaceAll fuel escaped ['\x60'] ['\\', '\x60']
  replaceAll fuel escaped ['$'] ['\\', '$']

def quoted (s : Text) : Text := '"' :: (s ++ ['"'])

def joined : List Text → Text
  | [] => []
  | [s] => quoted s
  | s :: args => quoted s ++ ' ' :: joined args

def argsQuoted (fuel : Nat) (args : List Text) : Option Text :=
  (args.mapM (shellEscape fuel)).map joined

/-- The values of `OCI_ENTRYPOINT` and `OCI_CMD`, written between single quotes. The rest of the
script is always the same. -/
def generateRunscript (fuel : Nat) (entrypoint cmd : List Text) : Option (Text × Text) := do
  some (← argsQuoted fuel entrypoint, ← argsQuoted fuel cmd)

/-! ## The shell -/

def special : Text := ['\\', '"', '\x60', '$']

/-- The words of a text, of which `word` has been read; `none` when an expansion starts, or when
text stands outside of the double quotes. -/
def words : Bool → Option Text → Text → Option (List Text)
  | false, word, [] => some word.toList
  | false, word, c :: text =>
    if c = '"' then words true (some (word.getD [])) text
    else if c = ' ' then (words false none text).map (word.toList ++ ·)
    else none
  | true, _, [] | true, _, ['\\'] => none
  | true, word, '\\' :: c :: text =>
    if c = '\n' then words true word text
    else words true (word.map (· ++ if c ∈ special then [c] else ['\\', c])) text
  | true, word, c :: text =>
    if c = '"' then words false word text
    else if c ∈ special then none
    else words true (word.map (· ++ [c])) text

/-- What a shell makes of a text, which has no NUL. -/
def expand (text : Text) : Option (List Text) :=
  if '\x00' ∈ text then none else words false none text

/-- The options of `set` that a shell knows: letters, and names for `-o`. Not among them are those
after which nothing is executed. -/
structure Options where
  letter : Char → Bool
  name : Text → Bool

/-- The letters of an option, and the words behind it. -/
def setLetters (options : Options) : Text → List Text → Option (List Text)
  | [], args => some args
  | 'o' :: letters, [] => setLetters options letters []
  | 'o' :: letters, name :: args =>
    if options.name name then setLetters options letters args else none
  | c :: letters, args => if options.letter c then setLetters options letters args else none

def IsOption (arg : Text) : Prop := arg.head? = some '-' ∨ arg.head? = some '+'

instance (arg : Text) : Decidable (IsOption arg) := inferInstanceAs (Decidable (_ ∨ _))

/-- The arguments that `set` leaves behind its options, of which there are at most `fuel`; `none`
when the shell gives up. -/
def setArgs (options : Options) : Nat → List Text → Option (List Text)
  | _, [] => some []
  | 0, _ :: _ => none
  | fuel + 1, arg :: args =>
    if arg = ['-'] ∨ arg = ['-', '-'] then some args
    else if IsOption arg then
      (setLetters options arg.tail args).bind fun args => setArgs options fuel args
    else some (arg :: args)

/-- The arguments that a script executes when it is called without any, by
`eval "set ${OCI_ENTRYPOINT} ${OCI_CMD}"`; `none` when a single quote ends a value before its end,
since the text behind it is then read as commands. -/
def execArgs (options : Options) (script : Text × Text) : Option (List Text) := do
  if '\x27' ∈ script.1 ++ script.2 then none
  else
    let args ← expand (script.1 ++ ' ' :: script.2)
    setArgs options args.length args

/-! ## Escaping -/

variable {c : Char} {s t v : Text} {args : List Text}

def Plain (s : Text) : Prop := ∀ c ∈ special, c ∉ s

instance : Decidable (Plain s) := List.decidableBAll (· ∉ s) special

theorem find_isSome : (find [c] s).isSome ↔ c ∈ s := by
  induction s with
  | nil => simp [find]
  | cons d s ih =>
    rw [find, mem_cons]
    split <;> simp_all

-- each replacement brings the needle back at the position where the search goes on
theorem replaceFrom_of_mem {r : Text} (hr : c ∈ r) (fuel : Nat) (h : c ∈ s) :
    replaceFrom [c] r fuel s = none := by
  fun_induction replaceFrom [c] r fuel s with
  | case1 _ _ hf => simp [← find_isSome, hf] at h
  | case2 => rfl
  | case3 _ _ _ _ _ ih => rw [ih (mem_append_left _ hr), Option.map_none]

theorem replaceAll_char {r : Text} (hr : c ∈ r) (fuel : Nat) :
    replaceAll fuel s [c] r = if c ∈ s then none else some s := by
  rw [replaceAll, if_neg (by simp)]
  split
  case isTrue h => exact replaceFrom_of_mem hr _ h
  case isFalse h =>
    have hf : find [c] s = none := by simpa [← find_isSome] using h
    rw [replaceFrom, hf]

theorem shellEscape_eq (fuel : Nat) : shellEscape fuel s = if Plain s then some s else none := by
  simp only [shellEscape, replaceAll_char (mem_cons_of_mem _ (.head _)), Plain, special]
  by_cases h : '\\' ∈ s
  · simp [h]
  by_cases h₁ : '"' ∈ s
  · simp [h, h₁]
  by_cases h₂ : '\x60' ∈ s <;> simp [h, h₁, h₂]

theorem argsQuoted_eq (fuel : Nat) :
    argsQuoted fuel args = if ∀ s ∈ args, Plain s then some (joined args) else none := by
  have h : args.mapM (shellEscape fuel) = if ∀ s ∈ args, Plain s then some args else none := by
    induction args with
    | nil => simp
    | cons s args ih =>
      rw [mapM_cons, shellEscape_eq, ih]
      simp only [forall_mem_cons]
      split_ifs <;> simp_all
  rw [argsQuoted, h]
  split <;> rfl

/-! ## Reading back -/

theorem words_quoted (h : Plain s) : words false none (quoted s ++ t) = words false (some s) t := by
  have hword : ∀ v, words true (some v) (s ++ '"' :: t) = words false (some (v ++ s)) t := by
    induction s with
    | nil => simp [words]
    | cons c s ih =>
      intro v
      have hc : c ∉ special := fun hc => h c hc (.head _)
      have hs := ih (fun d hd hmem => h d hd (.tail _ hmem)) (v ++ [c])
      rw [cons_append, words] <;> grind [special]
  simpa [quoted, words] using hword []

theorem words_joined (hargs : ∀ s ∈ args, Plain s)
    (ht : ∀ v, words false (some v) t = (words false none t).map (v :: ·)) :
    words false none (joined args ++ t) = (words false none t).map (args ++ ·) := by
  fun_induction joined args with
  | case1 => simp
  | case2 s => simp [words_quoted (hargs s (.head _)), ht]
  | case3 s args hne ih =>
    have ih := ih fun a ha => hargs a (.tail _ ha)
    simp [words_quoted (hargs s (.head _)), words, ih, Function.comp_def]

theorem mem_joined (hc : c ≠ '"' ∧ c ≠ ' ') : c ∈ joined args ↔ ∃ s ∈ args, c ∈ s := by
  fun_induction joined args <;> simp_all [quoted]

/-! ## Options -/

variable {options : Options} {rest : List Text}

theorem length_setLetters {letters : Text} (h : setLetters options letters args = some rest) :
    rest.length ≤ args.length := by
  fun_induction setLetters options letters args with
  | case1 args =>
    cases h
    exact Nat.le_refl _
  | case2 _ ih => exact ih h
  | case3 _ _ _ _ ih => exact Nat.le_succ_of_le (ih h)
  | case5 _ _ _ _ _ _ ih => exact ih h
  | case4 | case6 => cases h

theorem length_setArgs {fuel} (h : setArgs options fuel args = some rest) :
    rest.length ≤ args.length := by
  fun_induction setArgs options fuel args with
  | case1 | case5 =>
    cases h
    exact Nat.le_refl _
  | case2 => cases h
  | case3 =>
    cases h
    exact Nat.le_succ _
  | case4 _ _ _ _ _ ih =>
    obtain ⟨behind, hletters, h⟩ := Option.bind_eq_some_iff.mp h
    exact Nat.le_succ_of_le (Nat.le_trans (ih behind h) (length_setLetters hletters))

theorem setArgs_eq_some_iff :
    setArgs options args.length args = some args ↔ ∀ arg ∈ args.head?, ¬IsOption arg := by
  cases args with
  | nil => simp [setArgs]
  | cons arg args =>
    have hhead : (∀ a ∈ (arg :: args).head?, ¬IsOption a) ↔ ¬IsOption arg := by simp
    rw [hhead, length_cons, setArgs]
    split
    case isTrue hend =>
      have hoption : IsOption arg := by obtain rfl | rfl := hend <;> exact .inl rfl
      refine iff_of_false (fun h => ?_) (not_not_intro hoption)
      exact absurd (congrArg length (Option.some.inj h)) (Nat.ne_of_lt (Nat.lt_succ_self _))
    split
    case isTrue hoption =>
      refine iff_of_false (fun h => ?_) (not_not_intro hoption)
      obtain ⟨behind, hletters, h⟩ := Option.bind_eq_some_iff.mp h
      exact absurd (Nat.le_trans (length_setArgs h) (length_setLetters hletters))
        (Nat.not_succ_le_self _)
    case isFalse hoption => exact iff_of_true rfl hoption

section

variable {entrypoint cmd : List Text} (he : ∀ s ∈ entrypoint, Plain s) (hc : ∀ s ∈ cmd, Plain s)
include he hc

theorem words_script : words false none (joined entrypoint ++ ' ' :: joined cmd) =
    some (entrypoint ++ cmd) := by
  have hcmd := words_joined (t := []) hc (by simp [words])
  rw [append_nil] at hcmd
  rw [words_joined he (by simp [words])]
  simp [words, hcmd]

theorem execArgs_script : execArgs options (joined entrypoint, joined cmd) =
      some (entrypoint ++ cmd) ↔
    (∀ s ∈ entrypoint ++ cmd, '\x27' ∉ s ∧ '\x00' ∉ s) ∧
      ∀ arg ∈ (entrypoint ++ cmd).head?, ¬IsOption arg := by
  have hquote : '\x27' ∈ joined entrypoint ++ joined cmd ↔
      ∃ s ∈ entrypoint ++ cmd, '\x27' ∈ s := by
    simp [mem_joined, or_and_right, exists_or]
  have hnul : '\x00' ∈ joined entrypoint ++ ' ' :: joined cmd ↔
      ∃ s ∈ entrypoint ++ cmd, '\x00' ∈ s := by
    simp [mem_joined, or_and_right, exists_or]
  by_cases hq : ∃ s ∈ entrypoint ++ cmd, '\x27' ∈ s
  · rw [execArgs, if_pos (hquote.mpr hq)]
    obtain ⟨s, hs, hmem⟩ := hq
    exact iff_of_false nofun fun h => (h.1 s hs).1 hmem
  rw [execArgs, if_neg (fun h => hq (hquote.mp h)), expand]
  by_cases hn : ∃ s ∈ entrypoint ++ cmd, '\x00' ∈ s
  · rw [if_pos (hnul.mpr hn)]
    obtain ⟨s, hs, hmem⟩ := hn
    exact iff_of_false nofun fun h => (h.1 s hs).2 hmem
  rw [if_neg (fun h => hn (hnul.mp h)), words_script he hc]
  refine setArgs_eq_some_iff.trans ⟨fun h => ⟨fun s hs => ?_, h⟩, And.right⟩
  exact ⟨fun h => hq ⟨s, hs, h⟩, fun h => hn ⟨s, hs, h⟩⟩

end

/-- The escaped text is read back as it was exactly if there was nothing to escape, and a script
executes the arguments it was made from exactly if also no single quote is among them and the
first one is no option for `set`. -/
theorem arguments_kept_iff (options : Options) (s : Text) (entrypoint cmd : List Text) :
    ((∃ fuel e, shellEscape fuel s = some e ∧ expand (quoted e) = some [s]) ↔
      Plain s ∧ '\x00' ∉ s) ∧
    ((∃ fuel script, generateRunscript fuel entrypoint cmd = some script ∧
      execArgs options script = some (entrypoint ++ cmd)) ↔
        (∀ s ∈ entrypoint ++ cmd, Plain s ∧ '\x27' ∉ s ∧ '\x00' ∉ s) ∧
          ∀ arg ∈ (entrypoint ++ cmd).head?, ¬IsOption arg) := by
  constructor
  · by_cases h : Plain s
    · have hwords : words false none (quoted s) = some [s] := by
        simpa [words] using words_quoted (t := []) h
      have hnul : '\x00' ∈ quoted s ↔ '\x00' ∈ s := by simp [quoted]
      simp [shellEscape_eq, h, expand, hwords, hnul]
    · simp [shellEscape_eq, h]
  by_cases he : ∀ s ∈ entrypoint, Plain s
  case neg => grind [generateRunscript, argsQuoted_eq]
  by_cases hc : ∀ s ∈ cmd, Plain s
  case neg => grind [generateRunscript, argsQuoted_eq]
  have hscript : ∀ fuel, generateRunscript fuel entrypoint cmd =
      some (joined entrypoint, joined cmd) := by
    simp [generateRunscript, argsQuoted_eq, if_pos he, if_pos hc]
  have hplain : (∀ s ∈ entrypoint ++ cmd, Plain s ∧ '\x27' ∉ s ∧ '\x00' ∉ s) ↔
      ∀ s ∈ entrypoint ++ cmd, '\x27' ∉ s ∧ '\x00' ∉ s :=
    forall₂_congr fun s hs => and_iff_right ((mem_append.mp hs).elim (he s) (hc s))
  simp only [hscript, Option.some.injEq, exists_const, exists_eq_left', execArgs_script he hc,
    hplain]

/-- The options of `sh` that matter for the script below. -/
def shOptions : Options := ⟨(· == 'u'), fun _ => false⟩

theorem dollar_not_escaped : (∀ fuel, shellEscape fuel ['$'] = none) ∧
    (∃ script, generateRunscript 0 ["';reboot;'".toList] [] = some script ∧
      execArgs shOptions script = none) ∧
    ∃ script, generateRunscript 0 [['-', 'u'], ['w']] [['x']] = some script ∧
      execArgs shOptions script = some [['w'], ['x']] :=
  ⟨fun fuel => shellEscape_eq fuel, ⟨_, rfl, rfl⟩, _, rfl, rfl⟩

end Cvmfs.Overlay
