import Mathlib.Algebra.GroupWithZero.Nat
import Mathlib.Data.List.Infix

/-! # Lease paths

A lease is requested for a text `<repo>/<subpath>`. `splitLeasePath` is the
gateway's own splitting of that text, `like` is the SQL operator its lease
queries use, and `pathConflict` is the condition those queries put on two sub
paths. The purpose of the condition is `Overlap`: one path is the other or an
ancestor of it, as sequences of non-empty components.

`prefix_of_overlap` shows that overlapping paths begin one with the other as long
as neither spelling has two slashes in a row. The proof goes through a normal form:
the rendering of the components, up to one trailing slash.
-/

namespace Cvmfs.Gateway

open List

abbrev Text := List Char

/-- `len` counts the bytes of a text. -/
def byteLength (t : Text) : Nat := (t.map Char.utf8Size).sum

/-- `gw.SplitLeasePath`: the repository is everything before the first slash,
the sub path is the rest, with its leading slash. -/
def splitLeasePath (leasePath : Text) : Except String (Text × Text) :=
  if leasePath.head? = some '/' then
    .error "input has leading slash"
  else
    let tokens := leasePath.splitOn '/'
    if tokens.length < 2 then
      .error "missing repository name or subpath"
    else
      let repoName := tokens.headD []
      .ok (repoName, leasePath.drop repoName.length)

/-! ## The SQL operator -/

/-- Lower case of the ASCII letters, every other character unchanged: the only
folding `LIKE` does. -/
def foldCase (c : Char) : Char :=
  if 'A' ≤ c ∧ c ≤ 'Z' then Char.ofNat (c.toNat + 32) else c

/-- `text LIKE pattern` without an escape character: `%` stands for any
sequence, `_` for any one character. -/
def like : (pattern text : Text) → Bool
  | [], text => text.isEmpty
  | p :: ps, text =>
    if p = '%' then text.tails.any (like ps)
    else match text with
      | [] => false
      | t :: ts => (p == '_' || foldCase p == foldCase t) && like ps ts

/-- What `LIKE` sees of a text. -/
def cString (t : Text) : Text := t.takeWhile (· ≠ '\x00')

/-- `text LIKE lead || '%'`. Both sides end at a NUL. SQLite refuses a pattern of more than 50000
bytes. -/
def likePrefix (lead text : Text) : Bool := like (cString (lead ++ ['%'])) (cString text)

def tooComplex (lead : Text) : Bool := 50000 < byteLength (lead ++ ['%'])

theorem likePrefix_append (lead rest : Text) : likePrefix lead (lead ++ rest) = true := by
  unfold likePrefix
  induction lead with
  | nil =>
    exact any_eq_true.2 ⟨[], (mem_tails ..).2 (nil_suffix (l := cString rest)), rfl⟩
  | cons p ps ih =>
    simp only [cString, cons_append, takeWhile_cons] at ih ⊢
    split
    next hp =>
      rw [like]
      split
      · -- a `%` of the lead itself may match the one character it stands at
        exact any_eq_true.2 ⟨_, (mem_tails ..).2 (suffix_cons _ _), ih⟩
      · simpa using ih
    · rfl

/-- The condition of `FindAllLeasesByRepositoryAndOverlappingPath` on the sub
path of a stored lease and the requested one. -/
def pathConflict (stored requested : Text) : Bool :=
  likePrefix stored requested || likePrefix requested stored

/-- The wildcards and the case folding of the condition can only find more. -/
theorem pathConflict_of_prefix {p q : Text} (h : p <+: q ∨ q <+: p) : pathConflict p q = true := by
  rw [pathConflict, Bool.or_eq_true]
  exact h.imp (fun ⟨r, hr⟩ => hr ▸ likePrefix_append _ _) fun ⟨r, hr⟩ => hr ▸ likePrefix_append _ _

/-- The row is not compared, since one of the patterns is too long. -/
def likeFails (stored requested : Text) : Bool :=
  tooComplex stored || !likePrefix stored requested && tooComplex requested

/-! ## What the condition is for -/

def components (path : Text) : List Text := (path.splitOn '/').filter (· ≠ [])

/-- Two paths overlap when one is equal to or an ancestor of the other. -/
def Overlap (p q : Text) : Prop :=
  components p <+: components q ∨ components q <+: components p

instance (p q : Text) : Decidable (Overlap p q) :=
  inferInstanceAs (Decidable (_ ∨ _))

theorem Overlap.symm {p q} (h : Overlap p q) : Overlap q p := Or.symm h

def NoDoubleSlash (path : Text) : Prop := ¬ ['/', '/'] <:+: path

instance (p : Text) : Decidable (NoDoubleSlash p) := inferInstanceAs (Decidable (¬ _))

def render (cs : List Text) : Text := cs.flatMap ('/' :: ·)

@[simp] theorem render_nil : render [] = [] := rfl

@[simp] theorem render_cons (c : Text) (cs : List Text) :
    render (c :: cs) = '/' :: (c ++ render cs) := by
  simp [render]

@[simp] theorem render_append (as bs : List Text) : render (as ++ bs) = render as ++ render bs := by
  simp [render]

theorem render_splitOn (path : Text) : render (path.splitOn '/') = '/' :: path := by
  have h : ∀ ts : List Text, ts ≠ [] → render ts = '/' :: ['/'].intercalate ts := by
    intro ts hts
    induction ts with
    | nil => exact absurd rfl hts
    | cons t ts ih =>
      cases ts with
      | nil => simp
      | cons u us => rw [render_cons, ih (by simp)]; simp
  rw [h _ (splitOn_ne_nil _ _), intercalate_splitOn]

theorem tokens_of_noDoubleSlash {ts} (h : NoDoubleSlash (render ts)) :
    ts = ts.filter (· ≠ []) ∨ ts = ts.filter (· ≠ []) ++ [[]] := by
  induction ts with
  | nil => exact .inl rfl
  | cons t ts ih =>
    have hts : NoDoubleSlash (render ts) := by
      intro hi
      refine h (hi.trans ?_)
      rw [render_cons, ← cons_append]
      exact (suffix_append _ _).isInfix
    by_cases ht : t = []
    · subst ht
      cases ts with
      | nil => exact .inr rfl
      | cons u us => exact absurd ⟨[], u ++ render us, by simp⟩ h
    · rw [filter_cons_of_pos (by simpa using ht)]
      rcases ih hts with h' | h'
      · exact .inl (congrArg (t :: ·) h')
      · exact .inr (congrArg (t :: ·) h')

/-- **Normal form.** A path with a leading slash and no double slash is its
components, each behind a slash, up to one trailing slash. -/
theorem eq_render_components {path} (h : NoDoubleSlash ('/' :: path)) :
    '/' :: path = render (components ('/' :: path)) ∨
      '/' :: path = render (components ('/' :: path)) ++ ['/'] := by
  have hc : components ('/' :: path) = (path.splitOn '/').filter (· ≠ []) := by
    simp [components, splitOn_cons_eq_if_modifyHead]
  rw [← render_splitOn] at h
  rw [hc, ← render_splitOn]
  rcases tokens_of_noDoubleSlash h with h' | h'
  · exact .inl (congrArg render h')
  · refine .inr ((congrArg render h').trans ?_)
    simp

section

variable {p q} (hp : NoDoubleSlash ('/' :: p)) (hq : NoDoubleSlash ('/' :: q))
include hp hq

theorem literal_of_components (h : components ('/' :: p) <+: components ('/' :: q)) :
    '/' :: p <+: '/' :: q ∨ '/' :: p = '/' :: q ++ ['/'] := by
  obtain ⟨rest, hrest⟩ := h
  have hq' := eq_render_components hq
  rw [← hrest, render_append] at hq'
  rcases eq_render_components hp with hp' | hp'
  · -- `p` has no trailing slash: it starts both spellings of `q`
    left
    rw [hp']
    rcases hq' with hq' | hq' <;> rw [hq'] <;> simp [append_assoc]
  cases rest with
  | nil =>
    rw [render_nil, append_nil] at hq'
    rcases hq' with hq' | hq'
    · exact .inr (hp'.trans (by rw [hq']))
    · exact .inl (hp'.trans hq'.symm ▸ prefix_refl _)
  | cons c cs =>
    left
    rw [hp']
    rcases hq' with hq' | hq' <;> rw [hq', render_cons] <;> simp [append_assoc]

/-- **Overlaps are spelled out** where there is no double slash. -/
theorem prefix_of_overlap (h : Overlap ('/' :: p) ('/' :: q)) :
    '/' :: p <+: '/' :: q ∨ '/' :: q <+: '/' :: p := by
  rcases h with h | h
  · exact (literal_of_components hp hq h).imp_right fun he => ⟨_, he.symm⟩
  · exact ((literal_of_components hq hp h).imp_right fun he => ⟨_, he.symm⟩).symm

end

end Cvmfs.Gateway
