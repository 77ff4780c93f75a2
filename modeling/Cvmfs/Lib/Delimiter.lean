import Mathlib.Data.List.Infix

/-! # Splitting at a delimiter of several characters

A text is cut at the leftmost occurrence of the delimiter, and again behind it. What was joined
with the delimiter is found again where no piece completes an occurrence that starts in itself. -/

namespace Cvmfs.Lib.Delimiter

open List

variable {α : Type*} [DecidableEq α]

/-- The pieces behind the first `skip` characters. -/
def splitFrom (d : List α) : Nat → List α → List (List α)
  | _, [] => [[]]
  | skip + 1, _ :: cs => splitFrom d skip cs
  | 0, c :: cs =>
    if d <+: c :: cs then [] :: splitFrom d (d.length - 1) cs
    else (splitFrom d 0 cs).modifyHead (c :: ·)

def split (d s : List α) : List (List α) := splitFrom d 0 s

/-- No occurrence of the delimiter starts in `p` when the delimiter follows. -/
def Closed (d p : List α) : Prop := ¬ d <:+: p ++ d.dropLast

instance (d p : List α) : Decidable (Closed d p) := inferInstanceAs (Decidable (¬ _))

variable {d : List α}

theorem splitFrom_eq_split (skip : Nat) (s : List α) :
    splitFrom d skip s = split d (s.drop skip) := by
  induction skip generalizing s with
  | zero => rfl
  | succ skip ih =>
    cases s with
    | nil => rfl
    | cons c cs => simp [splitFrom, ih]

theorem split_cons (c : α) (cs : List α) : split d (c :: cs) =
    if d <+: c :: cs then [] :: split d (cs.drop (d.length - 1))
    else (split d cs).modifyHead (c :: ·) := by
  rw [split, splitFrom, splitFrom_eq_split]
  rfl

theorem split_ne_nil (s : List α) : split d s ≠ [] := by
  cases s with
  | nil => simp [split, splitFrom]
  | cons c cs =>
    rw [split_cons]
    have := split_ne_nil cs
    split <;> simp [*]

variable {p s : List α}

theorem split_eq_singleton (h : ¬ d <:+: s) : split d s = [s] := by
  induction s with
  | nil => rfl
  | cons c cs ih =>
    have hcs : ¬ d <:+: cs := fun hi => h (infix_cons hi)
    rw [split_cons, if_neg fun hp => h hp.isInfix, ih hcs]
    rfl

omit [DecidableEq α] in
theorem Closed.of_cons {c : α} (h : Closed d (c :: p)) : Closed d p :=
  fun hi => h (infix_cons hi)

omit [DecidableEq α] in
theorem Closed.not_infix (h : Closed d p) : ¬ d <:+: p :=
  fun hi => h (hi.trans (prefix_append _ _).isInfix)

theorem split_of_overlap {c : α} {cs u : List α} (h : ¬ d <+: c :: cs)
    (hu : d <+: c :: cs ++ (d ++ u)) : split d (c :: cs) = [c :: cs] ∧ ¬ Closed d (c :: cs) := by
  have hlt : (c :: cs).length < d.length := by
    by_contra hle
    exact h (prefix_of_prefix_length_le hu (prefix_append _ _) (by omega))
  refine ⟨split_eq_singleton fun hi => by have := hi.length_le; omega, fun hc => hc ?_⟩
  -- the occurrence ends before the last character of the delimiter that follows
  have hd : d ≠ [] := fun h0 => by simp [h0] at hlt
  rw [← dropLast_append_getLast hd, append_assoc, ← append_assoc, dropLast_append_getLast hd] at hu
  refine (prefix_of_prefix_length_le hu (prefix_append _ _) ?_).isInfix
  simp
  omega

theorem split_append (hd : d ≠ []) (u : List α) (h : ∀ p ∈ (split d s).getLast?, Closed d p) :
    split d (s ++ (d ++ u)) = split d s ++ split d u := by
  induction hn : s.length using Nat.strong_induction_on generalizing s with
  | _ n ih =>
  cases s with
  | nil =>
    obtain ⟨c, d', rfl⟩ := exists_cons_of_ne_nil hd
    have hp : c :: d' <+: c :: (d' ++ u) := prefix_append (c :: d') u
    rw [nil_append, cons_append, split_cons, if_pos hp]
    simp [split, splitFrom]
  | cons c cs =>
    rw [length_cons] at hn
    have hs := split_cons (d := d) c cs
    by_cases hp : d <+: c :: cs
    · have hlen := hp.length_le
      have hpos := length_pos_of_ne_nil hd
      rw [length_cons] at hlen
      rw [if_pos hp] at hs
      have hpu : d <+: c :: (cs ++ (d ++ u)) := hp.trans (prefix_append (c :: cs) _)
      rw [hs, getLast?_cons_of_ne_nil (split_ne_nil _)] at h
      rw [hs, cons_append, split_cons, if_pos hpu, drop_append_of_le_length (by omega),
        ih _ (by simp; omega) h rfl]
      rfl
    have hu : ¬ d <+: c :: (cs ++ (d ++ u)) := by
      intro hu
      obtain ⟨hs, hc⟩ := split_of_overlap hp hu
      exact hc (h _ (by rw [hs]; rfl))
    rw [if_neg hp] at hs
    obtain ⟨p, ps, hcs⟩ := exists_cons_of_ne_nil (split_ne_nil (d := d) cs)
    rw [hs, hcs, modifyHead_cons] at h
    have hlast : ∀ q ∈ (split d cs).getLast?, Closed d q := by
      rw [hcs]
      cases ps with
      | nil => simpa using (h _ rfl).of_cons
      | cons q qs => simpa using h
    rw [cons_append, split_cons, if_neg hu, ih _ (by omega) hlast rfl, hs, hcs]
    rfl

/-- The pieces that a joined text is split into again: all but the last are closed, and the last
has no delimiter in it. -/
def Separable (d : List α) : List (List α) → Prop
  | [] => True
  | [p] => ¬ d <:+: p
  | p :: ps => Closed d p ∧ Separable d ps

instance decidableSeparable (d : List α) : ∀ ps, Decidable (Separable d ps)
  | [] => .isTrue trivial
  | [_] => inferInstanceAs (Decidable (¬ _))
  | _ :: q :: ps =>
    have := decidableSeparable d (q :: ps)
    inferInstanceAs (Decidable (_ ∧ _))

theorem split_intercalate (hd : d ≠ []) : ∀ {ps : List (List α)}, ps ≠ [] → Separable d ps →
    split d (d.intercalate ps) = ps
  | [p], _, h => by simpa using split_eq_singleton h
  | p :: q :: ps, _, ⟨hp, hps⟩ => by
    have hs := split_eq_singleton hp.not_infix
    have hlast : ∀ r ∈ (split d p).getLast?, Closed d r := by simpa [hs] using hp
    rw [intercalate_cons_cons, append_assoc, split_append hd _ hlast, hs,
      split_intercalate hd (by simp) hps]
    rfl

end Cvmfs.Lib.Delimiter
