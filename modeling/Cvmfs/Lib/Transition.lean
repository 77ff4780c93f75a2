import Mathlib.Algebra.Order.Ring.Int

/-! # Labelled transition systems

A system is a set of initial states and a labelled step relation. Runs are
restricted by a *guard*, a predicate on the pre-state and the label: with the
trivial guard a run is any interleaving, with a stronger guard it is an
interleaving all of whose steps meet a side condition. An invariant is proved
once per step and carried to whole runs by `Reach.invariant`.
-/

namespace Cvmfs.Lib

/-- A transition system over states `σ` with labels `ε`. -/
structure System (σ ε : Type*) where
  init : σ → Prop
  step : σ → ε → σ → Prop

namespace System

variable {σ ε : Type*} (S : System σ ε)

/-- The states reached by runs whose steps all meet `guard`. -/
inductive Reach (guard : σ → ε → Prop) : σ → Prop
  | init {s} : S.init s → Reach guard s
  | step {s e s'} : Reach guard s → guard s e → S.step s e s' → Reach guard s'

def anyStep : σ → ε → Prop := fun _ _ => True

variable {S} {guard : σ → ε → Prop}

/-- **Invariant rule.** What holds initially and survives every guarded step
holds in every state of every guarded run. -/
theorem Reach.invariant {P : σ → Prop} (hinit : ∀ s, S.init s → P s)
    (hstep : ∀ s e s', P s → guard s e → S.step s e s' → P s') {s} (h : S.Reach guard s) : P s := by
  induction h with
  | init hi => exact hinit _ hi
  | step _ hg hs ih => exact hstep _ _ _ ih hg hs

theorem Reach.mono {guard' : σ → ε → Prop} (hguard : ∀ s e, guard s e → guard' s e) {s}
    (h : S.Reach guard s) : S.Reach guard' s := by
  induction h with
  | init hi => exact .init hi
  | step _ hg hs ih => exact ih.step (hguard _ _ hg) hs

variable {f : σ → ε → Option σ} {es : List ε} {s t : σ}

theorem Reach.followIf (hf : ∀ s e s', f s e = some s' → guard s e ∧ S.step s e s')
    (h : S.Reach guard s) (he : es.foldlM f s = some t) : S.Reach guard t := by
  induction es generalizing s with
  | nil =>
    cases he
    exact h
  | cons e es ih =>
    rw [List.foldlM_cons] at he
    obtain ⟨s', hs, he⟩ := Option.bind_eq_some_iff.mp he
    obtain ⟨hg, hstep⟩ := hf _ _ _ hs
    exact ih (h.step hg hstep) he

/-- A computed step that is taken only where the guard holds. -/
def guarded (guard : σ → ε → Prop) [∀ s e, Decidable (guard s e)] (f : σ → ε → Option σ) (s : σ)
    (e : ε) : Option σ :=
  if guard s e then f s e else none

theorem Reach.followGuarded [∀ s e, Decidable (guard s e)]
    (hf : ∀ s e s', f s e = some s' → S.step s e s')
    (h : S.Reach guard s) (he : es.foldlM (guarded guard f) s = some t) : S.Reach guard t := by
  refine h.followIf (fun s e s' hs => ?_) he
  obtain ⟨hg, hs⟩ := Option.ite_none_right_eq_some.1 hs
  exact ⟨hg, hf s e s' hs⟩

theorem Reach.follow (hf : ∀ s e s', f s e = some s' → S.step s e s') (h : S.Reach anyStep s)
    (he : es.foldlM f s = some t) :
    S.Reach anyStep t :=
  h.followIf (fun s e s' hs => ⟨trivial, hf s e s' hs⟩) he

end System

end Cvmfs.Lib
