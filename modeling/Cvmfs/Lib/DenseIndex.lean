import Mathlib.Data.List.Basic

/-! # Dense stores and their index

A list of items and an index that knows the position of each item by its key. Items are added
at the end; a removed item is replaced by the last one, so that the list has no gaps and the
index changes at two keys. -/

namespace Cvmfs.Lib

open Function List Option

variable {K V : Type} {key : V → K} {store : List V} {position : K → Option Nat}

/-- The index tells the position of every item, and nothing else. -/
def Indexes (key : V → K) (store : List V) (position : K → Option Nat) : Prop :=
  ∀ k n, position k = some n ↔ (store[n]?).map key = some k

namespace Indexes

theorem empty : Indexes key [] fun _ => none := by
  intro k n
  simp

section

variable (h : Indexes key store position)
include h

theorem get {k n} (hk : position k = some n) : ∃ v, store[n]? = some v ∧ key v = k :=
  map_eq_some_iff.1 ((h k n).1 hk)

theorem lt {k n} (hk : position k = some n) : n < store.length := by
  obtain ⟨v, hv, -⟩ := h.get hk
  exact (List.getElem?_eq_some_iff.1 hv).1

theorem position_getElem {n v} (hv : store[n]? = some v) : position (key v) = some n := by
  rw [h, hv]
  rfl

end

variable [DecidableEq K]

theorem append (h : Indexes key store position) {v} (hnone : position (key v) = none) :
    Indexes key (store ++ [v]) (update position (key v) (some store.length)) := by
  intro k n
  rw [update_apply]
  split
  next hk =>
    subst hk
    constructor
    · intro hn
      cases hn
      simp
    intro hn
    rcases Nat.lt_trichotomy n store.length with hlt | rfl | hgt
    · rw [getElem?_append_left hlt, ← h, hnone] at hn
      cases hn
    · rfl
    · rw [getElem?_eq_none (by simp; omega)] at hn
      cases hn
  next hk =>
    rcases Nat.lt_trichotomy n store.length with hlt | rfl | hgt
    · rw [getElem?_append_left hlt]
      exact h k n
    · constructor
      · exact fun hn => absurd (h.lt hn) (Nat.lt_irrefl _)
      · intro hn
        simp only [getElem?_concat_length, map_some, some.injEq] at hn
        exact absurd hn.symm hk
    · rw [getElem?_eq_none (by simp; omega)]
      constructor
      · exact fun hn => absurd (h.lt hn) (by omega)
      · simp

theorem swapRemove (h : Indexes key store position) {k n back} (hk : position k = some n)
    (hback : store.getLast? = some back) : Indexes key (store.set n back).dropLast
      (update (update position (key back) (some n)) k none) := by
  have hlen := h.lt hk
  have hlast : store[store.length - 1]? = some back := by
    rw [← hback, getLast?_eq_getElem?]
  have hposition := h.position_getElem hlast
  intro k' m
  rw [dropLast_eq_take, length_set]
  by_cases hm : m < store.length - 1
  · rw [getElem?_take_of_lt hm]
    by_cases hmn : n = m
    · subst hmn
      rw [getElem?_set_self hlen, update_apply, update_apply]
      split
      next hk' =>
        subst hk'
        constructor
        · exact nofun
        intro heq
        rw [map_some, some.injEq] at heq
        rw [heq, hk] at hposition
        cases hposition
        exact absurd hm (Nat.lt_irrefl _)
      next hne =>
        split
        next hk' => simp [hk']
        next hk' =>
          constructor
          · intro hm'
            obtain ⟨v, hv, hkey⟩ := h.get hm'
            obtain ⟨w, hw, hkey'⟩ := h.get hk
            rw [hv] at hw
            cases hw
            exact absurd (hkey.symm.trans hkey') hne
          · intro heq
            exact absurd (some.inj heq).symm hk'
    · rw [getElem?_set_ne hmn, update_apply, update_apply]
      split
      next hk' =>
        subst hk'
        rw [← h, hk]
        simp [hmn]
      split
      next hk' =>
        subst hk'
        rw [← h, hposition]
        constructor
        · exact fun heq => absurd (some.inj heq) hmn
        · intro heq
          cases heq
          exact absurd hm (Nat.lt_irrefl _)
      · exact h k' m
  · rw [getElem?_eq_none (by rw [length_take, length_set]; omega)]
    simp only [map_none, iff_false, reduceCtorEq]
    rw [update_apply, update_apply]
    split
    · exact nofun
    next hne =>
      split
      next hk' =>
        intro heq
        cases heq
        -- the last item itself is removed
        have hn : n = store.length - 1 := by omega
        subst hn
        obtain ⟨w, hw, hkey⟩ := h.get hk
        rw [hlast] at hw
        cases hw
        exact hne (hk'.trans hkey)
      next hk' =>
        intro heq
        have hlt := h.lt heq
        have hn : m = store.length - 1 := by omega
        subst hn
        obtain ⟨w, hw, hkey⟩ := h.get heq
        rw [hlast] at hw
        cases hw
        exact hk' hkey.symm

end Indexes

end Cvmfs.Lib
