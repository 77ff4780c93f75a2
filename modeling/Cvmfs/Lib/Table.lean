import Mathlib.Data.List.Nodup
import Mathlib.Algebra.Order.BigOperators.Group.List
import Mathlib.Algebra.Order.Group.Nat
import Mathlib.Tactic.Abel

/-! # Keyed tables

A table of a database with a primary key: a list of rows no two of which have
the same key. Inserting a row fails when the key is taken, the other
statements select rows by their key. Each operation comes with two lemmas:
what a lookup finds afterwards, and how a sum over all rows changes. -/

namespace Cvmfs.Lib

open Function List

/-- Rows of type `V` under keys of type `K`, at most one row for each key. -/
structure Table (K V : Type) where
  entries : List (K × V)
  nodup : (entries.map Prod.fst).Nodup
deriving DecidableEq

namespace Table

variable {K V M : Type}

def empty : Table K V := ⟨[], nodup_nil⟩

/-- `DELETE` of the rows whose key fails `p`. -/
def filter (t : Table K V) (p : K → Bool) : Table K V where
  entries := t.entries.filter fun e => p e.1
  nodup := t.nodup.sublist ((filter_sublist (p := fun e => p e.1)).map Prod.fst)

/-- `DELETE` of the rows that fail `p`. -/
def select (t : Table K V) (p : K → V → Bool) : Table K V where
  entries := t.entries.filter fun e => p e.1 e.2
  nodup := t.nodup.sublist ((filter_sublist (p := fun e => p e.1 e.2)).map Prod.fst)

/-- `UPDATE` of every row by a function of its key and its old value. -/
def mapValues (t : Table K V) (f : K → V → V) : Table K V where
  entries := t.entries.map fun e => (e.1, f e.1 e.2)
  nodup := by
    rw [map_map]
    exact t.nodup

/-- The total of a weight over all rows. -/
def sum [AddCommMonoid M] (t : Table K V) (w : K → V → M) : M :=
  (t.entries.map fun e => w e.1 e.2).sum

variable [DecidableEq K]

/-- `SELECT` by key. -/
def find? (t : Table K V) (k : K) : Option V :=
  (t.entries.find? fun e => decide (e.1 = k)).map Prod.snd

def contains (t : Table K V) (k : K) : Bool := (t.find? k).isSome

/-- `DELETE` by key. -/
def erase (t : Table K V) (k : K) : Table K V := t.filter fun k' => decide (k' ≠ k)

/-- `UPDATE` by key: nothing happens when the key is not in the table. -/
def adjust (t : Table K V) (k : K) (f : V → V) : Table K V :=
  t.mapValues fun k' v => if k' = k then f v else v

variable {t : Table K V} {k : K} {v : V}

theorem find?_eq_some : t.find? k = some v ↔ (k, v) ∈ t.entries := by
  constructor
  · intro h
    obtain ⟨⟨k', v'⟩, hf, hv⟩ := Option.map_eq_some_iff.mp h
    have hk : k' = k := by simpa using find?_some hf
    have hm := mem_of_find?_eq_some hf
    cases hk
    cases hv
    exact hm
  intro h
  cases hf : t.entries.find? fun e => decide (e.1 = k) with
  | none =>
    have := find?_eq_none.mp hf _ h
    simp at this
  | some e =>
    have hk : e.1 = k := by simpa using find?_some hf
    have he : e = (k, v) := inj_on_of_nodup_map t.nodup (mem_of_find?_eq_some hf) h hk
    simp [find?, hf, he]

theorem find?_eq_none : t.find? k = none ↔ k ∉ t.entries.map Prod.fst := by
  rw [find?, Option.map_eq_none_iff, List.find?_eq_none, List.mem_map, not_exists]
  refine forall_congr' fun e => ?_
  rw [decide_eq_true_eq, not_and]

theorem find?_of_mem {e} (h : e ∈ t.entries) : t.find? e.1 = some e.2 := find?_eq_some.mpr h

/-- `INSERT OR REPLACE`. -/
def put (t : Table K V) (k : K) (v : V) : Table K V where
  entries := (k, v) :: (t.erase k).entries
  nodup := by
    refine nodup_cons.mpr ⟨?_, (t.erase k).nodup⟩
    simp [erase, filter]

/-! ## Lookups -/

@[simp] theorem find?_empty (k : K) : (empty : Table K V).find? k = none := rfl

@[simp] theorem find?_filter (t : Table K V) (p : K → Bool) (k : K) :
    (t.filter p).find? k = if p k then t.find? k else none := by
  refine Option.ext fun v => ?_
  rw [find?_eq_some]
  split
  · rename_i hp
    simp [filter, find?_eq_some, hp]
  · rename_i hp
    simp [filter, hp]

@[simp] theorem find?_select (t : Table K V) (p : K → V → Bool) (k : K) :
    (t.select p).find? k = (t.find? k).filter (p k) := by
  refine Option.ext fun v => ?_
  rw [find?_eq_some, Option.filter_eq_some_iff, find?_eq_some]
  simp [select]

@[simp] theorem find?_erase (t : Table K V) (k k' : K) :
    (t.erase k).find? k' = if k' = k then none else t.find? k' := by
  by_cases h : k' = k <;> simp [erase, h]

@[simp] theorem find?_mapValues (t : Table K V) (f : K → V → V) (k : K) :
    (t.mapValues f).find? k = (t.find? k).map (f k) := by
  refine Option.ext fun v => ?_
  rw [find?_eq_some, Option.map_eq_some_iff]
  constructor
  · intro h
    obtain ⟨e, he, heq⟩ := mem_map.mp h
    cases heq
    exact ⟨e.2, find?_of_mem he, rfl⟩
  · intro ⟨v', hv, hf⟩
    exact mem_map.mpr ⟨(k, v'), find?_eq_some.mp hv, by rw [hf]⟩

@[simp] theorem find?_adjust (t : Table K V) (k k' : K) (f : V → V) :
    (t.adjust k f).find? k' = if k' = k then (t.find? k).map f else t.find? k' := by
  rw [adjust, find?_mapValues]
  split
  · rename_i h
    rw [h]
  · exact Option.map_id_fun' ▸ rfl

variable {t' : Table K V}

@[simp] theorem find?_put (t : Table K V) (k k' : K) (v : V) :
    (t.put k v).find? k' = if k' = k then some v else t.find? k' := by
  have hf := find?_erase t k k'
  by_cases hk : k' = k
  · simp [find?, put, hk]
  have hk' : ¬k = k' := fun h => hk h.symm
  rw [if_neg hk] at hf ⊢
  rw [← hf]
  simp [find?, put, hk']

theorem contains_eq_true : t.contains k = true ↔ ∃ v, t.find? k = some v := by
  rw [contains, Option.isSome_iff_exists]

theorem erase_of_find?_eq_none (h : t.find? k = none) : t.erase k = t := by
  have hk := find?_eq_none.mp h
  cases t with
  | mk entries nodup =>
    simp only [erase, filter, Table.mk.injEq]
    refine filter_eq_self.mpr fun e he => decide_eq_true ?_
    intro hek
    exact hk (mem_map.mpr ⟨e, he, hek⟩)

/-! ## Rows found afterwards -/

variable {k' : K}

theorem of_put {v'} (h : (t.put k v).find? k' = some v') :
    (k' = k ∧ v' = v) ∨ (k' ≠ k ∧ t.find? k' = some v') := by
  rw [find?_put] at h
  split at h
  · exact .inl ⟨‹_›, (Option.some.inj h).symm⟩
  · exact .inr ⟨‹_›, h⟩

theorem find?_put_self : (t.put k v).find? k = some v := (find?_put ..).trans (if_pos rfl)

theorem find?_put_of_ne (h : k' ≠ k) : (t.put k v).find? k' = t.find? k' :=
  (find?_put ..).trans (if_neg h)

theorem find?_put_of_none {v'} (h : t.find? k = none) (h' : t.find? k' = some v') :
    (t.put k v).find? k' = some v' := by
  refine (find?_put_of_ne ?_).trans h'
  rintro rfl
  cases h'.symm.trans h

theorem of_erase (h : (t.erase k).find? k' = some v) : k' ≠ k ∧ t.find? k' = some v := by
  rw [find?_erase] at h
  split at h
  · cases h
  · exact ⟨‹_›, h⟩

theorem of_adjust {f v'} (h : (t.adjust k f).find? k' = some v') :
    ∃ v, t.find? k' = some v ∧ ((k' = k ∧ v' = f v) ∨ (k' ≠ k ∧ v' = v)) := by
  rw [find?_adjust] at h
  split at h
  · rename_i hk
    obtain ⟨v, hv, rfl⟩ := Option.map_eq_some_iff.mp h
    exact ⟨v, hk ▸ hv, .inl ⟨hk, rfl⟩⟩
  · exact ⟨v', h, .inr ⟨‹_›, rfl⟩⟩

theorem of_select {p} (h : (t.select p).find? k = some v) : t.find? k = some v ∧ p k v = true := by
  rw [find?_select] at h
  exact Option.filter_eq_some_iff.mp h

theorem of_filter {p} (h : (t.filter p).find? k = some v) : t.find? k = some v ∧ p k = true := by
  rw [find?_filter] at h
  split at h
  · exact ⟨h, ‹_›⟩
  · cases h

/-! ## Selecting rows of an updated table -/

section Select

variable {t : Table K V} {p : K → V → Bool} {k : K} {v : V}

theorem select_erase : (t.erase k).select p = (t.select p).erase k := by
  simp only [select, erase, filter, Table.mk.injEq, filter_filter]
  exact congrArg (List.filter · t.entries) (funext fun e => Bool.and_comm _ _)

theorem select_put_of_true (h : p k v = true) : (t.put k v).select p = (t.select p).put k v := by
  have he : ((t.erase k).select p).entries = ((t.select p).erase k).entries :=
    congrArg entries select_erase
  simp only [select, put, Table.mk.injEq, filter_cons, h, if_true] at he ⊢
  exact congrArg _ he

theorem select_put_of_false (h : p k v = false) (hk : t.find? k = none) :
    (t.put k v).select p = t.select p := by
  have he : (t.erase k).entries = t.entries := congrArg entries (erase_of_find?_eq_none hk)
  simp only [select, put, Table.mk.injEq, filter_cons, h, he]
  rfl

theorem select_erase_of_false (h : t.find? k = some v) (hp : p k v = false) :
    (t.erase k).select p = t.select p := by
  rw [select_erase, erase_of_find?_eq_none]
  rw [find?_select, h]
  simp [Option.filter, hp]

end Select

/-! ## Views -/

/-- What a function of the rows says about each key, with a default where there is no row. -/
def view {β : Type} (t : Table K V) (f : V → β) (default : β) (k : K) : β :=
  ((t.find? k).map f).getD default

section View

variable {β : Type} {f : V → β} {default : β}

variable {t : Table K V} {k : K} {v : V}

theorem view_of_find? (h : t.find? k = some v) : t.view f default k = f v := by
  rw [view, h]
  rfl

theorem view_of_none (h : t.find? k = none) : t.view f default k = default := by
  rw [view, h]
  rfl

theorem view_put (t : Table K V) (k : K) (v : V) :
    (t.put k v).view f default = update (t.view f default) k (f v) := by
  funext k'
  by_cases h : k' = k
  · have hfind : (t.put k v).find? k = some v := by simp
    rw [h, update_self, view_of_find? hfind]
  · rw [update_of_ne h, view, find?_put, if_neg h, view]

theorem view_erase (t : Table K V) (k : K) :
    (t.erase k).view f default = update (t.view f default) k default := by
  funext k'
  by_cases h : k' = k
  · rw [h, update_self, view_of_none (by simp)]
  · rw [update_of_ne h, view, find?_erase, if_neg h, view]

theorem view_put_same {w} (h : t.find? k = some v) (hw : f w = f v) :
    (t.put k w).view f default = t.view f default := by
  have hv : t.view f default k = f v := view_of_find? h
  rw [view_put, hw, ← hv, update_eq_self]

theorem view_put_new (h : t.find? k = none) (hv : f v = default) :
    (t.put k v).view f default = t.view f default := by
  have hk : t.view f default k = default := view_of_none h
  rw [view_put, hv]
  exact (congrArg (update _ k) hk.symm).trans (update_eq_self _ _)

theorem view_erase_same (h : t.find? k = some v) (hv : f v = default) :
    (t.erase k).view f default = t.view f default := by
  have hk : t.view f default k = default := (view_of_find? h).trans hv
  rw [view_erase]
  exact (congrArg (update _ k) hk.symm).trans (update_eq_self _ _)

end View

/-! ## Number of rows -/

theorem length_put_of_none (h : t.find? k = none) :
    (t.put k v).entries.length = t.entries.length + 1 := by
  have hput : (t.put k v).entries.length = (t.erase k).entries.length + 1 := rfl
  rw [hput, erase_of_find?_eq_none h]

theorem length_put_of_some {w} (h : t.find? k = some w) :
    (t.put k v).entries.length ≤ t.entries.length := by
  have hlt : (t.erase k).entries.length < t.entries.length := by
    refine length_filter_lt_length_iff_exists.mpr ⟨(k, w), find?_eq_some.mp h, ?_⟩
    simp
  exact hlt

theorem length_erase_le (t : Table K V) (k : K) :
    (t.erase k).entries.length ≤ t.entries.length := length_filter_le _ _

omit [DecidableEq K] in
theorem length_select_le (t : Table K V) (p : K → V → Bool) :
    (t.select p).entries.length ≤ t.entries.length := length_filter_le _ _

theorem length_adjust (t : Table K V) (k : K) (f : V → V) :
    (t.adjust k f).entries.length = t.entries.length := length_map _

/-! ## Sums -/

section Sums

variable [AddCommMonoid M] (w : K → V → M)

variable {t : Table K V}

omit [DecidableEq K] in
@[simp] theorem sum_empty : (empty : Table K V).sum w = 0 := rfl

theorem sum_congr {w u : K → V → M} (h : ∀ k v, t.find? k = some v → w k v = u k v) :
    t.sum w = t.sum u := by
  rw [sum, sum]
  congr 1
  exact map_congr_left fun e he => h _ _ (find?_of_mem he)

omit [DecidableEq K] in
@[simp] theorem sum_mapValues (t : Table K V) (f : K → V → V) :
    (t.mapValues f).sum w = t.sum fun k v => w k (f k v) := by
  simp [sum, mapValues, comp_def]

omit [DecidableEq K] in
theorem sum_filter_add_sum_filter_not (t : Table K V) (p : K → Bool) :
    (t.filter p).sum w + (t.filter fun k => !p k).sum w = t.sum w := by
  simp only [sum, filter]
  induction t.entries with
  | nil => simp
  | cons e es ih =>
    cases hp : p e.1 <;> simp only [filter_cons, hp, map_cons, sum_cons, ← ih]
    · simp only [Bool.false_eq_true, if_false, Bool.not_false, if_true, map_cons, sum_cons]
      abel
    · simp only [Bool.not_true, Bool.false_eq_true, if_false, if_true, map_cons, sum_cons]
      abel

omit [DecidableEq K] in
theorem sum_select (t : Table K V) (p : K → V → Bool) :
    (t.select p).sum w = t.sum fun k v => if p k v then w k v else 0 := by
  simp only [sum, select]
  induction t.entries with
  | nil => rfl
  | cons e es ih => cases hp : p e.1 e.2 <;> simp [hp, ih]

variable {t' : Table K V} {k : K} {v : V}

theorem sum_erase (h : t.find? k = some v) : w k v + (t.erase k).sum w = t.sum w := by
  rw [← sum_filter_add_sum_filter_not w t fun k' => decide (k' = k)]
  congr 1
  · -- the rows with key `k` are the one row found there
    have hone : (t.filter fun k' => decide (k' = k)).entries = [(k, v)] := by
      have hmem := find?_eq_some.mp h
      obtain ⟨l₁, l₂, hl⟩ := append_of_mem hmem
      have hnd := t.nodup
      rw [hl, map_append, map_cons, nodup_append, nodup_cons] at hnd
      obtain ⟨-, ⟨hk₂, -⟩, hdis⟩ := hnd
      simp only [filter, hl, filter_append, filter_cons, decide_true, if_true]
      have h₁ : l₁.filter (fun e => decide (e.1 = k)) = [] := by
        refine filter_eq_nil_iff.mpr fun e he hek => ?_
        exact hdis _ (mem_map_of_mem he) k (.head _) (by simpa using hek)
      have h₂ : l₂.filter (fun e => decide (e.1 = k)) = [] := by
        refine filter_eq_nil_iff.mpr fun e he hek => ?_
        have hek : e.1 = k := by simpa using hek
        exact hk₂ (mem_map.mpr ⟨e, he, hek⟩)
      rw [h₁, h₂]
      rfl
    simp [sum, hone]
  · simp [erase, filter, sum]

theorem sum_adjust (h : t.find? k = some v) (f : V → V) :
    w k v + (t.adjust k f).sum w = w k (f v) + t.sum w := by
  have ha : (t.adjust k f).find? k = some (f v) := by simp [h]
  have herase : ((t.adjust k f).erase k).sum w = (t.erase k).sum w := by
    have hcomm : (t.adjust k f).erase k = (t.erase k).adjust k f := by
      simp [adjust, erase, mapValues, filter, filter_map, comp_def]
    rw [hcomm, adjust, sum_mapValues]
    exact sum_congr fun k' v' hk' => by rw [if_neg (of_erase hk').1]
  rw [← sum_erase w h, ← sum_erase w ha, herase]
  exact add_left_comm _ _ _

theorem sum_put {u} (h : t.find? k = some v) : w k v + (t.put k u).sum w = w k u + t.sum w := by
  have hp : (t.put k u).sum w = w k u + (t.erase k).sum w := rfl
  rw [hp, ← sum_erase w h]
  exact add_left_comm _ _ _

theorem sum_put_of_none (h : t.find? k = none) : (t.put k v).sum w = w k v + t.sum w := by
  have hp : (t.put k v).sum w = w k v + (t.erase k).sum w := rfl
  rw [hp, erase_of_find?_eq_none h]

theorem sum_eq_of_find?_eq (h : ∀ k, t.find? k = t'.find? k) : t.sum w = t'.sum w := by
  have hperm : t.entries.Perm t'.entries := by
    rw [perm_ext_iff_of_nodup t.nodup.of_map t'.nodup.of_map]
    intro e
    rw [← find?_eq_some (k := e.1) (v := e.2), ← find?_eq_some (k := e.1) (v := e.2), h]
  exact (hperm.map _).sum_eq

theorem sum_reweigh {w u : K → V → M} (h : t.find? k = some v)
    (hw : ∀ k' v', t.find? k' = some v' → k' ≠ k → u k' v' = w k' v') :
    w k v + t.sum u = u k v + t.sum w := by
  have herase : (t.erase k).sum u = (t.erase k).sum w := by
    refine sum_congr fun k' v' hk' => ?_
    obtain ⟨hne, hk'⟩ := of_erase hk'
    exact hw k' v' hk' hne
  rw [← sum_erase w h, ← sum_erase u h, herase]
  exact add_left_comm _ _ _

end Sums

theorem sum_le_sum {w w' : K → V → ℕ} (h : ∀ k v, t.find? k = some v → w k v ≤ w' k v) :
    t.sum w ≤ t.sum w' :=
  List.sum_le_sum fun _ he => h _ _ (find?_of_mem he)

theorem sum_le_of_contains {U : Type} {u : Table K U} {w : K → ℕ} :
    (t.sum fun k _ => if u.contains k then w k else 0) ≤ u.sum fun k _ => w k := by
  have hsel : (t.sum fun k _ => if u.contains k then w k else 0) =
      (((t.select fun k _ => u.contains k).entries.map Prod.fst).map w).sum := by
    rw [← sum_select (fun k _ => w k) t fun k _ => u.contains k, sum, map_map]
    rfl
  have hall : (u.sum fun k _ => w k) = ((u.entries.map Prod.fst).map w).sum := by
    rw [sum, map_map]
    rfl
  have hsub : (t.select fun k _ => u.contains k).entries.map Prod.fst ⊆ u.entries.map Prod.fst := by
    intro k hk
    obtain ⟨e, he, rfl⟩ := mem_map.mp hk
    obtain ⟨v, hv⟩ := contains_eq_true.mp (mem_filter.mp he).2
    exact mem_map.mpr ⟨_, find?_eq_some.mp hv, rfl⟩
  obtain ⟨l, hl, hsubl⟩ := subperm_of_subset (t.select fun k _ => u.contains k).nodup hsub
  rw [hsel, hall, ← (hl.map w).sum_eq]
  exact (hsubl.map w).sum_le_sum fun _ _ => Nat.zero_le _

end Table

end Cvmfs.Lib
