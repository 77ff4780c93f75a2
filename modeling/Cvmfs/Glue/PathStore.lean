import Cvmfs.Lib.Table

/-! # The path store

Paths are stored as chains of names: each entry has the name of its last component and leads to
the entry of its parent. An entry counts its children and the insertions of its own path. The
keys are the MD5 hashes of the paths, taken to be free of collisions: so a path stands for its
hash, and the hash of the parent that an entry stores is the one of the parent path. -/

namespace Cvmfs.Glue

open Lib (Table)
open Function Lib.Table Nat

/-- The names of a path, the last component first; the root has none. -/
abbrev Path := List String

structure PathInfo where
  refcnt : Nat := 1
  name : String := ""
  deriving DecidableEq

inductive TrackerFault where
  /-- PANIC "inode tracker refcount mismatch" -/
  | refcountMismatch
  /-- PANIC "inode tracker ref map and path map out of sync" -/
  | outOfSync
  /-- assertion in `FindPath` and `FindDentry` -/
  | missingPath
  /-- assertion in `PathStore::Lookup` -/
  | missingParent
  deriving DecidableEq

namespace PathStore

def insert : Path → Table Path PathInfo → Table Path PathInfo
  | [], store =>
    match store.find? [] with
    | some info => store.put [] { info with refcnt := info.refcnt + 1 }
    | none => store.put [] {}
  | name :: parent, store =>
    match store.find? (name :: parent) with
    | some info => store.put (name :: parent) { info with refcnt := info.refcnt + 1 }
    | none => (insert parent store).put (name :: parent) { name }

def lookup (store : Table Path PathInfo) : Path → Except TrackerFault (Option Path)
  | [] => .ok ((store.find? []).map fun _ => [])
  | name :: parent =>
    match store.find? (name :: parent) with
    | none => .ok none
    | some info =>
      match lookup store parent with
      | .ok (some path) => .ok (some (info.name :: path))
      | .ok none => .error .missingParent
      | .error fault => .error fault

def erase : Path → Table Path PathInfo → Table Path PathInfo
  | [], store =>
    match store.find? [] with
    | none => store
    | some info =>
      if info.refcnt - 1 = 0 then store.erase []
      else store.put [] { info with refcnt := info.refcnt - 1 }
  | name :: parent, store =>
    match store.find? (name :: parent) with
    | none => store
    | some info =>
      if info.refcnt - 1 = 0 then erase parent (store.erase (name :: parent))
      else store.put (name :: parent) { info with refcnt := info.refcnt - 1 }

/-! ## References -/

variable {store : Table Path PathInfo} {held : Path → Nat}

/-- One for a child of `q`. -/
def child (q : Path) : Path → Nat
  | [] => 0
  | _ :: parent => if parent = q then 1 else 0

def children (store : Table Path PathInfo) (q : Path) : Nat := store.sum fun p _ => child q p

/-- The entries count the references that are held on a path and those of its children; an entry
without references is gone. -/
structure Sound (store : Table Path PathInfo) (held : Path → Nat) : Prop where
  refcnt : ∀ q info, store.find? q = some info → info.refcnt = held q + children store q
  present : ∀ q, 0 < held q + children store q → ∃ info, store.find? q = some info
  positive : ∀ q info, store.find? q = some info → 0 < info.refcnt
  name : ∀ n q info, store.find? (n :: q) = some info → info.name = n

variable {p : Path} {info : PathInfo}

theorem children_put (h : store.find? p = some info) (info' : PathInfo) (q : Path) :
    children (store.put p info') q = children store q := by
  have hsum := sum_put (fun p _ => child q p) (u := info') h
  simp only [children]
  omega

theorem children_put_new (h : store.find? p = none) (info : PathInfo) (q : Path) :
    children (store.put p info) q = child q p + children store q :=
  sum_put_of_none (fun p _ => child q p) h

theorem children_erase (h : store.find? p = some info) (q : Path) :
    child q p + children (store.erase p) q = children store q :=
  sum_erase (fun p _ => child q p) h

namespace Sound

theorem empty : Sound .empty fun _ => 0 :=
  ⟨nofun, fun _ h => absurd h (lt_irrefl 0), nofun, nofun⟩

section

variable (h : Sound store held)
include h

theorem eq_zero {q} (hq : store.find? q = none) : held q = 0 ∧ children store q = 0 := by
  by_contra hne
  obtain ⟨info, hinfo⟩ := h.present q (by omega)
  rw [hq] at hinfo
  cases hinfo

variable {info : PathInfo}

theorem parent {n q} (hq : store.find? (n :: q) = some info) :
    ∃ info', store.find? q = some info' := by
  refine h.present q ?_
  have := children_erase hq q
  rw [child, if_pos rfl] at this
  omega

variable {p : Path}

theorem put (hp : store.find? p = some info) {refcnt n}
    (hcount : refcnt = n + children store p) (hpos : 0 < refcnt) :
    Sound (store.put p { info with refcnt }) (update held p n) := by
  refine ⟨fun q info' hq => ?_, fun q hq => ?_, fun q info' hq => ?_, fun m q info' hq => ?_⟩
  · rw [children_put hp, update_apply]
    rcases of_put hq with ⟨rfl, rfl⟩ | ⟨hne, hq⟩
    · rw [if_pos rfl]
      exact hcount
    · rw [if_neg hne]
      exact h.refcnt q info' hq
  · rw [find?_put]
    split
    · exact ⟨_, rfl⟩
    next hne =>
      rw [children_put hp, update_apply, if_neg hne] at hq
      exact h.present q hq
  · rcases of_put hq with ⟨-, rfl⟩ | ⟨-, hq⟩
    · exact hpos
    · exact h.positive q info' hq
  · rcases of_put hq with ⟨rfl, rfl⟩ | ⟨-, hq⟩
    · exact h.name m q info hp
    · exact h.name m q info' hq

theorem add {held'} (hp : store.find? p = none) (hcount : info.refcnt = 1)
    (hname : ∀ n q, p = n :: q → info.name = n) (hself : held' p = 1)
    (hother : ∀ q, q ≠ p → held' q + child q p = held q) : Sound (store.put p info) held' := by
  have hchildren := (h.eq_zero hp).2
  have hchild : child p p = 0 := by
    cases p with
    | nil => rfl
    | cons n p => exact if_neg (List.ne_cons_self)
  refine ⟨fun q info' hq => ?_, fun q hq => ?_, fun q info' hq => ?_, fun m q info' hq => ?_⟩
  · rw [children_put_new hp]
    rcases of_put hq with ⟨rfl, rfl⟩ | ⟨hne, hq⟩
    · omega
    · have := h.refcnt q info' hq
      have := hother q hne
      omega
  · rw [find?_put]
    split
    · exact ⟨_, rfl⟩
    next hne =>
      rw [children_put_new hp] at hq
      have := hother q hne
      exact h.present q (by omega)
  · rcases of_put hq with ⟨-, rfl⟩ | ⟨-, hq⟩
    · omega
    · exact h.positive q info' hq
  · rcases of_put hq with ⟨heq, rfl⟩ | ⟨-, hq⟩
    · exact hname m q heq.symm
    · exact h.name m q info' hq

theorem remove {held'} (hp : store.find? p = some info)
    (hcount : info.refcnt = 1) (hheld : held p = 1) (hself : held' p = 0)
    (hother : ∀ q, q ≠ p → held' q = held q + child q p) : Sound (store.erase p) held' := by
  have hchildren : children (store.erase p) p = 0 := by
    have := children_erase hp p
    have := h.refcnt p info hp
    omega
  refine ⟨fun q info' hq => ?_, fun q hq => ?_, fun q info' hq => ?_, fun m q info' hq => ?_⟩
  · obtain ⟨hne, hq⟩ := of_erase hq
    have := h.refcnt q info' hq
    have := hother q hne
    have := children_erase hp q
    omega
  · rw [find?_erase]
    split
    next heq =>
      subst heq
      omega
    next hne =>
      have := hother q hne
      have := children_erase hp q
      exact h.present q (by omega)
  · exact h.positive q info' (of_erase hq).2
  · exact h.name m q info' (of_erase hq).2

end

end Sound

theorem find?_insert_of_lt {q} (hlt : p.length < q.length) :
    (insert p store).find? q = store.find? q := by
  induction p with
  | nil =>
    unfold insert
    have hne : q ≠ [] := by
      rintro rfl
      cases hlt
    split <;> exact (find?_put ..).trans (if_neg hne)
  | cons n p ih =>
    unfold insert
    have hne : q ≠ n :: p := by
      rintro rfl
      exact lt_irrefl _ hlt
    split
    · exact (find?_put ..).trans (if_neg hne)
    · rw [find?_put, if_neg hne]
      exact ih (by simp only [List.length_cons] at hlt; omega)

theorem insert_of_find? (h : store.find? p = some info) :
    insert p store = store.put p { info with refcnt := info.refcnt + 1 } := by
  cases p with
  | nil | cons n p => rw [insert, h]

theorem Sound.insert (h : Sound store held) (p : Path) :
    Sound (insert p store) (update held p (held p + 1)) := by
  induction p with
  | nil =>
    cases hp : store.find? [] with
    | some info =>
      rw [insert_of_find? hp]
      have := h.refcnt [] info hp
      exact h.put hp (by omega) (succ_pos _)
    | none =>
      rw [PathStore.insert, hp]
      refine h.add hp rfl nofun ?_ fun q hq => ?_
      · rw [update_self, (h.eq_zero hp).1]
      · rw [update_of_ne hq]
        rfl
  | cons n p ih =>
    cases hp : store.find? (n :: p) with
    | some info =>
      rw [insert_of_find? hp]
      have := h.refcnt _ info hp
      exact h.put hp (by omega) (succ_pos _)
    | none =>
      rw [PathStore.insert, hp]
      have hnone : (PathStore.insert p store).find? (n :: p) = none := by
        rw [find?_insert_of_lt (lt_succ_self _)]
        exact hp
      refine ih.add hnone rfl ?_ ?_ fun q hq => ?_
      · intro m q heq
        cases heq
        rfl
      · rw [update_self, (h.eq_zero hp).1]
      rw [update_of_ne hq, child, update_apply]
      by_cases heq : p = q
      · subst heq
        rw [if_pos rfl, if_pos rfl]
      · rw [if_neg heq, if_neg (Ne.symm heq)]
        rfl

theorem Sound.erase (h : Sound store held) (hp : 0 < held p) :
    Sound (erase p store) (update held p (held p - 1)) := by
  induction p generalizing store held with
  | nil =>
    obtain ⟨info, hinfo⟩ := h.present [] (by omega)
    have hcount := h.refcnt [] info hinfo
    rw [PathStore.erase, hinfo]
    dsimp only
    split
    · refine h.remove hinfo (by omega) (by omega) ?_ fun q hq => ?_
      · rw [update_self]
        omega
      · rw [update_of_ne hq]
        rfl
    · exact h.put hinfo (by omega) (by omega)
  | cons n p ih =>
    obtain ⟨info, hinfo⟩ := h.present (n :: p) (by omega)
    have hcount := h.refcnt _ info hinfo
    rw [PathStore.erase, hinfo]
    dsimp only
    split
    next hzero =>
      have hne : p ≠ n :: p := List.ne_cons_self
      have hremoved : Sound (store.erase (n :: p))
          (update (update held (n :: p) 0) p (held p + 1)) := by
        refine h.remove hinfo (by omega) (by omega) ?_ fun q hq => ?_
        · rw [update_of_ne hne.symm, update_self]
        rw [child, update_apply, update_of_ne hq]
        by_cases heq : p = q
        · subst heq
          rw [if_pos rfl, if_pos rfl]
        · rw [if_neg heq, if_neg (Ne.symm heq)]
          rfl
      have hparent := ih hremoved (by rw [update_self]; exact Nat.succ_pos _)
      rw [update_self, update_idem, Nat.add_sub_cancel] at hparent
      have hheld : held (n :: p) - 1 = 0 := by omega
      rw [hheld]
      have hself : update (update held (n :: p) 0) p (held p) = update held (n :: p) 0 := by
        refine update_eq_iff.2 ⟨?_, fun _ _ => rfl⟩
        rw [update_of_ne hne]
      rwa [hself] at hparent
    · exact h.put hinfo (by omega) (by omega)

theorem Sound.lookup (h : Sound store held) (hp : store.find? p = some info) :
    lookup store p = .ok (some p) := by
  induction p generalizing info with
  | nil => rw [PathStore.lookup, hp]; rfl
  | cons n p ih =>
    obtain ⟨info', hparent⟩ := h.parent hp
    rw [PathStore.lookup, hp]
    dsimp only
    rw [ih hparent, h.name n p info hp]

end PathStore

end Cvmfs.Glue
