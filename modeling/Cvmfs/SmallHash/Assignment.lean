import Cvmfs.SmallHash.Dynamic

/-!
# Assigning one table to another

`operator=` of `SmallHashDynamic` inserts the entries of the source into whatever the target
holds; it does not clear the target. `FdRefcountMgr::AssignFrom` relies on it for both of its
tables.
-/

namespace Cvmfs.SmallHash

open Lib.LinearProbing SmallHashDynamic

variable {K V : Type} [BEq K]

/-- The inserts of `CopyFrom`. -/
def copyFrom (draw : Nat → Nat) (source : SmallHashDynamic K V) : List (Op K V) :=
  ((shuffleIndices draw source.capacity).filterMap source.bucket).map
    fun e => .insert e.1 e.2 draw

/-- `operator=` between two different objects. -/
def assign (h : Hasher K) (draw : Nat → Nat) (depth : Nat) (source target : SmallHashDynamic K V) :
    Option (SmallHashDynamic K V) :=
  run h depth target (copyFrom draw source)

/-- A table after `Init` and operations that overflow no capacity. -/
def Reachable (h : Hasher K) (depth : Nat) (t : SmallHashDynamic K V) : Prop :=
  ∃ n ops, 8 ≤ n ∧ n * 4 / 3 < 2 ^ 32 ∧ FitsAll h depth (init n) ops ∧
    run h depth (init n) ops = some t

variable [PartialEquivBEq K]

theorem Reachable.refines {h : Hasher K} {depth : Nat} {t : SmallHashDynamic K V}
    (hr : Reachable h (depth + 1) t) : ∃ m, Refines h t m := by
  obtain ⟨n, ops, hn, hcapacity, hfits, hrun⟩ := hr
  obtain ⟨t', hrun', hr'⟩ := (refines_init hn hcapacity).run hfits
  rw [hrun] at hrun'
  cases hrun'
  exact ⟨_, hr'⟩

omit [PartialEquivBEq K] in
theorem foldl_onMap_copyFrom (draw : Nat → Nat) (source : SmallHashDynamic K V)
    (m : List (K × V)) : (copyFrom draw source).foldl Op.onMap m =
      ((shuffleIndices draw source.capacity).filterMap source.bucket).foldl put m := by
  rw [copyFrom, List.foldl_map]
  rfl

/-- The assignment copies the source exactly when the target held no other key before. -/
theorem assign_copies_iff (h : Hasher K) (draw : Nat → Nat) (depth : Nat)
    {source target : SmallHashDynamic K V} (hsource : Reachable h (depth + 1) source)
    (htarget : Reachable h (depth + 1) target)
    (hfits : FitsAll h (depth + 1) target (copyFrom draw source)) :
    ∃ t, assign h draw (depth + 1) source target = some t ∧
      ((∀ k, t.lookupEx h k = source.lookupEx h k) ↔
        ∀ k, target.contains h k = some true → source.contains h k = some true) := by
  obtain ⟨ms, hs⟩ := hsource.refines
  obtain ⟨mt, ht⟩ := htarget.refines
  obtain ⟨t, hrun, hr⟩ := ht.run hfits
  rw [foldl_onMap_copyFrom] at hr
  have hperm : ((shuffleIndices draw source.capacity).filterMap source.bucket).Perm ms :=
    ((shuffleIndices_perm draw source.capacity).filterMap source.bucket).trans hs.perm
  have hdistinct := (hperm.pairwise_iff Differ.symm).mpr hs.distinct
  refine ⟨t, hrun, forall_congr' fun k => ?_⟩
  rw [hr.lookupEx, hs.lookupEx, ht.contains, hs.contains, get_foldl_put hdistinct,
    get_perm hperm hdistinct]
  cases get ms k <;> cases get mt k <;> simp

theorem assign_copies_iff_sameKey :
    ∃ source target t, run identityHasher 1 (init 8) [.insert 1 10 id] = some source ∧
      run identityHasher 1 (init 8) [.insert 1 20 id] = some target ∧
      assign identityHasher id 1 source target = some t ∧
      ∀ k, t.lookupEx identityHasher k = source.lookupEx identityHasher k := by
  have hfits : ∀ v : Nat, FitsAll identityHasher 1 (init 8) [.insert 1 v id] :=
    fun _ => ⟨nofun, fun _ _ => trivial⟩
  have hinit := refines_init (V := Nat) (h := identityHasher) (n := 8) (by decide) (by decide)
  obtain ⟨source, hsource, hs⟩ := hinit.run (hfits 10)
  obtain ⟨target, htarget, ht⟩ := hinit.run (hfits 20)
  have hcopy : FitsAll identityHasher 1 target (copyFrom id source) := by
    cases hsource
    cases htarget
    exact ⟨nofun, fun _ _ => trivial⟩
  obtain ⟨t, hassign, hiff⟩ := assign_copies_iff identityHasher id 0
    ⟨8, _, by decide, by decide, hfits 10, hsource⟩ ⟨8, _, by decide, by decide, hfits 20, htarget⟩
    hcopy
  refine ⟨source, target, t, hsource, htarget, hassign, hiff.mpr fun k hk => ?_⟩
  rw [ht.contains] at hk
  rw [hs.contains]
  simpa [Lib.LinearProbing.get, Op.onMap, put, drop] using hk

/-- An empty table assigned to one with an entry leaves that entry. -/
theorem assign_keeps_old_entries :
    ((run identityHasher 1 (init 8) [.insert 1 10 id]).bind fun target =>
      (assign identityHasher id 1 (init 8) target).bind fun t => t.lookup identityHasher 1) =
      some (some 10) ∧ (init 8 : SmallHashDynamic Nat Nat).lookup identityHasher 1 = some none := by
  exact ⟨rfl, rfl⟩

end Cvmfs.SmallHash
