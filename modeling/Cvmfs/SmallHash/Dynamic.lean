import Cvmfs.Lib.LinearProbing

/-!
# The resizable hash table

`SmallHashDynamic` (smallhash.h): linear probing in a table that `Insert` doubles above a load
of 0.75 and `Erase` halves below 0.25. `K` stands for the keys that differ from the empty key,
with the equivalence `==` that the table compares them by; a bucket with the empty key is
`none`. The result is that the table answers as an association list would.

Capacities are `uint32_t`. The two places where one can overflow are `Init`, from 3221225472
expected entries on, and `Grow`, from a capacity of 2^31 on; the result excludes these.
-/

namespace Cvmfs.SmallHash

open Lib.LinearProbing Option List Nat Buckets

variable {K V : Type} [BEq K]

/-- The hash function and its scaling to a capacity; equal keys have the same hash. -/
structure Hasher (K : Type) [BEq K] where
  scaleHash : Nat → K → Nat
  congr : ∀ capacity a b, (a == b) = true → scaleHash capacity a = scaleHash capacity b

structure SmallHashDynamic (K V : Type) extends Buckets K V where
  initialCapacity : Nat
  size : Nat

namespace SmallHashDynamic

def cleared (capacity initialCapacity : Nat) : SmallHashDynamic K V :=
  ⟨empty capacity, initialCapacity, 0⟩

def init (expectedSize : Nat) : SmallHashDynamic K V :=
  cleared (expectedSize * 4 / 3 % 2 ^ 32) (expectedSize * 4 / 3 % 2 ^ 32)

def thresholdGrow (t : SmallHashDynamic K V) : Nat := t.capacity * 3 / 4

def thresholdShrink (t : SmallHashDynamic K V) : Nat := t.capacity / 4

/-! ## Reading

No answer is a probe that does not end. -/

def doLookup (h : Hasher K) (t : SmallHashDynamic K V) (k : K) : Option (Bool × Nat) :=
  lookup (h.scaleHash t.capacity) t.toBuckets k

def lookupEx (h : Hasher K) (t : SmallHashDynamic K V) (k : K) : Option (Option (K × V)) :=
  (t.doLookup h k).map fun r => if r.1 then t.bucket r.2 else none

def lookup (h : Hasher K) (t : SmallHashDynamic K V) (k : K) : Option (Option V) :=
  (t.lookupEx h k).map (·.map Prod.snd)

def contains (h : Hasher K) (t : SmallHashDynamic K V) (k : K) : Option Bool :=
  (t.doLookup h k).map Prod.fst

/-! ## Writing -/

/-- Knuth's shuffle; `draw i` is the random number of round `i`. -/
def shuffleIndices (draw : Nat → Nat) (n : Nat) : List Nat :=
  ((range (n - 1)).foldl (fun a i => a.swapIfInBounds i (i + draw i % (n - i)))
    (Array.range n)).toList

/-- `Insert` with a given `Grow`. -/
def insertWith (h : Hasher K) (grow : SmallHashDynamic K V → Option (SmallHashDynamic K V))
    (t : SmallHashDynamic K V) (e : K × V) : Option (SmallHashDynamic K V) := do
  let t ← grow t
  let (overwritten, buckets) ← store (h.scaleHash t.capacity) t.toBuckets e
  return { t with toBuckets := buckets, size := t.size + (!overwritten).toNat }

/-- `Migrate`, whose inserts call `Grow` in turn. It stops at its assertion when an entry is
lost. -/
def migrate (h : Hasher K) (grow : SmallHashDynamic K V → Option (SmallHashDynamic K V))
    (draw : Nat → Nat) (newCapacity : Nat) (t : SmallHashDynamic K V) :
    Option (SmallHashDynamic K V) := do
  let indices :=
    if newCapacity < t.capacity then shuffleIndices draw t.capacity else range t.capacity
  let t' ← (indices.filterMap t.bucket).foldlM (insertWith h grow)
    (cleared newCapacity t.initialCapacity)
  if t'.size = t.size then return t' else none

/-- `Grow`, where `depth` bounds how many `Migrate`s may be active at once. -/
def grow (h : Hasher K) (draw : Nat → Nat) : Nat → SmallHashDynamic K V →
    Option (SmallHashDynamic K V)
  | 0, t => if t.thresholdGrow < t.size then none else some t
  | depth + 1, t =>
    if t.thresholdGrow < t.size then
      t.migrate h (grow h draw depth) draw (t.capacity * 2 % 2 ^ 32)
    else some t

def insert (h : Hasher K) (draw : Nat → Nat) (depth : Nat) (t : SmallHashDynamic K V)
    (e : K × V) : Option (SmallHashDynamic K V) :=
  insertWith h (grow h draw depth) t e

def shrink (h : Hasher K) (draw : Nat → Nat) : Nat → SmallHashDynamic K V →
    Option (SmallHashDynamic K V)
  | 0, t => if t.size < t.thresholdShrink ∧ t.initialCapacity ≤ t.capacity / 2 then none else some t
  | depth + 1, t =>
    if t.size < t.thresholdShrink ∧ t.initialCapacity ≤ t.capacity / 2 then
      t.migrate h (grow h draw depth) draw (t.capacity / 2)
    else some t

def erase (h : Hasher K) (draw : Nat → Nat) (depth : Nat) (t : SmallHashDynamic K V) (k : K) :
    Option (Bool × SmallHashDynamic K V) := do
  let (found, buckets) ← remove (h.scaleHash t.capacity) t.toBuckets k
  if found then
    let t ← shrink h draw depth { t with toBuckets := buckets, size := t.size - 1 }
    return (true, t)
  else return (false, t)

def clear (t : SmallHashDynamic K V) : SmallHashDynamic K V :=
  cleared t.initialCapacity t.initialCapacity

end SmallHashDynamic

/-! ## Runs -/

/-- The operations, with the outcome of the shuffling. -/
inductive Op (K V : Type) where
  | insert (key : K) (value : V) (draw : Nat → Nat)
  | erase (key : K) (draw : Nat → Nat)
  | clear

namespace Op

def apply (h : Hasher K) (depth : Nat) (t : SmallHashDynamic K V) :
    Op K V → Option (SmallHashDynamic K V)
  | insert k v draw => t.insert h draw depth (k, v)
  | erase k draw => (t.erase h draw depth k).map Prod.snd
  | clear => some t.clear

def onMap (m : List (K × V)) : Op K V → List (K × V)
  | insert k v _ => put m (k, v)
  | erase k _ => drop m k
  | clear => []

/-- `Grow` does not overflow the capacity. -/
def Fits (t : SmallHashDynamic K V) : Op K V → Prop
  | insert .. => t.thresholdGrow < t.size → t.capacity * 2 < 2 ^ 32
  | _ => True

end Op

def run (h : Hasher K) (depth : Nat) (t : SmallHashDynamic K V) (ops : List (Op K V)) :
    Option (SmallHashDynamic K V) :=
  ops.foldlM (Op.apply h depth) t

def FitsAll (h : Hasher K) (depth : Nat) : SmallHashDynamic K V → List (Op K V) → Prop
  | _, [] => True
  | t, op :: ops => op.Fits t ∧ ∀ t', op.apply h depth t = some t' → FitsAll h depth t' ops

/-! ## Refinement -/

open SmallHashDynamic

/-- The table holds the entries of the association list `m`. -/
structure Refines (h : Hasher K) (t : SmallHashDynamic K V) (m : List (K × V)) : Prop where
  placed : AllPlaced (h.scaleHash t.capacity) t.toBuckets
  perm : t.entries.Perm m
  distinct : m.Pairwise Differ
  size : t.size = m.length
  room : t.size ≤ t.thresholdGrow + 1
  initial : 8 ≤ t.initialCapacity
  capacity : t.initialCapacity ≤ t.capacity

variable {h : Hasher K} {t : SmallHashDynamic K V} {m : List (K × V)}

theorem Refines.exists_empty (hr : Refines h t m) : ∃ b < t.capacity, t.bucket b = none := by
  apply Buckets.exists_empty
  have hroom := hr.room
  have hinitial := hr.initial
  have hcapacity := hr.capacity
  rw [hr.perm.length_eq, ← hr.size]
  unfold thresholdGrow at hroom
  omega

theorem refines_cleared {capacity initialCapacity} (hinitial : 8 ≤ initialCapacity)
    (hcapacity : initialCapacity ≤ capacity) :
    Refines h (cleared capacity initialCapacity : SmallHashDynamic K V) [] where
  placed := nofun
  perm := by simp [entries, cleared, empty]
  distinct := .nil
  size := rfl
  room := zero_le _
  initial := hinitial
  capacity := hcapacity

theorem refines_init {n} (hn : 8 ≤ n) (hcapacity : n * 4 / 3 < 2 ^ 32) :
    Refines h (init n : SmallHashDynamic K V) [] :=
  refines_cleared (by rw [mod_eq_of_lt hcapacity]; omega) (le_refl _)

variable [PartialEquivBEq K]

section

variable (hr : Refines h t m)
include hr

theorem Refines.distinct_entries : t.entries.Pairwise Differ :=
  (hr.perm.pairwise_iff Differ.symm).mpr hr.distinct

theorem Refines.doLookup (k : K) :
    ∃ found b, t.doLookup h k = some (found, b) ∧ found = (get m k).isSome ∧
      (found = true → t.bucket b = get m k) := by
  obtain ⟨z, hz, hempty⟩ := hr.exists_empty
  obtain ⟨d, found, hlook, hstop⟩ := lookup_stops (h.scaleHash t.capacity) t.toBuckets hz hempty k
  refine ⟨found, _, hlook, ?_⟩
  rw [← get_perm hr.perm hr.distinct_entries]
  cases found with
  | false =>
    have hnone := get_eq_none.mpr (hstop.absent (h.congr _) hr.placed)
    exact ⟨by rw [hnone]; rfl, nofun⟩
  | true =>
    obtain ⟨e, he, hek⟩ := hstop.hit rfl
    have hb : (h.scaleHash t.capacity k + d) % t.capacity < t.capacity := mod_lt _ (by omega)
    have hget := (get_eq_some hr.distinct_entries).mpr ⟨mem_entries.mpr ⟨_, hb, he⟩, hek⟩
    rw [hget]
    exact ⟨rfl, fun _ => he⟩

theorem Refines.lookupEx (k : K) : t.lookupEx h k = some (get m k) := by
  obtain ⟨found, b, hlook, hfound, hbucket⟩ := hr.doLookup k
  rw [SmallHashDynamic.lookupEx, hlook, map_some]
  cases found with
  | false =>
    rw [eq_comm, isSome_eq_false_iff, isNone_iff_eq_none] at hfound
    rw [hfound]
    rfl
  | true => rw [if_pos rfl, hbucket rfl]

theorem Refines.contains (k : K) : t.contains h k = some (get m k).isSome := by
  obtain ⟨found, b, hlook, hfound, -⟩ := hr.doLookup k
  rw [SmallHashDynamic.contains, hlook, map_some, hfound]

/-! ## The operations refine those of the list -/

theorem Refines.insertWith {grow} (hgrow : grow t = some t)
    (hroom : t.size ≤ t.thresholdGrow) (e : K × V) :
    ∃ t', insertWith h grow t e = some t' ∧ Refines h t' (put m e) ∧
      t'.capacity = t.capacity ∧ t'.size ≤ t.size + 1 := by
  obtain ⟨z, hz, hempty⟩ := hr.exists_empty
  obtain ⟨found, buckets, hstore, hcap, hplaced, hperm, hlen⟩ :=
    store_spec (h.congr _) hr.placed hr.distinct_entries hz hempty e
  have hentries : buckets.entries.Perm (put m e) := hperm.trans (put_perm hr.perm e)
  have hsize : t.size + (!found).toNat = (put m e).length := by
    rw [← hentries.length_eq, hlen, hr.perm.length_eq, hr.size]
  have hone : t.size + (!found).toNat ≤ t.size + 1 := Nat.add_le_add_left (Bool.toNat_le _) _
  refine ⟨{ t with toBuckets := buckets, size := t.size + (!found).toNat }, ?_, ?_, hcap, hone⟩
  · simp only [SmallHashDynamic.insertWith, hgrow, bind_eq_bind, bind_some, hstore]
    rfl
  refine ⟨?_, hentries, distinct_put hr.distinct e, hsize, ?_, hr.initial, ?_⟩
  · rw [hcap]
    exact hplaced
  · rw [thresholdGrow, hcap]
    exact Nat.le_trans hone (Nat.add_le_add_right hroom 1)
  · rw [hcap]
    exact hr.capacity

end

variable (draw : Nat → Nat) (depth : Nat)

theorem Refines.foldlM_insertWith (hr : Refines h t m) (l : List (K × V))
    (hroom : t.size + l.length ≤ t.thresholdGrow + 1) (hdistinct : (l ++ m).Pairwise Differ) :
    ∃ t' m', l.foldlM (SmallHashDynamic.insertWith h (grow h draw depth)) t = some t' ∧
      Refines h t' m' ∧ m'.Perm (l ++ m) ∧ t'.capacity = t.capacity := by
  induction l generalizing t m with
  | nil => exact ⟨t, m, rfl, hr, .refl _, rfl⟩
  | cons e l ih =>
    rw [length_cons] at hroom
    have hfits : t.size ≤ t.thresholdGrow := by omega
    have hgrow : grow h draw depth t = some t := by
      cases depth <;> exact if_neg (not_lt.mpr hfits)
    obtain ⟨s, hs, hrs, hcap, hsize⟩ := hr.insertWith hgrow hfits e
    obtain ⟨hl, hrest⟩ := pairwise_cons.mp hdistinct
    have hput : put m e = e :: m := by
      rw [put, drop_eq_self fun f hf => Differ.symm (hl f (mem_append_right _ hf))]
    rw [hput] at hrs
    have hperm : (l ++ e :: m).Perm (e :: (l ++ m)) := perm_middle
    obtain ⟨t', m', hrun, hr', hm', hcap'⟩ := ih hrs
      (by rw [thresholdGrow, hcap, ← thresholdGrow]; omega)
      ((hperm.pairwise_iff Differ.symm).mpr hdistinct)
    refine ⟨t', m', ?_, hr', hm'.trans hperm, hcap'.trans hcap⟩
    rw [foldlM_cons, hs]
    exact hrun

omit [BEq K] [PartialEquivBEq K] in
theorem shuffleIndices_perm (draw : Nat → Nat) (n : Nat) :
    (shuffleIndices draw n).Perm (range n) := by
  have hrounds : ∀ (l : List Nat) (a : Array Nat),
      (l.foldl (fun a i => a.swapIfInBounds i (i + draw i % (n - i))) a).Perm a := by
    intro l
    induction l with
    | nil => exact fun a => .refl a
    | cons i l ih =>
      intro a
      refine (ih _).trans ?_
      dsimp only [Array.swapIfInBounds]
      split
      · split
        · exact Array.swap_perm ..
        · exact .refl a
      · exact .refl a
  have h := (hrounds (range (n - 1)) (Array.range n)).toList
  rwa [Array.toList_range] at h

section

variable (hr : Refines h t m)
include hr

theorem Refines.migrate {newCapacity} (hroom : t.size ≤ newCapacity * 3 / 4)
    (hcap : t.initialCapacity ≤ newCapacity) :
    ∃ t', t.migrate h (grow h draw depth) draw newCapacity = some t' ∧ Refines h t' m ∧
      t'.capacity = newCapacity := by
  obtain ⟨l, hl, hindices⟩ : ∃ l, l.Perm m ∧ (if newCapacity < t.capacity then
      shuffleIndices draw t.capacity else range t.capacity).filterMap t.bucket = l := by
    refine ⟨_, Perm.trans (Perm.filterMap t.bucket ?_) hr.perm, rfl⟩
    split
    · exact shuffleIndices_perm draw t.capacity
    · exact .refl _
  have hsize := hr.size.trans hl.length_eq.symm
  obtain ⟨t', m', hrun, hr', hm', hcap'⟩ :=
    (refines_cleared (h := h) (V := V) hr.initial hcap).foldlM_insertWith draw depth l
      (by rw [← hsize]; exact (zero_add t.size).symm ▸ le_succ_of_le hroom)
      (by rw [append_nil]; exact (hl.pairwise_iff Differ.symm).mpr hr.distinct)
  rw [append_nil] at hm'
  have hm := hm'.trans hl
  have hsize' : t'.size = t.size := hr'.size.trans (hm.length_eq.trans hr.size.symm)
  refine ⟨t', ?_, ⟨hr'.placed, hr'.perm.trans hm, hr.distinct, hsize'.trans hr.size, hr'.room,
    hr'.initial, hr'.capacity⟩, hcap'⟩
  simp only [SmallHashDynamic.migrate, hindices, hrun, bind_eq_bind, bind_some, hsize', if_true]
  rfl

theorem Refines.grow (hfits : t.thresholdGrow < t.size → t.capacity * 2 < 2 ^ 32) :
    ∃ t', grow h draw (depth + 1) t = some t' ∧ Refines h t' m ∧ t'.size ≤ t'.thresholdGrow := by
  by_cases hgrow : t.thresholdGrow < t.size
  · have hroom := hr.room
    have hinitial := hr.initial
    have hcapacity := hr.capacity
    have hdouble : t.size ≤ t.capacity * 2 * 3 / 4 := by
      unfold thresholdGrow at hroom
      omega
    obtain ⟨t', hmigrate, hr', hcap⟩ := hr.migrate draw depth hdouble (by omega)
    refine ⟨t', ?_, hr', ?_⟩
    · rw [SmallHashDynamic.grow, if_pos hgrow, mod_eq_of_lt (hfits hgrow), hmigrate]
    · rwa [hr'.size, ← hr.size, thresholdGrow, hcap]
  · exact ⟨t, if_neg hgrow, hr, not_lt.mp hgrow⟩

theorem Refines.insert (e : K × V) (hfits : t.thresholdGrow < t.size → t.capacity * 2 < 2 ^ 32) :
    ∃ t', t.insert h draw (depth + 1) e = some t' ∧ Refines h t' (put m e) := by
  obtain ⟨s, hgrow, hrs, hroom⟩ := hr.grow draw depth hfits
  obtain ⟨t', hinsert, hr', -⟩ := hrs.insertWith (show some s = some s from rfl) hroom e
  refine ⟨t', ?_, hr'⟩
  simp only [SmallHashDynamic.insertWith, bind_eq_bind, bind_some] at hinsert
  simp only [SmallHashDynamic.insert, SmallHashDynamic.insertWith, hgrow, bind_eq_bind, bind_some,
    hinsert]

theorem Refines.shrink : ∃ t', shrink h draw (depth + 1) t = some t' ∧ Refines h t' m := by
  by_cases hshrink : t.size < t.thresholdShrink ∧ t.initialCapacity ≤ t.capacity / 2
  · have hsmall := hshrink.1
    have hhalf : t.size ≤ t.capacity / 2 * 3 / 4 := by
      unfold thresholdShrink at hsmall
      omega
    obtain ⟨t', hmigrate, hr', -⟩ := hr.migrate draw depth hhalf hshrink.2
    exact ⟨t', (if_pos hshrink).trans hmigrate, hr'⟩
  · exact ⟨t, if_neg hshrink, hr⟩

theorem Refines.erase (k : K) :
    ∃ found t', t.erase h draw (depth + 1) k = some (found, t') ∧ Refines h t' (drop m k) := by
  obtain ⟨z, hz, hempty⟩ := hr.exists_empty
  obtain ⟨found, buckets, hremove, hcap, hplaced, hperm, hlen⟩ :=
    remove_spec (h.congr _) hr.placed hr.distinct_entries hz hempty k
  have hentries : buckets.entries.Perm (drop m k) := hperm.trans (hr.perm.filter _)
  have hroom := hr.room
  rw [hr.perm.length_eq, ← hr.size, hentries.length_eq] at hlen
  have hs : Refines h { t with toBuckets := buckets, size := t.size - found.toNat } (drop m k) := by
    refine ⟨?_, hentries, distinct_drop hr.distinct k, ?_, ?_, hr.initial, ?_⟩
    · rw [hcap]
      exact hplaced
    · exact hlen ▸ Nat.add_sub_cancel ..
    · rw [thresholdGrow, hcap]
      exact Nat.le_trans (Nat.sub_le ..) hroom
    · rw [hcap]
      exact hr.capacity
  simp only [SmallHashDynamic.erase, hremove, bind_eq_bind, bind_some]
  cases found with
  | false =>
    have hkeep : drop m k = m := filter_sublist.eq_of_length (hlen.symm.trans hr.size)
    exact ⟨false, t, rfl, hkeep.symm ▸ hr⟩
  | true =>
    obtain ⟨t', hshrink, hr'⟩ := hs.shrink draw depth
    refine ⟨true, t', ?_, hr'⟩
    rw [if_pos rfl]
    exact (congrArg (bind · _) hshrink).trans rfl

end

variable {draw depth}

theorem Refines.apply (hr : Refines h t m) (op : Op K V) (hfits : op.Fits t) :
    ∃ t', op.apply h (depth + 1) t = some t' ∧ Refines h t' (op.onMap m) := by
  cases op with
  | insert k v draw => exact hr.insert draw depth (k, v) hfits
  | erase k draw =>
    obtain ⟨found, t', herase, hr'⟩ := hr.erase draw depth k
    exact ⟨t', congrArg (Option.map Prod.snd) herase, hr'⟩
  | clear => exact ⟨t.clear, rfl, refines_cleared hr.initial (le_refl _)⟩

theorem Refines.run (hr : Refines h t m) {ops} (hfits : FitsAll h (depth + 1) t ops) :
    ∃ t', run h (depth + 1) t ops = some t' ∧ Refines h t' (ops.foldl Op.onMap m) := by
  induction ops generalizing t m with
  | nil => exact ⟨t, rfl, hr⟩
  | cons op ops ih =>
    obtain ⟨s, hs, hrs⟩ := hr.apply op hfits.1
    obtain ⟨t', hrun, hr'⟩ := ih hrs (hfits.2 s hs)
    refine ⟨t', ?_, hr'⟩
    rw [SmallHash.run, foldlM_cons, hs]
    exact hrun

/-! ## The table is a finite map -/

/-- After `Init` and any operations that overflow no capacity the table answers as the
association list. Every operation returns although `Grow` and `Shrink` are given `depth + 1`
levels of `Migrate`, also for `depth = 0`: no `Migrate` is nested, none fails its assertion and
every probe ends. -/
theorem smallHash_refines_map (h : Hasher K) (depth : Nat) {n : Nat} (hn : 8 ≤ n)
    (hcapacity : n * 4 / 3 < 2 ^ 32) (ops : List (Op K V))
    (hfits : FitsAll h (depth + 1) (init n) ops) : ∃ t, run h (depth + 1) (init n) ops = some t ∧
      (∀ k, t.lookupEx h k = some (get (ops.foldl Op.onMap []) k) ∧
        t.lookup h k = some ((get (ops.foldl Op.onMap []) k).map Prod.snd) ∧
        t.contains h k = some (get (ops.foldl Op.onMap []) k).isSome) ∧
      t.size = (ops.foldl Op.onMap []).length ∧ (ops.foldl Op.onMap []).Pairwise Differ ∧
      ∃ b < t.capacity, t.bucket b = none := by
  obtain ⟨t, hrun, hr⟩ := (refines_init hn hcapacity).run hfits
  refine ⟨t, hrun, fun k => ⟨hr.lookupEx k, ?_, hr.contains k⟩, hr.size, hr.distinct,
    hr.exists_empty⟩
  rw [SmallHashDynamic.lookup, hr.lookupEx, map_some]

/-- Natural numbers as their own hash. -/
def identityHasher : Hasher Nat := ⟨fun _ k => k, fun _ _ _ h => eq_of_beq h⟩

theorem smallHash_refines_map_twoKeys :
    ∃ t, run identityHasher 1 (init 8) [.insert 1 10 id, .insert 11 20 id, .erase 1 id] = some t ∧
      t.lookup identityHasher 11 = some (some 20) ∧ t.size = 1 := by
  obtain ⟨t, hrun, hget, hsize, -⟩ := smallHash_refines_map identityHasher 0 (n := 8) (by decide)
    (by decide) [.insert 1 10 id, .insert 11 20 id, .erase 1 id]
    ⟨nofun, fun _ h₁ => by cases h₁; exact ⟨nofun, fun _ h₂ => ⟨trivial, fun _ _ => trivial⟩⟩⟩
  exact ⟨t, hrun, (hget 11).2.1, hsize⟩

/-- `Init` for 3221225472 entries computes the capacity 2^32, which is 0 as `uint32_t`: the
first `Insert` does not return. -/
theorem smallHash_init_overflows :
    run identityHasher 1 (init 3221225472) [.insert 1 10 id] = none := by
  rfl

end Cvmfs.SmallHash
