import Mathlib.Algebra.Order.Ring.Int
import Mathlib.Data.List.Basic

/-!
# Linear probing

An open-addressing table has `capacity` buckets, each empty or with one entry, and a home
bucket for every key. A probe walks from the home bucket to the first bucket that is empty or
holds the key; a removal empties a bucket and stores the entries of the run behind it anew.
Keys are compared by an equivalence `==`.

A position is a natural number that stands for a bucket modulo the capacity, so that a walk is
a range of positions also where it wraps around.
-/

namespace Cvmfs.Lib.LinearProbing

open List Nat Option Bool

variable {K V : Type}

/-! ## Buckets -/

structure Buckets (K V : Type) where
  capacity : Nat
  bucket : Nat → Option (K × V)

namespace Buckets

def empty (capacity : Nat) : Buckets K V := ⟨capacity, fun _ => none⟩

def pos (t : Buckets K V) (i : Nat) : Option (K × V) := t.bucket (i % t.capacity)

def set (t : Buckets K V) (b : Nat) (x : Option (K × V)) : Buckets K V :=
  { t with bucket := Function.update t.bucket b x }

def entries (t : Buckets K V) : List (K × V) := (range t.capacity).filterMap t.bucket

def others (t : Buckets K V) (b : Nat) : List (K × V) :=
  ((range t.capacity).erase b).filterMap t.bucket

section

variable (t : Buckets K V)
include t

@[simp] theorem capacity_set (b : Nat) (x : Option (K × V)) :
    (t.set b x).capacity = t.capacity := rfl

@[simp] theorem bucket_set_self (b : Nat) (x : Option (K × V)) :
    (t.set b x).bucket b = x := Function.update_self ..

variable {b : Nat}

theorem bucket_set_ne {p} (x : Option (K × V)) (h : p ≠ b) :
    (t.set b x).bucket p = t.bucket p := Function.update_of_ne h ..

theorem isSome_fill (b : Nat) (e : K × V) {i} (h : (t.pos i).isSome) :
    ((t.set b (some e)).pos i).isSome := by
  by_cases hb : i % t.capacity = b
  · simp [pos, hb]
  · rwa [pos, capacity_set, t.bucket_set_ne _ hb]

omit t in
theorem mem_entries {t : Buckets K V} {e : K × V} :
    e ∈ t.entries ↔ ∃ b < t.capacity, t.bucket b = some e := by
  simp [entries]

theorem entries_perm (hb : b < t.capacity) :
    t.entries.Perm ((t.bucket b).toList ++ t.others b) := by
  have h := (perm_cons_erase (mem_range.mpr hb)).filterMap t.bucket
  rw [filterMap_cons] at h
  cases hx : t.bucket b with
  | none | some e => simpa [hx, entries, others] using h

@[simp] theorem others_set (b : Nat) (x : Option (K × V)) : (t.set b x).others b = t.others b := by
  apply filterMap_congr
  intro p hp
  exact t.bucket_set_ne x ((nodup_range.mem_erase_iff.mp hp).1)

theorem entries_set_perm (hb : b < t.capacity) (x : Option (K × V)) :
    (t.set b x).entries.Perm (x.toList ++ t.others b) := by
  have h := (t.set b x).entries_perm hb
  rwa [bucket_set_self, others_set] at h

end

theorem exists_empty {t : Buckets K V} (h : t.entries.length < t.capacity) :
    ∃ z < t.capacity, t.bucket z = none := by
  by_contra hfull
  have hall : ∀ b ∈ range t.capacity, (t.bucket b).isSome := by
    intro b hb
    rw [isSome_iff_ne_none]
    exact fun hn => hfull ⟨b, mem_range.mp hb, hn⟩
  have hlen : t.entries.length = t.capacity := by
    rw [entries, length_filterMap_eq_countP, countP_eq_length.mpr hall, length_range]
  omega

end Buckets

variable {capacity z : Nat}

theorem exists_reach (hz : z < capacity) (b : Nat) : ∃ d < capacity, (b + d) % capacity = z := by
  refine ⟨(z + capacity - b % capacity) % capacity, mod_lt _ (by omega), ?_⟩
  have hb : b % capacity < capacity := mod_lt _ (by omega)
  rw [add_mod_mod, ← mod_add_mod,
    show b % capacity + (z + capacity - b % capacity) = z + capacity by omega,
    add_mod_right, mod_eq_of_lt hz]

variable {b d : Nat}

theorem lt_capacity_of_avoids (hz : z < capacity) (h : ∀ i ≤ d, (b + i) % capacity ≠ z) :
    d + 1 < capacity := by
  obtain ⟨i, hi, hiz⟩ := exists_reach hz b
  by_contra hlong
  exact h i (by omega) hiz

theorem mod_add_ne {i} (hpos : 0 < i) (hlt : i < capacity) : (b + i) % capacity ≠ b % capacity := by
  intro h
  have hb : b % capacity < capacity := mod_lt _ (by omega)
  rw [← mod_add_mod] at h
  rcases lt_or_ge (b % capacity + i) capacity with hsmall | hlarge
  · rw [mod_eq_of_lt hsmall] at h
    omega
  · rw [mod_eq_sub_mod hlarge, mod_eq_of_lt (by omega)] at h
    omega

variable [BEq K]

/-! ## Association lists -/

/-- The specification: a list of entries, no two of which have equal keys. -/
def get (m : List (K × V)) (k : K) : Option (K × V) := m.find? (·.1 == k)

def drop (m : List (K × V)) (k : K) : List (K × V) := m.filter (fun e => !(e.1 == k))

def put (m : List (K × V)) (e : K × V) : List (K × V) := e :: drop m e.1

def Differ (e f : K × V) : Prop := (e.1 == f.1) = false

variable {e f : K × V} {k : K} {m m' : List (K × V)}

theorem mem_drop : e ∈ drop m k ↔ e ∈ m ∧ (e.1 == k) = false := by
  simp [drop]

theorem drop_eq_self (h : ∀ e ∈ m, (e.1 == k) = false) : drop m k = m :=
  filter_eq_self.mpr fun e he => by simp [h e he]

theorem get_eq_none : get m k = none ↔ ∀ e ∈ m, (e.1 == k) = false := by
  simp [get]

theorem get_cons (m : List (K × V)) (e : K × V) (k : K) :
    get (e :: m) k = if e.1 == k then some e else get m k := by
  rw [get, find?_cons]
  cases e.1 == k <;> rfl

theorem put_perm (hp : m.Perm m') (e : K × V) : (put m e).Perm (put m' e) :=
  (hp.filter _).cons e

theorem distinct_drop (hm : m.Pairwise Differ) (k : K) : (drop m k).Pairwise Differ :=
  hm.filter _

section Equivalence

variable [PartialEquivBEq K]

theorem Differ.symm (h : Differ e f) : Differ f e := by
  rw [Differ, BEq.comm]
  exact h

theorem Differ.of_eq (h : Differ e f) (he : (e.1 == k) = true) : (f.1 == k) = false := by
  rw [← not_eq_true]
  intro hf
  rw [Differ, BEq.trans he (BEq.symm hf)] at h
  cases h

theorem distinct_put (hm : m.Pairwise Differ) (e : K × V) : (put m e).Pairwise Differ :=
  pairwise_cons.mpr ⟨fun _ hf => Differ.symm (mem_drop.mp hf).2, distinct_drop hm e.1⟩

theorem get_eq_some (hm : m.Pairwise Differ) : get m k = some e ↔ e ∈ m ∧ (e.1 == k) = true := by
  refine ⟨fun h => ⟨mem_of_find?_eq_some h, ?_⟩, ?_⟩
  · simpa using find?_some h
  induction m with
  | nil => exact fun h => nomatch h.1
  | cons f m ih =>
    obtain ⟨hf, hm⟩ := pairwise_cons.mp hm
    rintro ⟨he, hk⟩
    rw [get_cons]
    rcases mem_cons.mp he with rfl | he
    · rw [if_pos hk]
    · rw [(hf e he).symm.of_eq hk, if_neg Bool.false_ne_true, ih hm ⟨he, hk⟩]

theorem get_perm (hp : m.Perm m') (hm : m.Pairwise Differ) (k : K) : get m k = get m' k := by
  apply ext
  intro e
  rw [get_eq_some hm, get_eq_some (hp.pairwise hm Differ.symm), hp.mem_iff]

theorem get_put (m : List (K × V)) (e : K × V) (k : K) :
    get (put m e) k = if e.1 == k then some e else get m k := by
  rw [put, get_cons]
  split
  · rfl
  next hk =>
    rw [get, drop, find?_filter, get]
    congr 1
    funext f
    cases hf : f.1 == k with
    | false => simp
    | true =>
      have hfe : (f.1 == e.1) = false := by
        rw [← not_eq_true]
        exact fun h => hk (BEq.trans (BEq.symm h) hf)
      simp [hfe]

theorem get_foldl_put {l} (hl : l.Pairwise Differ) (m : List (K × V)) (k : K) :
    get (l.foldl put m) k = (get l k).or (get m k) := by
  induction l generalizing m with
  | nil => rfl
  | cons e l ih =>
    obtain ⟨he, hl⟩ := pairwise_cons.mp hl
    rw [foldl_cons, ih hl, get_put, get_cons]
    split
    next hk =>
      rw [get_eq_none.mpr fun f hf => (he f hf).of_eq hk]
      rfl
    · rfl

end Equivalence

/-! ## The probe -/

open Buckets

/-- Walks on from bucket `b`; the answer is whether the key was found and in which bucket the
walk ended. No answer after `capacity` buckets means that the walk goes round for ever. -/
def probe (t : Buckets K V) (k : K) : Nat → Nat → Option (Bool × Nat)
  | 0, _ => none
  | fuel + 1, b =>
    match t.bucket b with
    | none => some (false, b)
    | some e => if e.1 == k then some (true, b) else probe t k fuel ((b + 1) % t.capacity)

def lookup (home : K → Nat) (t : Buckets K V) (k : K) : Option (Bool × Nat) :=
  probe t k t.capacity (home k % t.capacity)

/-- A walk for `k` from position `b` ends after `d` steps. -/
structure Stops (t : Buckets K V) (k : K) (b d : Nat) (found : Bool) : Prop where
  passed : ∀ i < d, ∃ e, t.pos (b + i) = some e ∧ (e.1 == k) = false
  hit : found = true → ∃ e, t.pos (b + d) = some e ∧ (e.1 == k) = true
  miss : found = false → t.pos (b + d) = none

theorem probe_stops (t : Buckets K V) (k : K) (fuel b d : Nat) (hd : d < fuel)
    (hempty : t.pos (b + d) = none) :
    ∃ i ≤ d, ∃ found, probe t k fuel (b % t.capacity) = some (found, (b + i) % t.capacity) ∧
      Stops t k b i found := by
  induction fuel generalizing b d with
  | zero => omega
  | succ fuel ih =>
    rw [probe]
    cases hx : t.bucket (b % t.capacity) with
    | none => exact ⟨0, zero_le _, false, rfl, nofun, nofun, fun _ => hx⟩
    | some e =>
      by_cases hk : (e.1 == k) = true
      · refine ⟨0, zero_le _, true, ?_, nofun, fun _ => ⟨e, hx, hk⟩, nofun⟩
        simp [hk]
      cases d with
      | zero =>
        rw [add_zero, pos, hx] at hempty
        cases hempty
      | succ d =>
        obtain ⟨i, hi, found, hprobe, hstop⟩ :=
          ih (b + 1) d (by omega) (by rwa [add_assoc, add_comm 1 d])
        have hshift : ∀ j, b + 1 + j = b + (j + 1) := fun j => by omega
        refine ⟨i + 1, by omega, found, ?_, ?_, ?_, ?_⟩
        · simp only [hk, false_eq_true, if_false, mod_add_mod, hprobe, hshift]
        · intro j hj
          cases j with
          | zero => exact ⟨e, hx, by simpa using hk⟩
          | succ j => exact hshift j ▸ hstop.passed j (by omega)
        · exact hshift i ▸ hstop.hit
        · exact hshift i ▸ hstop.miss

variable (home : K → Nat)

/-- The walk from the home of `e` to bucket `p` finds no empty bucket on its way. -/
def Placed (t : Buckets K V) (p : Nat) (e : K × V) : Prop :=
  ∃ d, p = (home e.1 + d) % t.capacity ∧ ∀ i < d, (t.pos (home e.1 + i)).isSome

def AllPlaced (t : Buckets K V) : Prop :=
  ∀ p < t.capacity, ∀ e, t.bucket p = some e → Placed home t p e

theorem lookup_stops (t : Buckets K V) (hz : z < t.capacity) (hempty : t.bucket z = none) (k : K) :
    ∃ d found, lookup home t k = some (found, (home k + d) % t.capacity) ∧
      Stops t k (home k) d found := by
  obtain ⟨d, hd, hdz⟩ := exists_reach hz (home k)
  obtain ⟨i, -, found, h⟩ := probe_stops t k t.capacity (home k) d hd (by rwa [pos, hdz])
  exact ⟨i, found, h⟩

variable {home} {t : Buckets K V}

omit [BEq K] in
theorem Placed.fill {p} (h : Placed home t p e) (b : Nat) (f : K × V) :
    Placed home (t.set b (some f)) p e := by
  obtain ⟨d, hp, hwalk⟩ := h
  exact ⟨d, hp, fun i hi => t.isSome_fill b f (hwalk i hi)⟩

theorem Stops.placed {found} (h : Stops t e.1 (home e.1) d found) :
    Placed home t ((home e.1 + d) % t.capacity) e := by
  refine ⟨d, rfl, fun i hi => ?_⟩
  obtain ⟨f, hf, -⟩ := h.passed i hi
  simp [hf]

omit [BEq K] in
theorem AllPlaced.fill (h : AllPlaced home t) (he : Placed home t b e) :
    AllPlaced home (t.set b (some e)) := by
  intro p hp f hf
  by_cases hb : p = b
  · subst hb
    rw [bucket_set_self] at hf
    cases hf
    exact he.fill p e
  · rw [t.bucket_set_ne _ hb] at hf
    exact (h p hp f hf).fill b e

theorem Stops.absent (congr : ∀ a b : K, (a == b) = true → home a = home b)
    (hplaced : AllPlaced home t) (h : Stops t k (home k) d false) :
    ∀ e ∈ t.entries, (e.1 == k) = false := by
  intro e he
  obtain ⟨p, hp, hpe⟩ := mem_entries.mp he
  obtain ⟨d', rfl, hwalk⟩ := hplaced p hp e hpe
  by_contra hk
  rw [not_eq_false] at hk
  rw [congr _ _ hk] at hpe hwalk
  rcases lt_trichotomy d d' with hlt | rfl | hgt
  · simpa [h.miss rfl] using hwalk d hlt
  · exact nomatch (h.miss rfl).symm.trans hpe
  obtain ⟨f, hf, hfk⟩ := h.passed d' hgt
  rw [pos, hpe] at hf
  cases hf
  rw [hk] at hfk
  cases hfk

/-! ## Storing an entry -/

def store (home : K → Nat) (t : Buckets K V) (e : K × V) : Option (Bool × Buckets K V) :=
  (lookup home t e.1).map fun r => (r.1, t.set r.2 (some e))

variable [PartialEquivBEq K]

theorem drop_perm_others (hdistinct : t.entries.Pairwise Differ) (hb : b < t.capacity)
    (hf : t.bucket b = some f) (hk : (f.1 == k) = true) :
    t.entries.Perm (f :: t.others b) ∧ (drop t.entries k).Perm (t.others b) := by
  have hold := t.entries_perm hb
  rw [hf] at hold
  have hothers := (pairwise_cons.mp (hold.pairwise hdistinct Differ.symm)).1
  refine ⟨hold, (hold.filter _).trans ?_⟩
  rw [toList_some, singleton_append, filter_cons, hk]
  exact .of_eq (drop_eq_self fun g hg => Differ.of_eq (hothers g hg) hk)

theorem store_spec (congr : ∀ a b : K, (a == b) = true → home a = home b)
    (hplaced : AllPlaced home t) (hdistinct : t.entries.Pairwise Differ) (hz : z < t.capacity)
    (hempty : t.bucket z = none) (e : K × V) :
    ∃ found t', store home t e = some (found, t') ∧ t'.capacity = t.capacity ∧
      AllPlaced home t' ∧ t'.entries.Perm (put t.entries e) ∧
      t'.entries.length = t.entries.length + (!found).toNat := by
  obtain ⟨d, found, hlook, hstop⟩ := lookup_stops home t hz hempty e.1
  have hb : (home e.1 + d) % t.capacity < t.capacity := mod_lt _ (by omega)
  have hnew := t.entries_set_perm hb (some e)
  refine ⟨found, t.set _ (some e), by rw [store, hlook]; rfl, rfl, hplaced.fill hstop.placed, ?_⟩
  cases found with
  | false =>
    have hrest := t.entries_perm hb
    rw [← pos, hstop.miss rfl] at hrest
    have hput := hnew.trans (hrest.symm.cons e)
    rw [put, drop_eq_self (hstop.absent congr hplaced)]
    exact ⟨hput, hput.length_eq⟩
  | true =>
    obtain ⟨f, hf, hfe⟩ := hstop.hit rfl
    obtain ⟨hold, hdrop⟩ := drop_perm_others hdistinct hb hf hfe
    refine ⟨hnew.trans (hdrop.symm.cons e), ?_⟩
    rw [hnew.length_eq, hold.length_eq]
    rfl

/-! ## Removing an entry -/

/-- The loop behind an emptied bucket: every entry of the run is taken out and stored anew. -/
def rehash (home : K → Nat) : Nat → Nat → Buckets K V → Option (Buckets K V)
  | 0, _, _ => none
  | fuel + 1, b, t =>
    match t.bucket b with
    | none => some t
    | some e =>
      match store home (t.set b none) e with
      | none => none
      | some r => rehash home fuel ((b + 1) % t.capacity) r.2

def remove (home : K → Nat) (t : Buckets K V) (k : K) : Option (Bool × Buckets K V) :=
  match lookup home t k with
  | none => none
  | some (false, _) => some (false, t)
  | some (true, b) =>
    (rehash home t.capacity ((b + 1) % t.capacity) (t.set b none)).map (true, ·)

/-- Bucket `p` belongs to the run of occupied buckets that starts at position `b`. -/
def InRun (t : Buckets K V) (b p : Nat) : Prop :=
  ∃ d, p = (b + d) % t.capacity ∧ ∀ i ≤ d, (t.pos (b + i)).isSome

/-- A walk from position `b` to bucket `p` that does not come by bucket `z`. -/
def Avoids (capacity z b p : Nat) : Prop :=
  ∃ d, p = (b + d) % capacity ∧ ∀ i ≤ d, (b + i) % capacity ≠ z

/-- The loop is at position `b`: only entries of the run from there may be out of place, and
the empty bucket `z` at which it will end is on no entry's way. -/
structure Rehashing (home : K → Nat) (t : Buckets K V) (z b : Nat) : Prop where
  lt : z < t.capacity
  empty : t.bucket z = none
  distinct : t.entries.Pairwise Differ
  avoids : ∀ p < t.capacity, ∀ e, t.bucket p = some e → Avoids t.capacity z (home e.1) p
  placed : ∀ p < t.capacity, ∀ e, t.bucket p = some e → Placed home t p e ∨ InRun t b p

omit [PartialEquivBEq K] in
theorem Rehashing.start (hplaced : AllPlaced home t) (hdistinct : t.entries.Pairwise Differ)
    (hz : z < t.capacity) (hempty : t.bucket z = none) (b : Nat) : Rehashing home t z b where
  lt := hz
  empty := hempty
  distinct := hdistinct
  placed := fun p hp e he => .inl (hplaced p hp e he)
  avoids := by
    intro p hp e he
    obtain ⟨d, rfl, hwalk⟩ := hplaced p hp e he
    refine ⟨d, rfl, fun i hi hiz => ?_⟩
    rcases lt_or_eq_of_le hi with hlt | rfl
    · simpa [pos, hiz, hempty] using hwalk i hlt
    · rw [hiz, hempty] at he
      cases he

section

variable (h : Rehashing home t z b)
include h

theorem Rehashing.take (he : t.pos b = some e) :
    Rehashing home (t.set (b % t.capacity) none) z (b + 1) := by
  have hb : b % t.capacity < t.capacity := mod_lt _ (zero_lt_of_lt h.lt)
  have hbucket : ∀ {p f}, (t.set (b % t.capacity) none).bucket p = some f →
      p ≠ b % t.capacity ∧ t.bucket p = some f := by
    intro p f hf
    by_cases hp : p = b % t.capacity
    · rw [hp, bucket_set_self] at hf
      cases hf
    · exact ⟨hp, by rwa [t.bucket_set_ne _ hp] at hf⟩
  -- A run from `b` to another bucket goes on from `b + 1` and does not come back to `b`.
  have hrun : ∀ {p}, p ≠ b % t.capacity → InRun t b p →
      InRun (t.set (b % t.capacity) none) (b + 1) p := by
    rintro p hp ⟨d, rfl, hall⟩
    have hd : d + 1 < t.capacity := by
      refine lt_capacity_of_avoids h.lt (b := b) fun i hi hiz => ?_
      simpa [pos, hiz, h.empty] using hall i hi
    cases d with
    | zero => exact absurd rfl hp
    | succ d =>
      refine ⟨d, by rw [capacity_set, add_right_comm, add_assoc], fun i hi => ?_⟩
      have hne : (b + (i + 1)) % t.capacity ≠ b % t.capacity := mod_add_ne (by omega) (by omega)
      have hsome := hall (i + 1) (by omega)
      rwa [pos, ← t.bucket_set_ne none hne, ← add_assoc, add_right_comm] at hsome
  refine ⟨h.lt, ?_, ?_, ?_, ?_⟩
  · by_cases hz : z = b % t.capacity
    · rw [hz, bucket_set_self]
    · rw [t.bucket_set_ne _ hz, h.empty]
  · have hperm := t.entries_perm hb
    rw [← pos, he] at hperm
    have hd := pairwise_cons.mp ((hperm.pairwise_iff Differ.symm).mp h.distinct)
    exact ((t.entries_set_perm hb none).pairwise_iff Differ.symm).mpr hd.2
  · intro p hp f hf
    exact h.avoids p hp f (hbucket hf).2
  intro p hp f hf
  obtain ⟨hne, hf⟩ := hbucket hf
  rcases h.placed p hp f hf with ⟨d, rfl, hwalk⟩ | hin
  · by_cases hthrough : ∃ j < d, (home f.1 + j) % t.capacity = b % t.capacity
    · obtain ⟨j, hj, hjb⟩ := hthrough
      have hfrom : ∀ i, (b + i) % t.capacity = (home f.1 + (j + i)) % t.capacity := fun i => by
        rw [← Nat.mod_add_mod, ← hjb, Nat.mod_add_mod, Nat.add_assoc]
      refine .inr (hrun hne
        ⟨d - j, by rw [hfrom, Nat.add_sub_cancel' (Nat.le_of_lt hj)], fun i hi => ?_⟩)
      rw [pos, hfrom]
      by_cases hlast : j + i = d
      · rw [hlast, hf, isSome_some]
      · exact hwalk (j + i) (by omega)
    · refine .inl ⟨d, rfl, fun i hi => ?_⟩
      rw [pos, capacity_set, t.bucket_set_ne _ fun hi' => hthrough ⟨i, hi, hi'⟩]
      exact hwalk i hi
  · exact .inr (hrun hne hin)

omit [PartialEquivBEq K] in
theorem Rehashing.fill {c} (hplaced : Placed home t c e)
    (havoids : Avoids t.capacity z (home e.1) c)
    (hdistinct : (t.set c (some e)).entries.Pairwise Differ) :
    Rehashing home (t.set c (some e)) z b := by
  have hz : z ≠ c := by
    obtain ⟨d, rfl, hd⟩ := havoids
    exact (hd d (le_refl d)).symm
  refine ⟨h.lt, by rw [t.bucket_set_ne _ hz, h.empty], hdistinct, ?_, ?_⟩
  all_goals
    intro p hp f hf
    by_cases hc : p = c
    · subst hc
      rw [bucket_set_self] at hf
      cases hf
      first | exact havoids | exact .inl (hplaced.fill p e)
    rw [t.bucket_set_ne _ hc] at hf
  · exact h.avoids p hp f hf
  · refine (h.placed p hp f hf).imp (·.fill c e) ?_
    rintro ⟨d, hd, hall⟩
    exact ⟨d, hd, fun i hi => t.isSome_fill c e (hall i hi)⟩

/-- One round of the loop takes the entry at `b` out and puts it back where its walk ends. -/
theorem Rehashing.step (he : t.pos b = some e) :
    ∃ t', store home (t.set (b % t.capacity) none) e = some (false, t') ∧
      t'.capacity = t.capacity ∧ Rehashing home t' z (b + 1) ∧ t'.entries.Perm t.entries := by
  have hb : b % t.capacity < t.capacity := mod_lt _ (zero_lt_of_lt h.lt)
  obtain ⟨d, hbd, hav⟩ := h.avoids _ hb e he
  have hd := lt_capacity_of_avoids h.lt hav
  -- The emptied bucket is itself on the way, so the walk ends there at the latest.
  have hhole : (t.set (b % t.capacity) none).pos (home e.1 + d) = none := by
    rw [pos, capacity_set, ← hbd, bucket_set_self]
  obtain ⟨i, hi, found, hprobe, hstop⟩ :=
    probe_stops (t.set (b % t.capacity) none) e.1 t.capacity (home e.1) d (by omega) hhole
  have hold := t.entries_perm hb
  rw [← pos, he] at hold
  have hrest := t.entries_set_perm hb none
  have hc : (home e.1 + i) % t.capacity < t.capacity := mod_lt _ (zero_lt_of_lt h.lt)
  cases found with
  | true =>
    obtain ⟨f, hf, hfe⟩ := hstop.hit rfl
    have hmem : f ∈ t.others (b % t.capacity) := hrest.mem_iff.mp (mem_entries.mpr ⟨_, hc, hf⟩)
    have hdiff := (pairwise_cons.mp ((hold.pairwise_iff Differ.symm).mp h.distinct)).1 f hmem
    exact nomatch hfe.symm.trans hdiff.symm
  | false =>
    have hperm : ((t.set (b % t.capacity) none).set ((home e.1 + i) % t.capacity)
        (some e)).entries.Perm t.entries := by
      have hnone := (t.set (b % t.capacity) none).entries_perm hc
      have hmiss : (t.set (b % t.capacity) none).bucket ((home e.1 + i) % t.capacity) = none :=
        hstop.miss rfl
      rw [hmiss] at hnone
      have hnew := (t.set (b % t.capacity) none).entries_set_perm hc (some e)
      exact hnew.trans (((hnone.symm.trans hrest).cons e).trans hold.symm)
    have hlook : lookup home (t.set (b % t.capacity) none) e.1 =
        some (false, (home e.1 + i) % t.capacity) := hprobe
    refine ⟨(t.set _ none).set _ (some e), by rw [store, hlook, map_some], rfl, ?_, hperm⟩
    exact (h.take he).fill hstop.placed ⟨i, rfl, fun j hj => hav j (by omega)⟩
      ((hperm.pairwise_iff Differ.symm).mpr h.distinct)

theorem rehash_spec {fuel} (hz : (b + d) % t.capacity = z) (hd : d < fuel) :
    ∃ t', rehash home fuel (b % t.capacity) t = some t' ∧ t'.capacity = t.capacity ∧
      AllPlaced home t' ∧ t'.entries.Perm t.entries := by
  induction fuel generalizing t b d with
  | zero => omega
  | succ fuel ih =>
    rw [rehash]
    cases hx : t.bucket (b % t.capacity) with
    | none =>
      refine ⟨t, rfl, rfl, fun p hp e he => (h.placed p hp e he).resolve_right ?_, .refl _⟩
      rintro ⟨m, -, hall⟩
      simpa [pos, hx] using hall 0 (zero_le _)
    | some e =>
      obtain ⟨s, hstore, hcap, hs, hperm⟩ := h.step hx
      cases d with
      | zero =>
        rw [add_zero] at hz
        rw [hz, h.empty] at hx
        cases hx
      | succ d =>
        obtain ⟨t', hrun, hcap', hplaced, hperm'⟩ :=
          ih hs (d := d) (by rw [hcap, ← hz, add_right_comm, add_assoc]) (by omega)
        refine ⟨t', ?_, hcap'.trans hcap, hplaced, hperm'.trans hperm⟩
        rw [hcap] at hrun
        simp only [hstore, mod_add_mod, hrun]

end

theorem remove_spec (congr : ∀ a b : K, (a == b) = true → home a = home b)
    (hplaced : AllPlaced home t) (hdistinct : t.entries.Pairwise Differ) (hz : z < t.capacity)
    (hempty : t.bucket z = none) (k : K) :
    ∃ found t', remove home t k = some (found, t') ∧ t'.capacity = t.capacity ∧
      AllPlaced home t' ∧ t'.entries.Perm (drop t.entries k) ∧
      t.entries.length = t'.entries.length + found.toNat := by
  obtain ⟨d, found, hlook, hstop⟩ := lookup_stops home t hz hempty k
  have hb : (home k + d) % t.capacity < t.capacity := mod_lt _ (by omega)
  rw [remove, hlook]
  cases found with
  | false =>
    exact ⟨false, t, rfl, rfl, hplaced, .of_eq (drop_eq_self (hstop.absent congr hplaced)).symm,
      rfl⟩
  | true =>
    obtain ⟨f, hf, hfk⟩ := hstop.hit rfl
    obtain ⟨hold, hdrop⟩ := drop_perm_others hdistinct hb hf hfk
    have hloop := (Rehashing.start hplaced hdistinct hz hempty (home k + d)).take hf
    obtain ⟨i, hi, hiz⟩ := exists_reach hz (home k + d + 1)
    obtain ⟨t', hrun, hcap, hplaced', hperm⟩ := rehash_spec hloop hiz hi
    have hperm' := hperm.trans (t.entries_set_perm hb none)
    refine ⟨true, t', ?_, hcap, hplaced', hperm'.trans hdrop.symm, ?_⟩
    · simp only [mod_add_mod]
      rw [capacity_set] at hrun
      rw [hrun, map_some]
    · rw [hold.length_eq, hperm'.length_eq]
      rfl

end Cvmfs.Lib.LinearProbing
