import Cvmfs.Gateway.Lease
import Mathlib.Data.List.TakeWhile

/-! # Which leases a path selects

`NewLease` and `CancelLeases` select the leases of a path by `LIKE`. Here the selection is
compared with the order of directories: what `LIKE` finds is `Resembles`, which knows neither
components nor case and takes `_` and `%` in a name for wildcards. -/

namespace Cvmfs.Gateway

open List Bool LeaseTable

/-- `text` starts with `lead`, where the case of ASCII letters does not matter, a `_` of the lead
stands for any character and a `%` for any text. -/
inductive Resembles : (lead text : Text) → Prop
  | stop (text : Text) : Resembles [] text
  | char {p t ps ts} (hp : p ≠ '%') (ht : p = '_' ∨ foldCase p = foldCase t)
      (hs : Resembles ps ts) : Resembles (p :: ps) (t :: ts)
  | wildcard {ps ts} (skipped : Text) (hs : Resembles ps ts) : Resembles ('%' :: ps) (skipped ++ ts)

theorem like_iff {lead text : Text} : like (lead ++ ['%']) text = true ↔ Resembles lead text := by
  constructor
  · intro h
    induction lead generalizing text with
    | nil => exact .stop text
    | cons p ps ih =>
      simp only [cons_append, like] at h
      split at h
      next hp =>
        obtain ⟨ts, ⟨skipped, rfl⟩, hl⟩ := by simpa only [any_eq_true, mem_tails] using h
        exact hp ▸ .wildcard skipped (ih hl)
      next hp =>
        cases text with
        | nil => cases h
        | cons t ts =>
          simp only [and_eq_true, or_eq_true, beq_iff_eq] at h
          exact .char hp h.1 (ih h.2)
  intro h
  induction h with
  | stop text => exact any_eq_true.2 ⟨[], (mem_tails ..).2 nil_suffix, rfl⟩
  | char hp ht _ ih =>
    simp only [cons_append, like, if_neg hp, and_eq_true, or_eq_true, beq_iff_eq]
    exact ⟨ht, ih⟩
  | wildcard skipped _ ih =>
    simp only [cons_append, like, if_true, any_eq_true, mem_tails]
    exact ⟨_, suffix_append skipped _, ih⟩

theorem cString_eq {t : Text} (h : '\x00' ∉ t) : cString t = t :=
  takeWhile_eq_self_iff.2 fun _ hc => decide_eq_true fun he => h (he ▸ hc)

theorem likePrefix_iff {lead text : Text} (hl : '\x00' ∉ lead) (ht : '\x00' ∉ text) :
    likePrefix lead text = true ↔ Resembles lead text := by
  rw [likePrefix, cString_eq (by simp [hl]), cString_eq ht, like_iff]

theorem eq_slash_of_foldCase {t} (h : foldCase '/' = foldCase t) : t = '/' := by
  unfold foldCase at h
  rw [if_neg (by decide)] at h
  split at h
  next ht =>
    have hupper : ∀ n < 91, 65 ≤ n → '/' ≠ Char.ofNat (n + 32) := by decide
    exact absurd h (hupper t.toNat (Nat.lt_succ_of_le ht.2) ht.1)
  · exact h.symm

theorem Resembles.count_le {lead text} (h : Resembles lead text) :
    lead.count '/' ≤ text.count '/' := by
  induction h with
  | stop text => simp
  | @char p t ps ts _ ht _ ih =>
    by_cases hp : p = '/'
    · subst hp
      rw [eq_slash_of_foldCase (ht.resolve_left (by decide)), count_cons_self, count_cons_self]
      omega
    · rw [count_cons_of_ne hp]
      exact ih.trans (count_le_count_cons ..)
  | wildcard skipped _ ih =>
    rw [count_cons_of_ne (by decide), count_append]
    omega

/-- Sub paths as the services take them: absolute, with single slashes, and such that `LIKE` sees
all of them. -/
structure SingleSlash (path : Text) : Prop where
  absolute : path.head? = some '/'
  single : NoDoubleSlash path
  noNul : '\x00' ∉ path
  short : byteLength path < 50000

theorem SingleSlash.comparable {path} (h : SingleSlash path) : tooComplex path = false := by
  have := h.short
  simp only [byteLength] at this
  simp [tooComplex, byteLength, Char.utf8Size]
  omega

/-- Everything at or below a path is selected by it, but a slash at the end of the path hides the
directory itself. -/
theorem resembles_of_components {p q} (hp : SingleSlash p) (hq : SingleSlash q)
    (h : components p <+: components q) : Resembles p q ↔ p ≠ q ++ ['/'] := by
  constructor
  · rintro hr rfl
    have := hr.count_le
    rw [count_append, count_cons_self] at this
    omega
  intro hne
  rw [← likePrefix_iff hp.noNul hq.noNul]
  obtain ⟨hhead, hp, -⟩ := hp
  obtain ⟨hhead', hq, -⟩ := hq
  obtain ⟨p, rfl⟩ := head?_eq_some_iff.mp hhead
  obtain ⟨q, rfl⟩ := head?_eq_some_iff.mp hhead'
  obtain ⟨rest, hrest⟩ := (literal_of_components hp hq h).resolve_right hne
  rw [← hrest]
  exact likePrefix_append _ _

/-! ## The services -/

/-- The lease has time left at the reading of the round in which `NewLease` looks at it. -/
def LeaseReadings.unexpired (clock : LeaseReadings) (leases : List Lease) (l : Lease) : Prop :=
  clock.check (leases.idxOf l) < l.expiration

variable {cfg : Config} {s : Store} {r : LeaseRequest} {clock : LeaseReadings} {repo path : Text}

variable (cfg s clock repo path) in
def Held (kind : Lease → Prop) : Prop :=
  ∃ l ∈ s.leases.rows, kind l ∧
    clock.unexpired (s.leases.findAllLeasesByRepositoryAndOverlappingPath cfg.same repo path) l

variable (cfg repo path) in
/-- What the query of `NewLease` finds. -/
def Found (l : Lease) : Prop :=
  cfg.same l.repository repo = true ∧ (Resembles l.path path ∨ Resembles path l.path)

variable (repo path) in
/-- What it is meant to find. -/
def Overlapping (l : Lease) : Prop := l.repository = repo ∧ Overlap l.path path

section

variable (hpath : SingleSlash path) (hrows : ∀ l ∈ s.leases.rows, SingleSlash l.path)
include hpath hrows

theorem firstBusy_isSome {ls}
    (hls : s.leases.findAllLeasesByRepositoryAndOverlappingPath cfg.same repo path = ls) :
    (firstBusy clock.check 0 ls).isSome ↔ Held cfg s clock repo path (Found cfg repo path) := by
  have hcompared := findAll_of_comparable
    ⟨hpath.comparable, fun l hl => (hrows l hl).comparable⟩ cfg.same repo
  have hnodup : ls.Nodup := hls ▸ hcompared ▸ s.leases.tokens_nodup.of_map.filter _
  have hmem : ∀ l, l ∈ ls ↔ l ∈ s.leases.rows ∧ Found cfg repo path l := by
    intro l
    simp only [← hls, hcompared, mem_filter, pathConflict, and_eq_true, or_eq_true, Found]
    refine and_congr_right fun hl => ?_
    rw [likePrefix_iff (hrows l hl).noNul hpath.noNul, likePrefix_iff hpath.noNul (hrows l hl).noNul]
  rw [Held, hls]
  rw [Option.isSome_iff_ne_none, Ne, firstBusy_none]
  simp only [not_forall, Int.not_le, Nat.zero_add]
  constructor
  · rintro ⟨j, l, hl, hlt⟩
    obtain ⟨hrow, hfound⟩ := (hmem l).mp (mem_of_getElem? hl)
    refine ⟨l, hrow, hfound, ?_⟩
    obtain ⟨hj, rfl⟩ := List.getElem?_eq_some_iff.mp hl
    rw [LeaseReadings.unexpired, hnodup.idxOf_getElem]
    exact hlt
  · rintro ⟨l, hrow, hfound, hlt⟩
    exact ⟨_, l, getElem?_idxOf ((hmem l).mpr ⟨hrow, hfound⟩), hlt⟩

end

/-- The checks that `NewLease` makes before it looks for other leases. -/
def Permitted (cfg : Config) (r : LeaseRequest) (repo path : Text) : Prop :=
  cfg.repoEnabled repo = some true ∧ cfg.access r.keyID path repo = true

section

variable (hsplit : splitLeasePath r.leasePath = .ok (repo, path)) (hpath : SingleSlash path)
  (hrows : ∀ l ∈ s.leases.rows, SingleSlash l.path)
include hsplit hpath hrows

theorem newLease_busy : (∃ timeLeft, newLease cfg s r clock = .error (.pathBusy timeLeft)) ↔
    Permitted cfg r repo path ∧ Held cfg s clock repo path (Found cfg repo path) := by
  rw [← firstBusy_isSome hpath hrows rfl, newLease, hsplit, Permitted]
  dsimp only
  cases cfg.repoEnabled repo with
  | none => simp
  | some enabled =>
    cases enabled with
    | false => simp
    | true =>
      cases cfg.access r.keyID path repo with
      | false => simp
      | true =>
        cases firstBusy clock.check 0 _ with
        | some timeLeft => simp
        | none =>
          refine iff_of_false ?_ (by simp)
          rintro ⟨timeLeft, h⟩
          dsimp only at h
          rw [if_neg (by simp)] at h
          split at h
          · cases h
          · split at h <;> cases h

/-- **Selection.** A busy answer is due to an overlapping lease exactly if no unexpired lease
merely resembles the path, or one overlaps as well. `CancelLeases` deletes the leases at and below
the path exactly if none outside resembles it, and none at the path lacks its slash at the end. -/
theorem lease_selection_exact_iff :
    (((∃ timeLeft, newLease cfg s r clock = .error (.pathBusy timeLeft)) →
        Held cfg s clock repo path (Overlapping repo path)) ↔ (Permitted cfg r repo path →
        Held cfg s clock repo path (fun l => Found cfg repo path l ∧ ¬Overlapping repo path l) →
        Held cfg s clock repo path (Overlapping repo path))) ∧
    ((∃ s', cancelLeases cfg s r.leasePath = .ok s' ∧ ∀ l, l ∈ s'.leases.rows ↔
        l ∈ s.leases.rows ∧ ¬(l.repository = repo ∧ components path <+: components l.path)) ↔
      ∀ l ∈ s.leases.rows,
        (cfg.same l.repository repo = true → Resembles path l.path →
          l.repository = repo ∧ components path <+: components l.path) ∧
        (l.repository = repo → components path <+: components l.path → path ≠ l.path ++ ['/'])) := by
  constructor
  · rw [newLease_busy hsplit hpath hrows]
    constructor
    · rintro h hadm ⟨l, hrow, ⟨hfound, -⟩, hlive⟩
      exact h ⟨hadm, l, hrow, hfound, hlive⟩
    rintro h ⟨hadm, l, hrow, hfound, hlive⟩
    by_cases hover : Overlapping repo path l
    · exact ⟨l, hrow, hover, hlive⟩
    · exact h hadm ⟨l, hrow, ⟨hfound, hover⟩, hlive⟩
  rw [cancelLeases, hsplit]
  simp only [deleteAllLeasesByRepositoryAndPathPrefix, hpath.comparable, Bool.false_and, if_false,
    reduceCtorEq, Except.ok.injEq, exists_eq_left', mem_keep, not_eq_true', ← not_eq_true,
    and_eq_true, and_congr_right_iff]
  refine forall₂_congr fun l hl => ?_
  rw [likePrefix_iff hpath.noNul (hrows l hl).noNul]
  refine Iff.trans not_iff_not ?_
  have hbelow := resembles_of_components hpath (hrows l hl)
  constructor
  · exact fun h => ⟨fun hs hr => h.1 ⟨hs, hr⟩, fun hr hb => (hbelow hb).1 (h.2 ⟨hr, hb⟩).2⟩
  · rintro ⟨hout, hslash⟩
    exact ⟨fun h => hout h.1 h.2, fun h => ⟨h.1 ▸ cfg.same_self _, (hbelow h.2).2 (hslash h.1 h.2)⟩⟩

end

def sibling : Store where
  leases := ⟨[⟨[], ['r'], "/ab".toList, [], 1, 0, []⟩], nodup_singleton _⟩
  stats := []

def openGateway : Config where
  maxLeaseTime := 0
  leaseRefreshTime := 0
  commitLeaseExpiryMargin := 0
  repoEnabled _ := some true
  access _ _ _ := true

def ofA : LeaseRequest := ⟨[], "r/a".toList, [], 0, []⟩

theorem lease_selection_sibling : ¬∃ s', cancelLeases openGateway sibling ofA.leasePath = .ok s' ∧
    ∀ l, l ∈ s'.leases.rows ↔ l ∈ sibling.leases.rows ∧
      ¬(l.repository = ['r'] ∧ components ['/', 'a'] <+: components l.path) := by
  rw [(@lease_selection_exact_iff openGateway sibling ofA ⟨fun _ => 0, 0, 0⟩ ['r'] ['/', 'a']
    rfl ⟨rfl, by decide, by decide, by decide⟩
    (forall_mem_singleton.2 ⟨rfl, by decide, by decide, by decide⟩)).2]
  intro h
  exact absurd ((h _ (mem_singleton_self _)).1 rfl (like_iff.mp rfl)).2 (by decide)

/-- The lease on `/ab` keeps `/a` busy, and goes when the leases below `/a` are cancelled. -/
theorem selection_ignores_components : ¬Overlap "/ab".toList "/a".toList ∧
    newLease openGateway sibling ofA ⟨fun _ => 0, 0, 0⟩ = .error (.pathBusy 1000000) ∧
    cancelLeases openGateway sibling ofA.leasePath = .ok ⟨.empty, []⟩ :=
  ⟨by decide, rfl, rfl⟩

end Cvmfs.Gateway
