import Cvmfs.Gateway.LeasePath

/-! # Key authorisation

A key is registered for a repository with a path. It is meant for leases at or below the
directory of that path. `AccessConfig.check` decides this from the two spellings: the tokens
between slashes have to overlap, in either direction, and the lease must not be the shorter
text, counted in bytes. -/

namespace Cvmfs.Gateway

open List

def trimSlash (path : Text) : Text := if path.head? = some '/' then path.drop 1 else path

def tokensOverlap (t1 t2 : List Text) : Bool :=
  let larger := if t1.length > t2.length then t1 else t2
  let smaller := if t1.length > t2.length then t2 else t1
  (range smaller.length).all fun i => larger[i]? == smaller[i]?

def checkPathOverlap (path1 path2 : Text) : Bool :=
  let path1 := trimSlash path1
  let path2 := trimSlash path2
  if path1.length = 0 ∨ path2.length = 0 then true
  else tokensOverlap (path1.splitOn '/') (path2.splitOn '/')

structure RepositoryConfig where
  keys : Text → Option Text

structure AccessConfig where
  repositories : Text → Option RepositoryConfig

inductive AuthError where
  | invalidRepo
  | invalidKey
  | invalidPath
  deriving DecidableEq

/-- `none` grants the lease. -/
def AccessConfig.check (c : AccessConfig) (keyID leasePath repoName : Text) : Option AuthError :=
  match c.repositories repoName with
  | none => some .invalidRepo
  | some cfg =>
    match cfg.keys keyID with
    | none => some .invalidKey
    | some keyPath =>
      let overlapping := checkPathOverlap leasePath keyPath
      let isSubpath := decide (byteLength keyPath ≤ byteLength leasePath)
      if !overlapping || !isSubpath then some .invalidPath else none

/-! ## The overlap test -/

def tokens (path : Text) : List Text := (trimSlash path).splitOn '/'

theorem components_eq_filter_tokens (path : Text) :
    components path = (tokens path).filter (· ≠ []) := by
  cases path with
  | nil => rfl
  | cons a path =>
    by_cases ha : a = '/'
    · subst ha
      simp [components, tokens, trimSlash, splitOn_cons_eq_if_modifyHead]
    · simp [components, tokens, trimSlash, ha]

theorem tokensOverlap_iff (t1 t2 : List Text) :
    tokensOverlap t1 t2 = true ↔ t1 <+: t2 ∨ t2 <+: t1 := by
  have hall : ∀ smaller larger : List Text, (range smaller.length).all
      (fun i => larger[i]? == smaller[i]?) = true ↔ smaller <+: larger := by
    intro smaller larger
    rw [prefix_iff_getElem?, all_eq_true]
    simp only [mem_range, beq_iff_eq]
    exact forall₂_congr fun i hi => by rw [getElem?_eq_getElem hi]
  rw [tokensOverlap]
  split
  next h =>
    rw [hall]
    exact ⟨.inr, fun h' => h'.resolve_left fun hp => absurd hp.length_le (Nat.not_le.mpr h)⟩
  next h =>
    rw [hall]
    refine ⟨.inl, fun h' => h'.elim id fun hp => ?_⟩
    rw [hp.eq_of_length_le (Nat.le_of_not_lt h)]

theorem checkPathOverlap_iff (p q : Text) : checkPathOverlap p q = true ↔
      trimSlash p = [] ∨ trimSlash q = [] ∨ tokens p <+: tokens q ∨ tokens q <+: tokens p := by
  rw [checkPathOverlap]
  simp only [length_eq_zero_iff]
  split
  next h => exact iff_of_true rfl (or_assoc.mp (.inl h))
  next h =>
    rw [not_or] at h
    rw [tokensOverlap_iff, or_iff_right h.1, or_iff_right h.2]
    rfl

section

variable (path : Text)

theorem byteLength_cons (c : Char) : byteLength (c :: path) = c.utf8Size + byteLength path := by
  simp [byteLength]

theorem byteLength_slash : byteLength ('/' :: path) = 1 + byteLength path := byteLength_cons path '/'

theorem byteLength_append (rest : Text) :
    byteLength (path ++ rest) = byteLength path + byteLength rest := by
  simp [byteLength]

theorem length_le_byteLength : path.length ≤ byteLength path := by
  induction path with
  | nil => exact Nat.le_refl _
  | cons c path ih =>
    have := c.utf8Size_pos
    rw [byteLength_cons, length_cons]
    omega

theorem trimSlash_cases : path = '/' :: trimSlash path ∨ path = trimSlash path := by
  rw [trimSlash]
  split
  next h =>
    obtain ⟨rest, rfl⟩ := head?_eq_some_iff.1 h
    exact .inl rfl
  · exact .inr rfl

theorem byteLength_trimSlash : byteLength (trimSlash path) ≤ byteLength path ∧
    byteLength path ≤ byteLength (trimSlash path) + 1 := by
  have hslash := byteLength_slash (trimSlash path)
  rcases trimSlash_cases path with h | h
  · rw [← h] at hslash
    omega
  · rw [← h]
    omega

end

theorem trimSlash_of_tokens {lease key rest} (h : tokens lease ++ rest = tokens key) :
    trimSlash key = trimSlash lease ++ render rest := by
  have hkey := render_splitOn (trimSlash key)
  rw [← tokens, ← h, render_append, tokens, render_splitOn, cons_append] at hkey
  exact (cons.inj hkey).2.symm

theorem tokens_behind (rest : List Text) (h : byteLength (render rest) ≤ 1) :
    rest = [] ∨ rest = [[]] := by
  match rest with
  | [] => exact .inl rfl
  | c :: cs =>
    have := (length_le_byteLength (render (c :: cs))).trans h
    rw [render_cons, length_cons, length_append] at this
    have hc : c = [] := length_eq_zero_iff.mp (by omega)
    have hcs : cs = [] := by
      cases cs with
      | nil => rfl
      | cons d ds =>
        rw [render_cons, length_cons] at this
        omega
    exact .inr (by rw [hc, hcs])

/-- The lease is the root, the key path one byte that is not a slash. -/
def Escalates (keyPath leasePath : Text) : Prop :=
  leasePath = ['/'] ∧ byteLength keyPath = 1 ∧ keyPath ≠ ['/']

section

variable {key lease : Text}

theorem key_of_root (hlen : byteLength key ≤ byteLength lease) (h : trimSlash lease = []) :
    key = [] ∨ lease = ['/'] ∧ byteLength key = 1 ∧ ∃ a, key = [a] := by
  have hkey := length_le_byteLength key
  rcases trimSlash_cases lease with hl | hl <;> rw [h] at hl <;> subst hl
  · change byteLength key ≤ 1 at hlen
    match key with
    | [] => exact .inl rfl
    | [a] =>
      rw [length_singleton] at hkey
      exact .inr ⟨rfl, by omega, a, rfl⟩
    | _ :: _ :: _ =>
      simp only [length_cons] at hkey
      omega
  · change byteLength key ≤ 0 at hlen
    exact .inl (length_eq_zero_iff.1 (by omega))

theorem components_of_overlap (hlen : byteLength key ≤ byteLength lease)
    (h : checkPathOverlap lease key = true) :
    components key <+: components lease ∨ Escalates key lease := by
  have hkey := byteLength_trimSlash key
  have hlease := byteLength_trimSlash lease
  rw [components_eq_filter_tokens, components_eq_filter_tokens]
  rcases (checkPathOverlap_iff lease key).mp h with h | h | h | h
  · obtain rfl | ⟨rfl, hone, a, rfl⟩ := key_of_root hlen h
    · exact .inl nil_prefix
    · by_cases ha : a = '/'
      · rw [ha]
        exact .inl (prefix_refl _)
      · exact .inr ⟨rfl, hone, by simpa using ha⟩
  · left
    rw [tokens, h]
    exact nil_prefix
  · obtain ⟨rest, hrest⟩ := h
    have htrim := congrArg byteLength (trimSlash_of_tokens hrest)
    rw [byteLength_append] at htrim
    -- only a slash at the end makes up for the one that a relative key path lacks
    have hnil : rest.filter (· ≠ []) = [] := by
      rcases tokens_behind rest (by omega) with rfl | rfl <;> rfl
    rw [← hrest, filter_append, hnil, append_nil]
    exact .inl (prefix_refl _)
  · exact .inl (h.filter _)

theorem Escalates.overlap (h : Escalates key lease) :
    checkPathOverlap lease key = true ∧ byteLength key ≤ byteLength lease ∧
      ¬components key <+: components lease := by
  obtain ⟨rfl, hlen, hne⟩ := h
  refine ⟨(checkPathOverlap_iff _ _).mpr (.inl rfl), hlen.le, fun hp => ?_⟩
  obtain rfl | ⟨-, -, a, rfl⟩ := key_of_root hlen.le (show trimSlash ['/'] = [] from rfl)
  · cases hlen
  have ha : a ≠ '/' := by simpa using hne
  rw [components_eq_filter_tokens, components_eq_filter_tokens] at hp
  have hle := hp.length_le
  simp [tokens, trimSlash, ha, splitOn_cons_eq_if_modifyHead] at hle

/-- The lease path as it is spelled begins with the key path, up to a slash in front of both: the
key path is empty or the root, it is the lease path, or the lease path goes on behind it with a
slash. A slash in front of one of them only makes up for one at the end. -/
def Leads (key lease : Text) : Prop :=
  trimSlash key = [] ∧ (key = [] ∨ lease ≠ []) ∨
  trimSlash key = trimSlash lease ∧ key ≠ '/' :: lease ∨
  trimSlash key ++ ['/'] <+: trimSlash lease ∨
  trimSlash key = trimSlash lease ++ ['/'] ∧ '/' :: key = lease ++ ['/']

theorem Leads.overlap (h : Leads key lease) :
    checkPathOverlap lease key = true ∧ byteLength key ≤ byteLength lease := by
  have hkey := byteLength_trimSlash key
  have hlease := byteLength_trimSlash lease
  rw [checkPathOverlap_iff, tokens, tokens]
  rcases h with ⟨h, hne⟩ | ⟨h, hne⟩ | ⟨rest, h⟩ | ⟨h, hback⟩
  · refine ⟨.inr (.inl h), ?_⟩
    rw [h] at hkey
    rcases hne with rfl | hne
    · exact Nat.zero_le _
    · have := length_pos_iff.2 hne
      have := length_le_byteLength lease
      exact hkey.2.trans (by change 1 ≤ _; omega)
  · refine ⟨.inr (.inr (.inl (h ▸ prefix_refl _))), ?_⟩
    rcases trimSlash_cases key with hk | hk
    · rcases trimSlash_cases lease with hl | hl
      · rw [hk, hl, h]
      · exact absurd (hk.trans (by rw [h, ← hl])) hne
    · rw [h] at hk
      rw [hk]
      exact hlease.1
  · have hbytes := congrArg byteLength h
    rw [append_assoc, singleton_append, byteLength_append, byteLength_slash] at hbytes
    refine ⟨.inr (.inr (.inr ?_)), by omega⟩
    rw [← h, append_assoc, singleton_append, splitOn_append_cons_self]
    exact prefix_append _ _
  · have hbytes := congrArg byteLength hback
    rw [byteLength_append, byteLength_slash, byteLength_slash] at hbytes
    refine ⟨.inr (.inr (.inl ?_)), by change 1 + _ = _ + (1 + 0) at hbytes; omega⟩
    rw [h, splitOn_append_cons_self]
    exact prefix_append _ _

theorem cons_slash_of_longer (hlen : byteLength key ≤ byteLength lease)
    (h : trimSlash key = trimSlash lease ++ ['/']) : '/' :: key = lease ++ ['/'] := by
  have hbytes := congrArg byteLength h
  rw [byteLength_append, byteLength_slash] at hbytes
  have hlease := byteLength_trimSlash lease
  rcases trimSlash_cases key with hk | hk
  · rw [hk, byteLength_slash] at hlen
    omega
  rcases trimSlash_cases lease with hl | hl
  · rw [hk, h, ← cons_append, ← hl]
  · rw [← hl, ← hk] at hbytes
    omega

theorem leads_of_overlap (hlen : byteLength key ≤ byteLength lease)
    (h : checkPathOverlap lease key = true) (hbelow : components key <+: components lease) :
    Leads key lease := by
  have hkey := byteLength_trimSlash key
  have hlease := byteLength_trimSlash lease
  have hnot : key ≠ '/' :: lease := by
    rintro rfl
    rw [byteLength_slash] at hlen
    omega
  rcases (checkPathOverlap_iff lease key).mp h with h | h | ⟨rest, h⟩ | ⟨rest, h⟩
  · obtain rfl | ⟨rfl, -, a, rfl⟩ := key_of_root hlen h
    · exact .inl ⟨rfl, .inl rfl⟩
    by_cases ha : a = '/'
    · exact .inl ⟨by simp [trimSlash, ha], .inr (by simp)⟩
    · have := hbelow.length_le
      simp [components, splitOn_cons_eq_if_modifyHead, ha] at this
  · refine .inl ⟨h, or_iff_not_imp_left.2 fun hne => ?_⟩
    rintro rfl
    have := length_pos_iff.2 hne
    have := length_le_byteLength key
    change byteLength key ≤ 0 at hlen
    omega
  · have htrim := trimSlash_of_tokens h
    have hbytes := congrArg byteLength htrim
    rw [byteLength_append] at hbytes
    rcases tokens_behind rest (by omega) with rfl | rfl
    · rw [render_nil, append_nil] at htrim
      exact .inr (.inl ⟨htrim, hnot⟩)
    · exact .inr (.inr (.inr ⟨htrim, cons_slash_of_longer hlen htrim⟩))
  · have htrim := trimSlash_of_tokens h
    cases rest with
    | nil =>
      rw [render_nil, append_nil] at htrim
      exact .inr (.inl ⟨htrim.symm, hnot⟩)
    | cons c cs =>
      rw [render_cons] at htrim
      exact .inr (.inr (.inl ⟨c ++ render cs, by rw [htrim]; simp⟩))

end

def AccessConfig.keyPath (c : AccessConfig) (keyID repoName : Text) : Option Text :=
  (c.repositories repoName).bind fun cfg => cfg.keys keyID

theorem AccessConfig.check_eq_none (c : AccessConfig) (keyID leasePath repoName : Text) :
    c.check keyID leasePath repoName = none ↔ ∃ keyPath, c.keyPath keyID repoName = some keyPath ∧
      checkPathOverlap leasePath keyPath = true ∧ byteLength keyPath ≤ byteLength leasePath := by
  rw [check, keyPath]
  cases c.repositories repoName with
  | none => simp
  | some cfg =>
    dsimp only [Option.bind_some]
    cases cfg.keys keyID <;> simp

/-- **Authorisation.** The granted leases are those at or below the key path exactly if a key
path of one byte does not ask for the root, and a lease at or below the key path begins with it as
it is spelled. -/
theorem check_exact_iff (c : AccessConfig) (keyID leasePath repoName : Text) :
    (c.check keyID leasePath repoName = none ↔ ∃ keyPath, c.keyPath keyID repoName = some keyPath ∧
        components keyPath <+: components leasePath) ↔
      ∀ keyPath, c.keyPath keyID repoName = some keyPath → ¬Escalates keyPath leasePath ∧
        (components keyPath <+: components leasePath → Leads keyPath leasePath) := by
  rw [c.check_eq_none]
  cases c.keyPath keyID repoName with
  | none => simp
  | some key =>
    simp only [Option.some.injEq, exists_eq_left', forall_eq']
    constructor
    · intro h
      refine ⟨fun he => ?_, fun hb => leads_of_overlap (h.mpr hb).2 (h.mpr hb).1 hb⟩
      obtain ⟨hover, hlen, hnot⟩ := he.overlap
      exact hnot (h.mp ⟨hover, hlen⟩)
    · rintro ⟨he, hleads⟩
      exact ⟨fun h => (components_of_overlap h.2 h.1).resolve_right he, fun hb => (hleads hb).overlap⟩

/-- A key for the directory `a` gets a lease on the whole repository. -/
theorem check_grants_root : ∃ c : AccessConfig, c.keyPath ['k'] ['r'] = some ['a'] ∧
    c.check ['k'] ['/'] ['r'] = none ∧ ¬components ['a'] <+: components ['/'] :=
  ⟨⟨fun _ => some ⟨fun _ => some ['a']⟩⟩, rfl, rfl, by decide⟩

end Cvmfs.Gateway
