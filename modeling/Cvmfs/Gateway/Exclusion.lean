import Cvmfs.Gateway.Session

/-! # Exclusion of overlapping leases

A lease is meant to be exclusive: while a token is accepted, no other token of
the same repository is accepted for the same path, an ancestor or a descendant.
`NewLease` decides whether a path is free with a `LIKE` test on the spelling and
a strict comparison with the clock; the other services decide whether a token is
valid with the opposite strictness.

The tests leave gaps. A path with a double slash may be missed by the `LIKE` test
(`exclusion_fails_for_double_slash`; no other path of less than 50000 bytes is, by
`prefix_of_overlap`), and a lease that is looked at in the very nanosecond of its
expiration counts as free and as valid (`exclusion_fails_at_expiration`).
`exclusive_of_separable` shows that there are no others: in every interleaving that
keeps clear of them no two overlapping tokens are valid together.
-/

namespace Cvmfs.Gateway

open Cvmfs.Lib LeaseTable

structure Rival (l k : Lease) : Prop where
  token_ne : l.token ≠ k.token
  repository_eq : l.repository = k.repository
  overlap : Overlap l.path k.path

theorem Rival.symm {l k} (h : Rival l k) : Rival k l :=
  ⟨h.token_ne.symm, h.repository_eq.symm, h.overlap.symm⟩

/-- At the current moment no two tokens of overlapping leases are accepted. -/
def Exclusive (s : State) : Prop :=
  ∀ t₁ t₂ l₁ l₂, validLease s.store.leases t₁ s.now = .ok l₁ →
    validLease s.store.leases t₂ s.now = .ok l₂ → ¬ Rival l₁ l₂

/-- A request for a new lease keeps clear of the gaps: as they are spelled, it and an
overlapping lease that is still alive begin one with the other, no path is too long to be
compared, and the loop does not read the clock at exactly the expiration. -/
def Separable (cfg : Config) (s : State) : Event → Prop
  | .newLease r clock => ∀ repo path, splitLeasePath r.leasePath = .ok (repo, path) →
    ∀ l ∈ s.store.leases.rows, l.repository = repo → Overlap l.path path → s.now ≤ l.expiration →
      s.store.leases.Comparable path ∧ (l.path <+: path ∨ path <+: l.path) ∧ ∀ i,
        (s.store.leases.findAllLeasesByRepositoryAndOverlappingPath cfg.same repo path)[i]? = some l →
          clock.check i ≠ l.expiration
  | _ => True

/-- The invariant behind exclusion: of two rivals one has already expired. -/
def RivalExpired (s : State) : Prop :=
  ∀ l ∈ s.store.leases.rows, ∀ k ∈ s.store.leases.rows, Rival l k →
    l.expiration < s.now ∨ k.expiration < s.now

theorem RivalExpired.exclusive {s} (h : RivalExpired s) : Exclusive s := by
  intro t₁ t₂ l₁ l₂ h₁ h₂ hr
  obtain ⟨hm₁, -, hv₁⟩ := validLease_ok.mp h₁
  obtain ⟨hm₂, -, hv₂⟩ := validLease_ok.mp h₂
  rcases h l₁ hm₁ l₂ hm₂ hr with h' | h' <;> omega

theorem RivalExpired.keep {s s' cond} (h : RivalExpired s) (hnow : s.now ≤ s'.now)
    (hs : s'.store.leases = s.store.leases.keep cond) : RivalExpired s' := by
  intro l hl k hk hr
  rw [hs] at hl hk
  rcases h l (mem_keep.mp hl).1 k (mem_keep.mp hk).1 hr with h' | h'
  · exact .inl (by omega)
  · exact .inr (by omega)

theorem expired_of_granted {cfg s r clock store lease}
    (hsep : Separable cfg s (.newLease r clock)) (hclock : (Event.newLease r clock).Clocked s.now)
    (hnew : newLease cfg s.store r clock = .ok (store, lease)) {l} (hl : l ∈ s.store.leases.rows)
    (hr : Rival l lease) : l.expiration < clock.create := by
  obtain ⟨repo, path, hsplit, rfl, hfree, -, -⟩ := newLease_ok hnew
  obtain ⟨hread, hd, hc⟩ := hclock
  by_cases halive : s.now ≤ l.expiration
  · obtain ⟨hcomparable, hspelled, hne⟩ :=
      hsep repo path hsplit l hl hr.repository_eq hr.overlap halive
    have hfound := mem_overlapping cfg hl hcomparable hspelled
    rw [show l.repository = repo from hr.repository_eq] at hfound
    -- the query finds `l`, so the loop looked at it in some round
    obtain ⟨i, hi⟩ := List.mem_iff_getElem?.mp hfound
    have h1 := hfree i l hi
    have h2 := hne i hi
    have h3 := (hread i).2.2
    omega
  · omega

theorem RivalExpired.refresh {s s' token lease tCheck expiration} (h : RivalExpired s)
    (hread : s.now ≤ tCheck) (hnow : s.now ≤ s'.now)
    (hvalid : validLease s.store.leases token tCheck = .ok lease)
    (hs : s'.store.leases = s.store.leases.updateLeaseExpirationByToken token expiration) :
    RivalExpired s' := by
  obtain ⟨hm, htoken, hle⟩ := validLease_ok.mp hvalid
  have rival_expired : ∀ l ∈ s.store.leases.rows, ∀ k ∈ s.store.leases.rows, Rival l k →
      l.token = token → k.expiration < s.now := by
    intro l hl k hk hr hlt
    obtain rfl := eq_of_token_eq hl hm (hlt.trans htoken.symm)
    rcases h l hl k hk hr with h' | h' <;> omega
  intro l' hl' k' hk' hr
  rw [hs] at hl' hk'
  obtain ⟨l, hl, rfl⟩ := mem_updateLeaseExpirationByToken hl'
  obtain ⟨k, hk, rfl⟩ := mem_updateLeaseExpirationByToken hk'
  by_cases hlt : l.token = token
  · have hkt : k.token ≠ token := by
      intro hkt
      exact hr.token_ne (by rw [if_pos hlt, if_pos hkt]; exact hlt.trans hkt.symm)
    rw [if_pos hlt, if_neg hkt] at hr
    rw [if_neg hkt]
    have := rival_expired l hl k hk { hr with } hlt
    exact .inr (by omega)
  rw [if_neg hlt] at hr ⊢
  by_cases hkt : k.token = token
  · rw [if_pos hkt] at hr
    have := rival_expired k hk l hl ⟨hr.token_ne.symm, hr.repository_eq.symm, hr.overlap.symm⟩ hkt
    exact .inl (by omega)
  rw [if_neg hkt] at hr ⊢
  rcases h l hl k hk hr with h' | h'
  · exact .inl (by omega)
  · exact .inr (by omega)

theorem RivalExpired.step {cfg s e} (h : RivalExpired s)
    (hsep : Separable cfg s e) (hclock : e.Clocked s.now) : RivalExpired (next cfg s e) := by
  have hnow := next_now cfg hclock
  rcases next_leases cfg s e with ⟨cond, hs⟩ | ⟨r, clock, store, lease, rfl, hnew, hs, hn⟩ |
    ⟨token, requested, tCheck, tRenew, lease, rfl, hvalid, hs⟩
  · exact h.keep hnow hs
  · obtain ⟨-, -, -, -, -, -, hrows⟩ := newLease_ok hnew
    have hold : ∀ l ∈ (s.store.leases.deleteAllExpiredLeases clock.delete).rows,
        l ∈ s.store.leases.rows := fun l hl => (mem_keep.mp hl).1
    intro l hl k hk hr
    rw [hs, hrows, List.mem_cons] at hl hk
    rcases hl with rfl | hl <;> rcases hk with rfl | hk
    · exact absurd rfl hr.token_ne
    · right
      rw [hn]
      exact expired_of_granted hsep hclock hnew (hold k hk) hr.symm
    · left
      rw [hn]
      exact expired_of_granted hsep hclock hnew (hold l hl) hr
    · rcases h l (hold l hl) k (hold k hk) hr with h' | h'
      · exact .inl (by omega)
      · exact .inr (by omega)
  · exact h.refresh hclock.1 hnow hvalid hs

/-- **Exclusion.** In every interleaving of the services and of the stages of
commits whose requests keep clear of the gaps, no two overlapping leases of
one repository are valid at the same moment. -/
theorem exclusive_of_separable (cfg : Config) {s : State}
    (h : (system cfg).Reach (Separable cfg) s) : Exclusive s := by
  have hinv : RivalExpired s := by
    refine h.invariant ?_ ?_
    · rintro s ⟨now, rfl⟩
      exact nofun
    · rintro s e s' hexp hsep ⟨hclock, rfl⟩
      exact hexp.step hsep hclock
  exact hinv.exclusive

/-! ## The gaps -/

def openConfig : Config where
  maxLeaseTime := 7200000000000
  leaseRefreshTime := 7200000000000
  commitLeaseExpiryMargin := 1000000000
  repoEnabled repo := if repo = "r".toList then some true else none
  access _ _ _ := true

def request (token leasePath : String) : LeaseRequest where
  keyID := "k".toList
  leasePath := leasePath.toList
  hostname := "h".toList
  protocolVersion := 3
  token := token.toList

def LeaseReadings.all (t : Int) : LeaseReadings := ⟨fun _ => t, t, t⟩

theorem clocked_all {now t} (h : now ≤ t) (r : LeaseRequest) :
    (Event.newLease r (.all t)).Clocked now :=
  ⟨fun _ => ⟨h, Int.le_refl _, Int.le_refl _⟩, h, Int.le_refl _⟩

/-- Two leases side by side, on `r/a` and `r/b`. -/
theorem exclusive_side_by_side : ∃ s, s.store.leases.rows.length = 2 ∧ Exclusive s := by
  have hrun : Admitted openConfig (Separable openConfig) (.start 0)
      [.newLease (request "A" "r/a") (.all 0), .newLease (request "B" "r/b") (.all 0)] := by
    refine ⟨?_, clocked_all (by decide) _, ?_, clocked_all (by decide) _, trivial⟩
    · intro _ _ _ l hl
      cases hl
    intro repo path hsplit l hl _ hov
    obtain ⟨rfl, rfl⟩ : "r".toList = repo ∧ "/b".toList = path := by
      have hb : splitLeasePath (request "B" "r/b").leasePath = .ok ("r".toList, "/b".toList) := rfl
      simpa [hb] using hsplit
    obtain rfl : l = (request "A" "r/a").lease openConfig "r".toList "/a".toList 0 :=
      List.mem_singleton.mp hl
    exact absurd hov (by decide)
  exact ⟨_, rfl, exclusive_of_separable openConfig (reach_run (.init ⟨0, rfl⟩) hrun)⟩

/-- `r//a` and `r/a` name the same directory and are leased at the same time. -/
theorem exclusion_fails_for_double_slash :
    let es := [.newLease (request "A" "r//a") (.all 0), .newLease (request "B" "r/a") (.all 0)]
    Admitted openConfig System.anyStep (.start 0) es ∧
      ¬ Exclusive (run openConfig (.start 0) es) := by
  refine ⟨⟨trivial, clocked_all (by decide) _, trivial, clocked_all (by decide) _, trivial⟩, ?_⟩
  intro hex
  refine hex "A".toList "B".toList ((request "A" "r//a").lease openConfig "r".toList "//a".toList 0)
    ((request "B" "r/a").lease openConfig "r".toList "/a".toList 0) rfl rfl ⟨?_, rfl, ?_⟩ <;> decide

/-- At the nanosecond of its expiration a lease is given away and still valid. -/
theorem exclusion_fails_at_expiration :
    let es := [.newLease (request "A" "r/a") (.all 0),
      .newLease (request "B" "r/a") (.all 7200000000000)]
    Admitted openConfig System.anyStep (.start 0) es ∧
      ¬ Exclusive (run openConfig (.start 0) es) := by
  refine ⟨⟨trivial, clocked_all (by decide) _, trivial, clocked_all (by decide) _, trivial⟩, ?_⟩
  intro hex
  refine hex "A".toList "B".toList ((request "A" "r/a").lease openConfig "r".toList "/a".toList 0)
    ((request "B" "r/a").lease openConfig "r".toList "/a".toList 7200000000000) rfl rfl
    ⟨?_, rfl, ?_⟩ <;> decide

end Cvmfs.Gateway
