import Cvmfs.Gateway.Exclusion

/-! # Publication by a slow commit

A commit validates its lease once and then works without the lease mutex. Only
the deadline it passes to the receiver protects the repository: right before it
signs, the receiver compares the clock with it. The purpose of that check is
`SafePublication`: the row of the lease is still there when the manifest is
replaced, and no overlapping lease was granted since the validation.

The deadline guards against expiration and nothing else. A cancellation, a
refresh that moves the expiration forward, the deletion of the row by another
commit of the same token, an overlapping request that the `LIKE` test misses and
a signing step that outlasts the safety margin all get past it
(`publication_after_cancel` is one such run). `safe_of_undisturbed` shows that
the check suffices once those are kept away from commits in flight.
-/

namespace Cvmfs.Gateway

open Cvmfs.Lib List

/-- What must hold when an event publishes a merge: the row of the commit's
lease exists, and no rival of it was granted since the validation. -/
def SafePublication (s : State) : Event → Prop
  | .publish id _ => ∀ c m, s.commit id = some c → c.phase = .checked m →
    (∃ l ∈ s.store.leases.rows, l.token = c.lease.token) ∧
    ∀ g ∈ s.granted.drop c.since, ¬ Rival g c.lease
  | _ => True

def Commit.InFlight (c : Commit) : Prop := c.phase ≠ .published

instance (c : Commit) : Decidable c.InFlight := inferInstanceAs (Decidable (¬ _))

/-- An event leaves the leases of the commits in flight alone, and a publication
follows its deadline check within the safety margin. -/
def Undisturbed (cfg : Config) (s : State) : Event → Prop
  | .newLease r _ => ∀ repo path, splitLeasePath r.leasePath = .ok (repo, path) →
    ∀ c ∈ s.commits, c.InFlight → c.lease.repository = repo → Overlap c.lease.path path →
      s.store.leases.Comparable path ∧ (c.lease.path <+: path ∨ path <+: c.lease.path)
  | .refreshLease token requested _ tRenew =>
    ∀ c ∈ s.commits, c.InFlight → c.lease.token = token →
      c.lease.expirationMilli ≤ unixMilli (tRenew + extension cfg requested)
  | .cancelLeases repoPath => ∀ repo path, splitLeasePath repoPath = .ok (repo, path) →
    ∀ c ∈ s.commits, c.InFlight → cfg.same c.lease.repository repo = true →
      likePrefix path c.lease.path = false
  | .cancelLease token => ∀ c ∈ s.commits, c.InFlight → c.lease.token ≠ token
  | .finish id => ∀ d, s.commit id = some d → d.phase = .published →
    ∀ c ∈ s.commits, c.InFlight → c.lease.token ≠ d.lease.token
  | .publish id t => ∀ c m, s.commit id = some c → c.phase = .checked m →
    t ≤ m + cfg.commitLeaseExpiryMargin
  | _ => True

/-- The lease of a commit is still in the table, not shortened, and without a
rival since its validation. -/
structure Protected (s : State) (c : Commit) : Prop where
  row : ∃ l ∈ s.store.leases.rows, l.token = c.lease.token ∧
    l.repository = c.lease.repository ∧ l.path = c.lease.path ∧
    c.lease.expirationMilli ≤ l.expirationMilli
  unrivalled : ∀ g ∈ s.granted.drop c.since, ¬ Rival g c.lease

variable {s s' : State} {c c' : Commit}

section

variable (h : Protected s c)
include h

theorem Protected.congr (hl : s'.store.leases = s.store.leases)
    (hg : s'.granted = s.granted) (hc : c'.lease = c.lease) (hs : c'.since = c.since) :
    Protected s' c' := by
  obtain ⟨hrow, hun⟩ := h
  exact ⟨by rw [hl, hc]; exact hrow, by rw [hg, hc, hs]; exact hun⟩

theorem Protected.keep {cond} (hl : s'.store.leases = s.store.leases.keep cond)
    (hg : s'.granted = s.granted)
    (hcond : ∀ l : Lease, l.token = c.lease.token → l.repository = c.lease.repository →
      l.path = c.lease.path → cond l = true) : Protected s' c := by
  obtain ⟨⟨l, hm, ht, hr, hp, he⟩, hun⟩ := h
  refine ⟨⟨l, ?_, ht, hr, hp, he⟩, by rw [hg]; exact hun⟩
  rw [hl]
  exact LeaseTable.mem_keep.mpr ⟨hm, hcond l ht hr hp⟩

variable {cfg : Config}

/-- A lease is granted before the commit's lease expires: its row survives the
deletion of expired leases, and the new lease does not overlap it. -/
theorem Protected.newLease {r clock store lease} (hc : c ∈ s.commits) (hfl : c.InFlight)
    (hun : Undisturbed cfg s (.newLease r clock))
    (hclock : (Event.newLease r clock).Clocked s.now)
    (hnew : newLease cfg s.store r clock = .ok (store, lease))
    (hlate : clock.create < c.lease.expiration) :
    Protected { s with store := store, now := clock.create, granted := s.granted ++ [lease] } c := by
  obtain ⟨repo, path, hsplit, rfl, hfree, -, hrows⟩ := newLease_ok hnew
  obtain ⟨hread, -, hdc⟩ := hclock
  obtain ⟨⟨l, hm, ht, hr, hp, he⟩, hnone⟩ := h
  have hle : c.lease.expiration ≤ l.expiration := by
    unfold Lease.expiration
    omega
  refine ⟨⟨l, ?_, ht, hr, hp, he⟩, ?_⟩
  · rw [hrows]
    exact .tail _ (LeaseTable.mem_deleteAllExpiredLeases hm (by omega))
  intro g hg hrival
  rw [drop_append, mem_append] at hg
  rcases hg with hg | hg
  · exact hnone g hg hrival
  obtain rfl := mem_singleton.mp (mem_of_mem_drop hg)
  obtain ⟨hcomparable, hspelled⟩ :=
    hun repo path hsplit c hc hfl hrival.repository_eq.symm hrival.overlap.symm
  have hrepo : l.repository = repo := hr.trans hrival.repository_eq.symm
  -- the loop of `NewLease` saw the row while it still had time left
  obtain ⟨i, hi⟩ := mem_iff_getElem?.mp (mem_overlapping cfg hm hcomparable (hp ▸ hspelled))
  rw [hrepo] at hi
  have h1 := hfree i l hi
  have h2 := (hread i).2.2
  omega

theorem Protected.refresh {token expiration}
    (hl : s'.store.leases = s.store.leases.updateLeaseExpirationByToken token expiration)
    (hg : s'.granted = s.granted)
    (hlong : c.lease.token = token → c.lease.expirationMilli ≤ unixMilli expiration) :
    Protected s' c := by
  obtain ⟨⟨l, hm, ht, hr, hp, he⟩, hun⟩ := h
  refine ⟨⟨if l.token = token then { l with expirationMilli := unixMilli expiration } else l,
    ?_, ?_⟩, by rw [hg]; exact hun⟩
  · rw [hl]
    exact mem_map_of_mem hm
  by_cases hlt : l.token = token
  · rw [if_pos hlt]
    exact ⟨ht, hr, hp, hlong (ht.symm.trans hlt)⟩
  · rw [if_neg hlt]
    exact ⟨ht, hr, hp, he⟩

variable {e : Event}

/-- One event keeps the lease of a commit in flight protected, until the lease
expires. -/
theorem Protected.step (hc : c ∈ s.commits) (hfl : c.InFlight) (hun : Undisturbed cfg s e)
    (hclock : e.Clocked s.now)
    (hlate : (next cfg s e).now < c.lease.expiration) : Protected (next cfg s e) c := by
  cases e with
  | newLease r clock =>
    simp only [next] at hlate ⊢
    split at hlate
    · exact h.congr rfl rfl rfl rfl
    · rename_i hnew
      exact h.newLease hc hfl hun hclock hnew hlate
  | refreshLease token requested tCheck tRenew =>
    simp only [next, refreshLease]
    cases validLease s.store.leases token tCheck with
    | error err => exact h.congr rfl rfl rfl rfl
    | ok lease => exact h.refresh rfl rfl (hun c hc hfl)
  | cancelLeases repoPath =>
    simp only [next, cancelLeases]
    cases hsplit : splitLeasePath repoPath with
    | error message => exact h
    | ok res =>
      obtain ⟨repo, path⟩ := res
      dsimp only [LeaseTable.deleteAllLeasesByRepositoryAndPathPrefix]
      split_ifs
      · exact h
      refine h.keep rfl rfl ?_
      intro l _ hr hp
      by_cases hrepo : cfg.same c.lease.repository repo = true
      · simp [hp, hun repo path hsplit c hc hfl hrepo]
      · simp [hr, hrepo]
  | cancelLease token =>
    simp only [next, cancelLease]
    cases s.store.leases.findLeaseByToken token with
    | none => exact h
    | some lease =>
      refine h.keep rfl rfl ?_
      intro l ht _ _
      simpa [ht] using hun c hc hfl
  | finish id =>
    simp only [next]
    cases hd : s.commit id with
    | none => exact h
    | some d =>
      dsimp only
      split
      · rename_i hpub
        refine h.keep rfl rfl ?_
        intro l ht _ _
        simpa [ht] using hun d hd hpub c hc hfl
      · exact h
  | tick t | fail id => exact h.congr rfl rfl rfl rfl
  | validate id token t =>
    simp only [next]
    split <;> exact h.congr rfl rfl rfl rfl
  | acquire id | check id t | publish id t =>
    simp only [next]
    (repeat' split) <;> exact h.congr rfl rfl rfl rfl

end

/-! ## Where commits come from -/

/-- `c'` is the commit `c` at the same or a later stage; if it has passed the
deadline check, the check is old or has just compared the clock. -/
structure Commit.Continues (cfg : Config) (c c' : Commit) : Prop where
  lease_eq : c'.lease = c.lease
  since_eq : c'.since = c.since
  inFlight : c'.InFlight → c.InFlight
  checked : ∀ m, c'.phase = .checked m → c.phase = .checked m ∨ unix m < unix (c.deadline cfg)

theorem Commit.Continues.refl (c : Commit) : c.Continues cfg c :=
  ⟨rfl, rfl, fun h => h, fun _ h => .inl h⟩

theorem continues_of_drop {id} (h : c' ∈ (s.drop id).commits) :
    ∃ c ∈ s.commits, c.Continues cfg c' :=
  ⟨c', mem_of_mem_filter h, .refl _⟩

theorem continues_of_setPhase {phase} (h : c' ∈ (s.setPhase c phase).commits)
    (hphase : c.Continues cfg { c with phase := phase }) : ∃ c ∈ s.commits, c.Continues cfg c' := by
  obtain ⟨d, hd, rfl⟩ := mem_map.mp h
  refine ⟨d, hd, ?_⟩
  split
  · rename_i hdc
    exact hdc ▸ hphase
  · exact .refl _

/-- **Commit inversion.** Every commit of a state was there before the event, at
the same or an earlier stage, or has just been validated. -/
theorem next_commits (h : c' ∈ (next cfg s e).commits) :
    (∃ c ∈ s.commits, c.Continues cfg c') ∨
    ∃ id token t lease, e = .validate id token t ∧ validLease s.store.leases token t = .ok lease ∧
      next cfg s e = { s with
        now := t, commits := ⟨id, lease, s.granted.length, .waiting⟩ :: s.commits } ∧
      c' = ⟨id, lease, s.granted.length, .waiting⟩ := by
  have old : ∀ {c : Commit}, c ∈ s.commits → ∃ c₀ ∈ s.commits, c₀.Continues cfg c :=
    fun hc => ⟨_, hc, .refl _⟩
  cases e with
  | tick t => exact .inl (old h)
  | newLease r clock | refreshLease token requested tCheck tRenew | cancelLeases repoPath
  | cancelLease token =>
    simp only [next] at h
    split at h <;> exact .inl (old h)
  | validate id token t =>
    simp only [next] at h ⊢
    split at h
    · rename_i lease hvalid hnone
      rcases mem_cons.mp h with rfl | h
      · exact .inr ⟨id, token, t, lease, rfl, hvalid, rfl, rfl⟩
      · exact .inl (old h)
    · exact .inl (old h)
  | acquire id =>
    simp only [next] at h
    split at h
    · rename_i c hc
      split at h
      · split at h
        · exact .inl (continues_of_drop h)
        rename_i hw _ _ _
        refine .inl (continues_of_setPhase h ⟨rfl, rfl, fun _ => ?_, by simp⟩)
        simp only [Bool.and_eq_true, decide_eq_true_eq] at hw
        simp [Commit.InFlight, hw.1]
      · exact .inl (old h)
    · exact .inl (old h)
  | check id t =>
    simp only [next] at h
    split at h
    · rename_i c hc
      split at h
      · rename_i hrec
        split at h
        · exact .inl (continues_of_drop h)
        rename_i hdl
        refine .inl (continues_of_setPhase h ⟨rfl, rfl, fun _ => ?_, ?_⟩)
        · simp [Commit.InFlight, hrec]
        · intro m hm
          cases hm
          exact .inr (by omega)
      · exact .inl (old h)
    · exact .inl (old h)
  | publish id t =>
    simp only [next] at h
    split at h
    · split at h
      · exact .inl (continues_of_setPhase h ⟨rfl, rfl, fun hf => absurd rfl hf, by simp⟩)
      · exact .inl (old h)
    · exact .inl (old h)
  | finish id =>
    simp only [next] at h
    split at h
    · split at h
      · exact .inl (continues_of_drop h)
      · exact .inl (old h)
    · exact .inl (old h)
  | fail id => exact .inl (continues_of_drop h)

/-! ## The invariant of guarded runs -/

structure PublicationInv (cfg : Config) (s : State) : Prop where
  guarded : ∀ c ∈ s.commits, c.InFlight → s.now < c.lease.expiration → Protected s c
  beforeDeadline : ∀ c ∈ s.commits, ∀ m, c.phase = .checked m → m < c.deadline cfg

theorem lt_of_unix_lt {a b} (h : unix a < unix b) : a < b := by
  unfold unix at h
  omega

theorem PublicationInv.step (h : PublicationInv cfg s) (hun : Undisturbed cfg s e)
    (hclock : e.Clocked s.now) : PublicationInv cfg (next cfg s e) := by
  refine ⟨?_, ?_⟩
  · intro c' hc' hfl hlate
    rcases next_commits hc' with ⟨c, hc, hcont⟩ | ⟨id, token, t, lease, rfl, hvalid, hnext, rfl⟩
    · have hnow := next_now cfg hclock
      rw [hcont.lease_eq] at hlate
      have hp := h.guarded c hc (hcont.inFlight hfl) (by omega)
      have hp' := hp.step hc (hcont.inFlight hfl) hun hclock hlate
      exact hp'.congr rfl rfl hcont.lease_eq hcont.since_eq
    · obtain ⟨hm, -, -⟩ := validLease_ok.mp hvalid
      rw [hnext]
      refine ⟨⟨lease, hm, rfl, rfl, rfl, Int.le_refl _⟩, ?_⟩
      intro g hg
      simp at hg
  intro c' hc' m hm
  rcases next_commits hc' with ⟨c, hc, hcont⟩ | ⟨id, token, t, lease, rfl, -, -, rfl⟩
  · have hdl : c'.deadline cfg = c.deadline cfg := by
      rw [Commit.deadline, Commit.deadline, hcont.lease_eq]
    rw [hdl]
    rcases hcont.checked m hm with hm' | hm'
    · exact h.beforeDeadline c hc m hm'
    · exact lt_of_unix_lt hm'
  · cases hm

/-- **No lost update.** In every interleaving that leaves the leases of the
commits in flight alone and publishes within the safety margin of the deadline
check, a merge is published only while the row of its lease exists and no
overlapping lease has been granted since the validation. -/
theorem safe_of_undisturbed (cfg : Config) {s : State} {e : Event}
    (h : (system cfg).Reach (Undisturbed cfg) s) (hun : Undisturbed cfg s e)
    (hclock : e.Clocked s.now) : SafePublication s e := by
  have hinv : PublicationInv cfg s := by
    refine h.invariant (P := PublicationInv cfg) ?_ ?_
    · rintro s ⟨now, rfl⟩
      exact ⟨nofun, nofun⟩
    · rintro s e s' hinv hun ⟨hclock, rfl⟩
      exact hinv.step hun hclock
  cases e with
  | publish id t =>
    intro c m hc hm
    have hmem : c ∈ s.commits := mem_of_find?_eq_some hc
    have hin : c.InFlight := by
      rw [Commit.InFlight, hm]
      nofun
    have hdl := hinv.beforeDeadline c hmem m hm
    have hmargin := hun c m hc hm
    have hnow : s.now ≤ t := hclock
    have hlate : s.now < c.lease.expiration := by
      unfold Commit.deadline at hdl
      omega
    obtain ⟨⟨l, hl, ht, -⟩, hnone⟩ := hinv.guarded c hmem hin hlate
    exact ⟨⟨l, hl, ht⟩, hnone⟩
  | _ => trivial

/-! ## Runs of one commit -/

/-- A lease on `r/a` is granted and its commit reaches the receiver. -/
def commitStarted : List Event :=
  [.newLease (request "A" "r/a") (.all 0), .validate 0 "A".toList 0, .acquire 0]

theorem safe_undisturbed_commit :
    ∃ s, (s.commit 0).map Commit.phase = some (.checked 5) ∧ SafePublication s (.publish 0 7) := by
  have hrun : Admitted openConfig (Undisturbed openConfig) (.start 0)
      (commitStarted ++ [.check 0 5]) := by
    refine ⟨?_, clocked_all (Int.le_refl _) _, trivial, Int.le_refl _, trivial, trivial, trivial,
      show (0 : Int) ≤ 5 by decide, trivial⟩
    rintro _ _ ⟨⟩
    exact nofun
  refine ⟨_, ?_, safe_of_undisturbed openConfig (reach_run (.init ⟨0, rfl⟩) hrun) ?_
    (show (5 : Int) ≤ 7 by decide)⟩
  · rfl
  intro c m hc hm
  cases hc
  cases hm
  decide

/-- The lease is cancelled and given to another token while its commit is with
the receiver; the deadline check passes all the same. -/
theorem publication_after_cancel :
    let es := commitStarted ++ [.cancelLease "A".toList,
      .newLease (request "B" "r/a") (.all 1), .check 0 2]
    Admitted openConfig System.anyStep (.start 0) (es ++ [.publish 0 3]) ∧
      ¬ SafePublication (run openConfig (.start 0) es) (.publish 0 3) := by
  refine ⟨⟨trivial, clocked_all (Int.le_refl _) _, trivial, Int.le_refl _, trivial, trivial,
    trivial, trivial, trivial, clocked_all (show (0 : Int) ≤ 1 by decide) _, trivial,
    show (1 : Int) ≤ 2 by decide, trivial, show (2 : Int) ≤ 3 by decide, trivial⟩, ?_⟩
  intro hsafe
  obtain ⟨⟨l, hl, ht⟩, -⟩ := hsafe _ 2 rfl rfl
  obtain rfl := mem_singleton.mp hl
  exact absurd ht (by decide)

end Cvmfs.Gateway
