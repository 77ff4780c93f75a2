import Mathlib.Data.List.TakeWhile
import Cvmfs.Gateway.LeasePath
import Mathlib.Data.List.Nodup

/-! # The lease table and the lease services

The gateway keeps its leases in one SQL table whose key is the token. The
services on it (`NewLease`, `GetLease`, `RefreshLease`, `CancelLease`,
`CancelLeases` and the two table accesses of a commit) each run under one
mutex, so here they are functions on the pair of the table and the statistics
manager. Every `time.Now()` of the source is a reading passed in by the
caller: an operation that reads the clock several times has several readings.

Moments and durations are integers, in nanoseconds. The table stores milliseconds, so an
expiration is rounded down when it is written (`unixMilli`).
-/

namespace Cvmfs.Gateway

open List

def unixMilli (t : Int) : Int := t / 1000000

def unix (t : Int) : Int := t / 1000000000

/-- A row of the `Lease` table; `expirationMilli` is its integer column. -/
structure Lease where
  token : Text
  repository : Text
  path : Text
  keyID : Text
  expirationMilli : Int
  protocolVersion : Int
  hostname : Text
  deriving DecidableEq

/-- `Lease.Expiration` as `scanLease` reads it back. -/
def Lease.expiration (l : Lease) : Int := l.expirationMilli * 1000000

def Lease.combinedLeasePath (l : Lease) : Text :=
  l.repository ++ '/' :: (if l.path.head? = some '/' then l.path.drop 1 else l.path)

/-- The `Lease` table. Its primary key makes the tokens distinct. -/
structure LeaseTable where
  rows : List Lease
  tokens_nodup : (rows.map Lease.token).Nodup

namespace LeaseTable

def empty : LeaseTable := ⟨[], nodup_nil⟩

/-- The rows that meet a condition: what every `delete` statement leaves. -/
def keep (t : LeaseTable) (cond : Lease → Bool) : LeaseTable :=
  ⟨t.rows.filter cond, t.tokens_nodup.sublist (filter_sublist.map _)⟩

def findLeaseByToken (t : LeaseTable) (token : Text) : Option Lease :=
  t.rows.find? (·.token == token)

/-- The rows of a repository. Its column is declared `string`, no type name that SQLite knows: it
has numeric affinity, and texts that read as the same number are equal. The result ends before a
row for which `LIKE` fails, and nobody looks for the error. -/
def findAllLeasesByRepositoryAndOverlappingPath (t : LeaseTable) (same : Text → Text → Bool)
    (repository path : Text) : List Lease :=
  ((t.rows.filter fun l => same l.repository repository).takeWhile fun l =>
    !likeFails l.path path).filter fun l => pathConflict l.path path

/-- No pattern is too long. -/
def Comparable (t : LeaseTable) (path : Text) : Prop :=
  tooComplex path = false ∧ ∀ l ∈ t.rows, tooComplex l.path = false

theorem findAll_of_comparable {t : LeaseTable} {path} (h : t.Comparable path)
    (same : Text → Text → Bool) (repository : Text) :
    t.findAllLeasesByRepositoryAndOverlappingPath same repository path =
      t.rows.filter fun l => same l.repository repository && pathConflict l.path path := by
  have hall : ∀ l ∈ t.rows.filter fun l => same l.repository repository,
      (!likeFails l.path path) = true := fun l hl => by
    simp [likeFails, h.1, h.2 l (mem_of_mem_filter hl)]
  rw [findAllLeasesByRepositoryAndOverlappingPath, takeWhile_eq_self_iff.2 hall, filter_filter]
  exact filter_congr fun l _ => Bool.and_comm ..

def deleteAllExpiredLeases (t : LeaseTable) (t0 : Int) : LeaseTable :=
  t.keep fun l => !(l.expirationMilli < unixMilli t0)

def deleteAllLeasesByRepositoryAndPathPrefix (t : LeaseTable) (same : Text → Text → Bool)
    (repo path : Text) : Option LeaseTable :=
  if tooComplex path && t.rows.any fun l => same l.repository repo then none
  else some (t.keep fun l => !(same l.repository repo && likePrefix path l.path))

def deleteLeaseByToken (t : LeaseTable) (token : Text) : LeaseTable :=
  t.keep (·.token != token)

def createLease (t : LeaseTable) (lease : Lease) : Option LeaseTable :=
  if h : lease.token ∈ t.rows.map Lease.token then none
  else some ⟨lease :: t.rows, by simpa using ⟨by simpa using h, t.tokens_nodup⟩⟩

def updateLeaseExpirationByToken (t : LeaseTable) (token : Text) (expiration : Int) :
    LeaseTable :=
  ⟨t.rows.map fun l =>
      if l.token = token then { l with expirationMilli := unixMilli expiration } else l, by
    have : (Lease.token ∘ fun l : Lease =>
        if l.token = token then { l with expirationMilli := unixMilli expiration } else l)
          = Lease.token := by
      funext l
      by_cases h : l.token = token <;> simp [h]
    rw [map_map, this]
    exact t.tokens_nodup⟩

end LeaseTable

/-! ## The services -/

theorem beq_repository (repo : Text) : (repo == repo) = true := BEq.rfl

/-- The settings of the gateway that the lease services read. `repoEnabled` is
the `Repository` table (`none`: no such repository), `access` the access
configuration's verdict on a key, a sub path and a repository, and `same` how
the database compares repositories. -/
structure Config where
  maxLeaseTime : Int
  leaseRefreshTime : Int
  commitLeaseExpiryMargin : Int
  repoEnabled : Text → Option Bool
  access : Text → Text → Text → Bool
  same : Text → Text → Bool := (· == ·)
  same_self : ∀ repo, same repo repo = true := by exact beq_repository

inductive ServiceError where
  | invalidPath (message : String)
  | repositoryNotFound (repo : Text)
  | repoDisabled
  | accessDenied
  | pathBusy (remaining : Int)
  | tokenTaken
  | invalidLease
  | noStatistics (leasePath : Text)
  | queryFailed
  deriving DecidableEq

/-- The state the lease mutex protects, with the keys of the statistics
manager's map. -/
structure Store where
  leases : LeaseTable
  stats : List Text

def popLease (stats : List Text) (leasePath : Text) : Option (List Text) :=
  if leasePath ∈ stats then some (stats.filter (· ≠ leasePath)) else none

def createStatistics (stats : List Text) (leasePath : Text) : Option (List Text) :=
  if leasePath ∈ stats then none else some (leasePath :: stats)

structure LeaseRequest where
  keyID : Text
  leasePath : Text
  hostname : Text
  protocolVersion : Int
  token : Text

/-- The clock readings of one `NewLease`: one per overlapping row, one for the
deletion of the expired leases, one for the new expiration. -/
structure LeaseReadings where
  check : Nat → Int
  delete : Int
  create : Int

/-- The loop over the overlapping leases: the first one with time left, where
`check i` is the reading of the `i`-th round. -/
def firstBusy (check : Nat → Int) : Nat → List Lease → Option Int
  | _, [] => none
  | i, l :: ls =>
    let timeLeft := l.expiration - check i
    if timeLeft > 0 then some timeLeft else firstBusy check (i + 1) ls

def LeaseRequest.lease (cfg : Config) (r : LeaseRequest) (repo path : Text) (now : Int) : Lease where
  token := r.token
  repository := repo
  path := path
  keyID := r.keyID
  expirationMilli := unixMilli (now + cfg.maxLeaseTime)
  protocolVersion := r.protocolVersion
  hostname := r.hostname

def newLease (cfg : Config) (s : Store) (r : LeaseRequest) (clock : LeaseReadings) :
    Except ServiceError (Store × Lease) :=
  match splitLeasePath r.leasePath with
  | .error message => .error (.invalidPath message)
  | .ok (repo, path) =>
    match cfg.repoEnabled repo with
    | none => .error (.repositoryNotFound repo)
    | some false => .error .repoDisabled
    | some true =>
      if cfg.access r.keyID path repo = false then .error .accessDenied else
      let leases := s.leases.findAllLeasesByRepositoryAndOverlappingPath cfg.same repo path
      match firstBusy clock.check 0 leases with
      | some timeLeft => .error (.pathBusy timeLeft)
      | none =>
        let lease := r.lease cfg repo path clock.create
        match (s.leases.deleteAllExpiredLeases clock.delete).createLease lease with
        | none => .error .tokenTaken
        | some table =>
          -- the statistics of an expired lease on the same path are dropped
          let stats := (popLease s.stats lease.combinedLeasePath).getD s.stats
          match createStatistics stats lease.combinedLeasePath with
          | none => .error (.noStatistics lease.combinedLeasePath)
          | some stats => .ok (⟨table, stats⟩, lease)

/-- The lookup and the expiration test that `GetLease`, `RefreshLease` and
`commitLease` make before they accept a token. -/
def validLease (t : LeaseTable) (token : Text) (now : Int) : Except ServiceError Lease :=
  match t.findLeaseByToken token with
  | none => .error .invalidLease
  | some lease => if lease.expiration < now then .error .invalidLease else .ok lease

def extension (cfg : Config) (requestedExtension : Int) : Int :=
  let extension := if requestedExtension ≤ 0 then cfg.leaseRefreshTime else requestedExtension
  if extension > cfg.maxLeaseTime then cfg.maxLeaseTime else extension

/-- `Services.RefreshLease`; it reads the clock at `check` for the validity of
the lease and at `renew` for its new expiration. -/
def refreshLease (cfg : Config) (s : Store) (token : Text) (requestedExtension check renew : Int) :
    Except ServiceError Store :=
  match validLease s.leases token check with
  | .error e => .error e
  | .ok _ =>
    let newExpiration := renew + extension cfg requestedExtension
    .ok { s with leases := s.leases.updateLeaseExpirationByToken token newExpiration }

def cancelLeases (cfg : Config) (s : Store) (repoPath : Text) : Except ServiceError Store :=
  match splitLeasePath repoPath with
  | .error message => .error (.invalidPath message)
  | .ok (repo, path) =>
    match s.leases.deleteAllLeasesByRepositoryAndPathPrefix cfg.same repo path with
    | none => .error .queryFailed
    | some leases => .ok { s with leases }

def cancelLease (s : Store) (token : Text) : Except ServiceError Store :=
  match s.leases.findLeaseByToken token with
  | none => .error .invalidLease
  | some lease => .ok {
      leases := s.leases.deleteLeaseByToken token
      stats := (popLease s.stats lease.combinedLeasePath).getD s.stats }

/-! ## What the table operations and the services do -/

namespace LeaseTable

variable {t t' : LeaseTable} {l lease : Lease} {token : Text}

theorem mem_keep {cond} : l ∈ (t.keep cond).rows ↔ l ∈ t.rows ∧ cond l = true :=
  mem_filter

theorem mem_of_findLeaseByToken (h : t.findLeaseByToken token = some l) :
    l ∈ t.rows ∧ l.token = token :=
  ⟨mem_of_find?_eq_some h, by simpa using find?_some h⟩

theorem eq_of_token_eq (hl : l ∈ t.rows) (hk : lease ∈ t.rows) (h : l.token = lease.token) :
    l = lease :=
  inj_on_of_nodup_map t.tokens_nodup hl hk h

theorem findLeaseByToken_of_mem (h : l ∈ t.rows) : t.findLeaseByToken l.token = some l := by
  cases hf : t.findLeaseByToken l.token with
  | none =>
    have := find?_eq_none.mp hf l h
    simp at this
  | some k =>
    obtain ⟨hk, hkt⟩ := mem_of_findLeaseByToken hf
    rw [eq_of_token_eq hk h hkt]

theorem createLease_some (h : t.createLease lease = some t') :
    lease.token ∉ t.rows.map Lease.token ∧ t'.rows = lease :: t.rows := by
  unfold createLease at h
  split at h
  · cases h
  · rename_i hn
    cases h
    exact ⟨hn, rfl⟩

theorem mem_updateLeaseExpirationByToken {expiration}
    (h : l ∈ (t.updateLeaseExpirationByToken token expiration).rows) :
    ∃ k ∈ t.rows, l = if k.token = token then
      { k with expirationMilli := unixMilli expiration } else k := by
  obtain ⟨k, hk, rfl⟩ := mem_map.mp h
  exact ⟨k, hk, rfl⟩

end LeaseTable

theorem firstBusy_none {check ls i} :
    firstBusy check i ls = none ↔ ∀ j l, ls[j]? = some l → l.expiration ≤ check (i + j) := by
  induction ls generalizing i with
  | nil => simp [firstBusy]
  | cons k ks ih =>
    simp only [firstBusy]
    split
    next hk =>
      refine iff_of_false (by simp) fun h => ?_
      have := h 0 k rfl
      rw [Nat.add_zero] at this
      omega
    next hk =>
      rw [ih]
      constructor
      · intro h j l hl
        cases j with
        | zero =>
          cases hl
          rw [Nat.add_zero]
          omega
        | succ j => exact Nat.add_right_comm i j 1 ▸ h j l hl
      · exact fun h j l hl => Nat.add_right_comm i 1 j ▸ h (j + 1) l hl

/-- **What a granted lease implies**: every overlapping lease the query found
had no time left at the reading of its round, and the table gains the new row
and loses only expired ones. -/
theorem newLease_ok {cfg s s' r clock lease} (h : newLease cfg s r clock = .ok (s', lease)) :
    ∃ repo path, splitLeasePath r.leasePath = .ok (repo, path) ∧
      lease = r.lease cfg repo path clock.create ∧
      (∀ i l, (s.leases.findAllLeasesByRepositoryAndOverlappingPath cfg.same repo path)[i]? = some l →
        l.expiration ≤ clock.check i) ∧
      lease.token ∉ (s.leases.deleteAllExpiredLeases clock.delete).rows.map Lease.token ∧
      s'.leases.rows = lease :: (s.leases.deleteAllExpiredLeases clock.delete).rows := by
  unfold newLease at h
  split at h
  · cases h
  rename_i repo path hsplit
  split at h
  · cases h
  · cases h
  split at h
  · cases h
  dsimp only at h
  split at h
  · cases h
  rename_i hbusy
  split at h
  · cases h
  rename_i table hcreate
  split at h
  · cases h
  cases h
  obtain ⟨hfresh, hrows⟩ := LeaseTable.createLease_some hcreate
  refine ⟨repo, path, hsplit, rfl, ?_, hfresh, hrows⟩
  intro i l hl
  simpa using firstBusy_none.mp hbusy i l hl

theorem validLease_ok {t token now lease} : validLease t token now = .ok lease ↔
      lease ∈ t.rows ∧ lease.token = token ∧ now ≤ lease.expiration := by
  unfold validLease
  constructor
  · intro h
    split at h
    · cases h
    rename_i k hk
    split at h
    · cases h
    · cases h
      obtain ⟨hm, ht⟩ := LeaseTable.mem_of_findLeaseByToken hk
      exact ⟨hm, ht, by omega⟩
  · rintro ⟨hm, rfl, hle⟩
    rw [LeaseTable.findLeaseByToken_of_mem hm]
    simp only [ite_eq_right_iff]
    omega

theorem LeaseTable.mem_deleteAllExpiredLeases {t : LeaseTable} {t0 : Int} {l : Lease}
    (hl : l ∈ t.rows) (h : t0 ≤ l.expiration) : l ∈ (t.deleteAllExpiredLeases t0).rows := by
  refine LeaseTable.mem_keep.mpr ⟨hl, ?_⟩
  simp only [Bool.not_eq_true', decide_eq_false_iff_not, Int.not_lt]
  unfold Lease.expiration at h
  unfold unixMilli
  omega

end Cvmfs.Gateway
