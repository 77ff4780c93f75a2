import Cvmfs.Client.RootCatalog

/-! # Clients do not go back

The mounted hash and revision belong to one published catalog, and a breadcrumb that is valid
names a published catalog with its revision or with none. A breadcrumb without a revision is
never newer than what is mounted, so that the proposal is consistent. The revision that stands
for no revision is the one exception: once it is mounted, any manifest is newer. -/

namespace Cvmfs.Client

open Crypto Breadcrumb ClientCatalogManager
open Lib (System)
open Remount (LoadReturn)

variable {repo : Repository} {c : ClientCatalogManager} {servers : Servers}

/-! ## Manifests and breadcrumbs -/

variable {m : Manifest} {minimum : Nat}

theorem doFetch_ok {a : Answer} (h : doFetch minimum a = .ok m) :
    a = .manifest m ∧ minimum ≤ m.publishTimestamp := by
  cases a with
  | manifest m' =>
    simp only [doFetch] at h
    split at h
    · cases h
    · cases h
      exact ⟨rfl, by omega⟩
  | load | invalidCertificate | refused => cases h

theorem Servers.Publish.fetch (h : servers.Publish repo)
    (hf : servers.fetch minimum = .ok m) : repo.Has m := by
  unfold Servers.fetch at hf
  split at hf
  · rename_i next _ hnext
    exact h.2 m (hnext.trans (congrArg some (doFetch_ok hf).1))
  · exact h.1 m (doFetch_ok hf).1

theorem Repository.Has.revision_lt (h : repo.Has m) : m.revision < 2 ^ 64 := by
  rw [h.revision]
  exact repo.revision_lt _

/-- The breadcrumb file comes from a published manifest. -/
inductive Repository.Left (repo : Repository) : Option Bytes → Prop
  | nothing : Left repo none
  | withRevision (m : Manifest) (hm : repo.Has m) :
      Left repo (some (crumb m).toString)
  | withoutRevision (m : Manifest) (hm : repo.Has m) :
      Left repo (some (crumb m).toStringWithoutRevision)

theorem Repository.Left.read {file : Option Bytes} (h : repo.Left file)
    (hv : (read file).isValid = true) : repo.published (read file).catalogHash ∧
      ((read file).revision = repo.revision (read file).catalogHash ∨
        (Breadcrumb.read file).revision = 0) := by
  cases h with
  | nothing => simp [Breadcrumb.read, Breadcrumb.isValid] at hv
  | withRevision m hm =>
    have hread := Breadcrumb.read_toString (b := crumb m)
      (repo.hashed _ hm.published).1 hm.timestamp hm.revision_lt
    rw [hread]
    exact ⟨hm.published, .inl hm.revision⟩
  | withoutRevision m hm =>
    have hread := read_toStringWithoutRevision (b := crumb m)
      (repo.hashed _ hm.published).1 hm.timestamp
    rw [hread]
    exact ⟨hm.published, .inr rfl⟩

/-! ## The invariant -/

structure Consistent (repo : Repository) (c : ClientCatalogManager) : Prop where
  mounted : ∀ h ∈ c.mounted, repo.published h ∧ c.revision = repo.revision h
  breadcrumb : repo.Left c.breadcrumb

/-- A hash and a revision of one published root catalog. -/
def Repository.Names (repo : Repository) (h : Any) (revision : Nat) : Prop :=
  repo.published h ∧ revision = repo.revision h

namespace ClientCatalogManager

/-- What is newest without the server: the mounted catalog, or a newer one from the breadcrumb. -/
theorem localNewest_cases (hc : Consistent repo c) {mounted : Any} (hm : c.mounted = some mounted) :
    let b := read c.breadcrumb
    let newest := c.localNewest b
    (newest.hash = mounted ∧ newest.revision = c.revision ∧ newest.code = .up2Date) ∨
    (b.isValid = true ∧ newest.hash = b.catalogHash ∧ newest.revision = b.revision ∧
      newest.code = .new ∧ c.revision < newest.revision ∧
      repo.Names newest.hash newest.revision) := by
  intro b newest
  have hdef : newest = c.localNewest b := rfl
  unfold localNewest at hdef
  simp only [hm] at hdef
  split at hdef
  · rw [hdef]
    exact .inl ⟨rfl, rfl, rfl⟩
  rename_i hnewer
  rw [not_or, not_le] at hnewer
  split at hdef
  · rw [hdef]
    exact .inl ⟨rfl, rfl, rfl⟩
  have hvalid : b.isValid = true := by
    by_contra hv
    simp [fromBreadcrumb, hv] at hnewer
  have hfound : fromBreadcrumb b = ⟨b.catalogHash, b.timestamp, b.revision, .breadcrumb, .new⟩ := by
    simp [fromBreadcrumb, hvalid]
  rw [hfound] at hdef hnewer
  obtain ⟨hpub, hrev⟩ := hc.breadcrumb.read hvalid
  -- a breadcrumb without revision is not newer than the mounted catalog
  have hrev : b.revision = repo.revision b.catalogHash :=
    hrev.resolve_right fun h0 => absurd hnewer.1 (by simp [b, h0])
  rw [hdef]
  exact .inr ⟨hvalid, rfl, rfl, rfl, hnewer.1, hpub, hrev⟩

/-- A proposal, compared with the mounted catalog. -/
structure Proper (repo : Repository) (c : ClientCatalogManager) (mounted : Any)
    (p : LoadReturn × CatalogContext) : Prop where
  found : p.1 ≠ .fail
  names : repo.Names p.2.hash p.2.revision
  newer : c.revision ≠ invalidRevision → c.revision ≤ p.2.revision
  upToDate : p.1 = .up2Date → p.2.hash = mounted

/-- **One proposal.** -/
theorem getNewRootCatalogContext_proper (hc : Consistent repo c) {mounted : Any}
    (hm : c.mounted = some mounted) (hs : servers.Publish repo) :
    Proper repo c mounted (c.getNewRootCatalogContext servers) := by
  have hcases := localNewest_cases hc hm
  have hmounted := hc.mounted mounted hm
  unfold getNewRootCatalogContext
  simp only [hm, Option.getD_some] at hcases ⊢
  generalize c.localNewest (read c.breadcrumb) = newest at *
  have hkeep : Proper repo c mounted
      (if (read c.breadcrumb).isValid = true ∧
          (read c.breadcrumb).catalogHash = mounted then .up2Date else newest.code,
        { hash := newest.hash, revision := newest.revision, location := newest.location }) := by
    rcases hcases with ⟨hhash, hrev, hcode⟩ | ⟨hv, hhash, hrev, hcode, hlt, hnames⟩
    · refine ⟨?_, ?_, ?_, fun _ => hhash⟩
      · split <;> simp [hcode]
      · simp only [hhash, hrev]
        exact hmounted
      · intro _
        exact hrev.ge
    · refine ⟨?_, hnames, fun _ => hlt.le, ?_⟩
      · split <;> simp [hcode]
      · split
        next hsame => exact fun _ => hhash.trans hsame.2
        · simp [hcode]
  split
  · rename_i m hfetch
    have hhas := hs.fetch hfetch
    split
    · rename_i hnewer
      refine ⟨nofun, ⟨hhas.published, hhas.revision⟩, fun hne => ?_, nofun⟩
      have hle : c.revision ≤ newest.revision := by
        rcases hcases with ⟨-, hrev, -⟩ | ⟨-, -, -, -, hlt, -⟩
        · exact hrev.ge
        · exact hlt.le
      have hvalid : newest.revision ≠ invalidRevision := by
        rcases hcases with ⟨-, hrev, -⟩ | ⟨hv, -, hrev, -⟩
        · rwa [hrev]
        · simp only [Breadcrumb.isValid, Bool.and_eq_true, decide_eq_true_eq] at hv
          rw [hrev]
          exact hv.2
      rcases hnewer with hlt | hinv | ⟨h0, h0'⟩
      · exact hle.trans hlt.le
      · exact absurd hinv hvalid
      · simp only
        omega
    · exact hkeep
  · rename_i hfetch
    split
    · rename_i hnull
      have hpub : repo.published newest.hash := by
        rcases hcases with ⟨hhash, -⟩ | ⟨-, -, -, -, -, hnames⟩
        · rw [hhash]
          exact hmounted.1
        · exact hnames.1
      rw [(repo.hashed _ hpub).2] at hnull
      cases hnull
    · exact hkeep

/-! ## Runs -/

variable {loaded stored : Bool}

theorem Write.Publishes.keeps {w : Write} (hw : w.Publishes repo) (hc : Consistent repo c) :
    Consistent repo (c.write w) := by
  cases w with
  | store m withRevision =>
    cases withRevision
    · exact ⟨hc.mounted, .withoutRevision m hw⟩
    · exact ⟨hc.mounted, .withRevision m hw⟩
  | remove => exact ⟨hc.mounted, .nothing⟩

theorem foldl_write_mounted (ws : List Write) (c : ClientCatalogManager) :
    (ws.foldl write c).mounted = c.mounted := by
  induction ws generalizing c with
  | nil => rfl
  | cons w ws ih =>
    rw [List.foldl_cons, ih]
    cases w with
    | store m withRevision => cases withRevision <;> rfl
    | remove => rfl

theorem foldl_write_consistent {ws : List Write} (hw : ∀ w ∈ ws, w.Publishes repo)
    (hc : Consistent repo c) : Consistent repo (ws.foldl write c) := by
  induction ws generalizing c with
  | nil => exact hc
  | cons w ws ih =>
    obtain ⟨hhead, htail⟩ := List.forall_mem_cons.mp hw
    exact ih htail (hhead.keeps hc)

theorem getNewRootCatalogContext_manifest (hs : servers.Publish repo) {m : Manifest}
    (hm : (c.getNewRootCatalogContext servers).2.manifest = some m) : repo.Has m := by
  unfold getNewRootCatalogContext at hm
  simp only at hm
  split at hm
  next hfetch =>
    split at hm
    · cases hm
      exact hs.fetch hfetch
    · cases hm
  · split at hm <;> cases hm

section

variable (hc : Consistent repo c)
include hc

theorem attach_consistent {p : CatalogContext}
    (hp : repo.published p.hash) (hm : ∀ m, p.manifest = some m → repo.Has m) :
    Consistent repo ((c.storeBreadcrumb p stored).attach repo p.hash) := by
  refine ⟨?_, ?_⟩
  · intro h hh
    cases hh
    exact ⟨hp, rfl⟩
  simp only [attach, storeBreadcrumb]
  split
  next m hmanifest =>
    split
    · exact .withRevision m (hm m hmanifest)
    · exact hc.breadcrumb
  · exact hc.breadcrumb

theorem localNewest_unmounted (hm : c.mounted = none) :
    let newest := c.localNewest (read c.breadcrumb)
    repo.published newest.hash ∨ (newest.hash.isNull = true ∧ newest.revision = invalidRevision) := by
  simp only [localNewest, hm, fromBreadcrumb]
  split
  next hv => exact .inl (hc.breadcrumb.read hv).1
  · exact .inr ⟨by decide, rfl⟩

theorem getNewRootCatalogContext_published (hm : c.mounted = none)
    (hs : servers.Publish repo) (hcode : (c.getNewRootCatalogContext servers).1 ≠ .fail) :
    repo.published (c.getNewRootCatalogContext servers).2.hash := by
  have hfound := localNewest_unmounted hc hm
  simp only [getNewRootCatalogContext] at hcode hfound ⊢
  generalize c.localNewest (read c.breadcrumb) = newest at *
  cases hfetch : servers.fetch newest.timestamp with
  | ok m =>
    simp only
    split
    · exact (hs.fetch hfetch).published
    next hkeep => exact hfound.resolve_right fun hnone => hkeep (.inr (.inl hnone.2))
  | error f =>
    simp only [hfetch] at hcode ⊢
    split at hcode
    · exact absurd rfl hcode
    next hnull =>
      rw [if_neg hnull]
      exact hfound.resolve_right fun hnone => hnull hnone.1

theorem change_consistent {p : LoadReturn × CatalogContext} {mounted : Any}
    (hp : Proper repo c mounted p)
    (hm : ∀ m, p.2.manifest = some m → repo.Has m) :
    Consistent repo (c.change repo p.2 loaded stored) := by
  unfold change
  split
  · exact hc
  · exact attach_consistent hc hp.names.1 hm

theorem remount_consistent {first second : Servers} {between : List Write}
    (hm : c.mounted ≠ none) (hf : first.Publish repo)
    (hs : second.Publish repo) (hw : ∀ w ∈ between, w.Publishes repo) :
    Consistent repo (c.remount repo first second between loaded stored) := by
  obtain ⟨mounted, hm⟩ := Option.ne_none_iff_exists'.mp hm
  have hbetween := foldl_write_consistent hw hc
  have hmbetween := (foldl_write_mounted between c).trans hm
  simp only [remount]
  split
  · exact change_consistent hc (getNewRootCatalogContext_proper hc hm hf)
      fun m => getNewRootCatalogContext_manifest hf
  split
  · exact change_consistent hbetween (getNewRootCatalogContext_proper hbetween hmbetween hs)
      fun m => getNewRootCatalogContext_manifest hs
  · exact hbetween

theorem mountRoot_consistent (hm : c.mounted = none)
    (hs : servers.Publish repo) : Consistent repo (c.mountRoot repo servers loaded stored) := by
  simp only [mountRoot]
  split
  · exact hc
  next hcode =>
    rw [not_or] at hcode
    exact attach_consistent hc (getNewRootCatalogContext_published hc hm hs hcode.1)
      fun m => getNewRootCatalogContext_manifest hs

end

end ClientCatalogManager

theorem Step.consistent {c c' : ClientCatalogManager} {e : Event} (hstep : Step repo c e c')
    (hc : Consistent repo c) : Consistent repo c' := by
  cases hstep with
  | write hw => exact hw.keeps hc
  | mount hm hs => exact mountRoot_consistent hc hm hs
  | remount hm hf hs hw => exact remount_consistent hc hm hf hs hw

theorem clients_consistent (h : (clients repo).Reach System.anyStep c) : Consistent repo c := by
  refine h.invariant ?_ ?_
  · rintro s rfl
    exact ⟨nofun, .nothing⟩
  · intro s e s' hs _ hstep
    exact Step.consistent hstep hs

/-- **Clients do not go back.** Whatever other clients write and servers answer, a client with a
mounted root catalog is offered a published one under its own revision. It is not older unless
the mounted revision is the one that stands for no revision, and it is the mounted one if the
client is up to date. -/
theorem client_never_goes_back (repo : Repository) (c : ClientCatalogManager) (servers : Servers)
    (mounted : Any) (hc : (clients repo).Reach System.anyStep c) (hm : c.mounted = some mounted)
    (hs : servers.Publish repo) :
    let p := c.getNewRootCatalogContext servers
    p.1 ≠ .fail ∧ repo.published p.2.hash ∧ p.2.revision = repo.revision p.2.hash ∧
      c.revision = repo.revision mounted ∧
      (c.revision ≠ invalidRevision → c.revision ≤ p.2.revision) ∧
      (p.1 = .up2Date → p.2.hash = mounted) := by
  have hcons := clients_consistent hc
  have hp := getNewRootCatalogContext_proper hcons hm hs
  exact ⟨hp.found, hp.names.1, hp.names.2, (hcons.mounted mounted hm).2, hp.newer, hp.upToDate⟩

/-! ## A repository with three root catalogs -/

def sampleHash (b : UInt8) : Any where
  algorithm := .sha1
  digest := List.replicate 20 b
  size := by simp [Algorithms.digestSize]

/-- The second revision is the one that stands for no revision. -/
def sampleRevision (h : Any) : Nat :=
  if h = sampleHash 1 then 1 else if h = sampleHash 2 then invalidRevision else 5

def sampleRepository : Repository where
  published h := h = sampleHash 1 ∨ h = sampleHash 2 ∨ h = sampleHash 3
  revision := sampleRevision
  lastModified _ := 0
  revision_lt h := by
    unfold sampleRevision invalidRevision
    split
    · decide
    · split <;> decide
  hashed := by
    rintro h (rfl | rfl | rfl) <;> decide

def sampleManifest (b : UInt8) : Manifest := ⟨sampleHash b, 10, sampleRevision (sampleHash b)⟩

def sampleServers (b : UInt8) : Servers := { answer := .manifest (sampleManifest b) }

theorem sampleServers_publish {b : UInt8} (hb : b = 1 ∨ b = 2 ∨ b = 3) :
    (sampleServers b).Publish sampleRepository := by
  refine ⟨?_, nofun⟩
  intro m hm
  cases hm
  refine ⟨?_, rfl, by simp [sampleManifest]⟩
  rcases hb with rfl | rfl | rfl <;> simp [sampleRepository, sampleManifest]

def sampleClient (b : UInt8) : ClientCatalogManager :=
  ({} : ClientCatalogManager).mountRoot sampleRepository (sampleServers b) true false

theorem sampleClient_reached {b : UInt8} (hb : b = 1 ∨ b = 2 ∨ b = 3) :
    (clients sampleRepository).Reach System.anyStep (sampleClient b) :=
  .step (.init rfl) trivial (.mount rfl (sampleServers_publish hb))

theorem client_never_goes_back_sample : (sampleClient 1).revision ≤
      ((sampleClient 1).getNewRootCatalogContext (sampleServers 3)).2.revision :=
  (client_never_goes_back sampleRepository (sampleClient 1) (sampleServers 3) (sampleHash 1)
    (sampleClient_reached (.inl rfl)) (by decide)
    (sampleServers_publish (.inr (.inr rfl)))).2.2.2.2.1 (by decide)

/-- From the revision that stands for no revision a client does go back. -/
theorem client_goes_back_from_invalidRevision :
    ∃ (repo : Repository) (c : ClientCatalogManager) (servers : Servers),
      (clients repo).Reach System.anyStep c ∧ c.mounted ≠ none ∧ servers.Publish repo ∧
        (c.getNewRootCatalogContext servers).2.revision < c.revision :=
  ⟨sampleRepository, sampleClient 2, sampleServers 3, sampleClient_reached (.inr (.inl rfl)),
    by decide, sampleServers_publish (.inr (.inr rfl)), by decide⟩

end Cvmfs.Client
