import Cvmfs.Client.Breadcrumb
import Cvmfs.Remount.Remounter

/-! # The choice of the root catalog

A client without a fixed root hash mounts the newest of three root catalogs: the mounted one,
the one of the breadcrumb in the cache, and the one of the server's manifest. Other clients that
share the cache overwrite the breadcrumb at any time. -/

namespace Cvmfs.Client

open Crypto
open Lib (System)
open Remount (LoadReturn)

/-! ## Repositories -/

structure Manifest where
  catalogHash : Any
  publishTimestamp : Nat
  revision : Nat
  deriving DecidableEq

/-- The root catalogs that were published, each with the revision and the date that it holds. -/
structure Repository where
  published : Any → Prop
  revision : Any → Nat
  lastModified : Any → Nat
  revision_lt : ∀ h, revision h < 2 ^ 64
  hashed : ∀ h, published h → h.algorithm ≠ .any ∧ h.isNull = false

/-- A manifest that was published. -/
structure Repository.Has (repo : Repository) (m : Manifest) : Prop where
  published : repo.published m.catalogHash
  revision : m.revision = repo.revision m.catalogHash
  timestamp : m.publishTimestamp < 2 ^ 64

/-! ## Manifests from servers -/

/-- What a server answers: no manifest, a manifest that is refused, or one that is verified. -/
inductive Answer where
  | load
  | invalidCertificate
  | refused
  | manifest (m : Manifest)

inductive FetchFailure where
  | load
  | invalidCertificate
  | other
  deriving DecidableEq

def doFetch (minimumTimestamp : Nat) : Answer → Except FetchFailure Manifest
  | .load => .error .load
  | .invalidCertificate => .error .invalidCertificate
  | .refused => .error .other
  | .manifest m => if m.publishTimestamp < minimumTimestamp then .error .other else .ok m

/-- The servers: the answer of the current one, and of the next one if there is one. -/
structure Servers where
  answer : Answer
  next : Option Answer := none

/-- `manifest::Fetch`: a bad manifest is looked for once more on the next server. -/
def Servers.fetch (s : Servers) (minimumTimestamp : Nat) : Except FetchFailure Manifest :=
  match doFetch minimumTimestamp s.answer, s.next with
  | .error .other, some next => doFetch minimumTimestamp next
  | result, _ => result

def Servers.Publish (s : Servers) (repo : Repository) : Prop :=
  (∀ m, s.answer = .manifest m → repo.Has m) ∧ ∀ m, s.next = some (.manifest m) → repo.Has m

/-! ## The client -/

structure ClientCatalogManager where
  /-- hash of the mounted root catalog -/
  mounted : Option Any := none
  revision : Nat := 0
  timestamp : Nat := 0
  /-- the file in the cache -/
  breadcrumb : Option Bytes := none
  deriving DecidableEq

inductive Location where
  | mounted
  | server
  | breadcrumb
  deriving DecidableEq

structure CatalogContext where
  hash : Any := .null .any
  revision : Nat := invalidRevision
  location : Location
  manifest : Option Manifest := none
  deriving DecidableEq

/-- The newest root catalog without the server. -/
structure Newest where
  hash : Any := .null .sha1
  timestamp : Nat := 0
  revision : Nat := invalidRevision
  location : Location := .breadcrumb
  code : LoadReturn := .new

namespace ClientCatalogManager

def fromBreadcrumb (b : Breadcrumb) : Newest :=
  if b.isValid then { hash := b.catalogHash, timestamp := b.timestamp, revision := b.revision }
  else {}

/-- The mounted catalog or the one of the breadcrumb. -/
def localNewest (c : ClientCatalogManager) (b : Breadcrumb) : Newest :=
  let found := fromBreadcrumb b
  match c.mounted with
  | none => found
  | some mounted =>
    if found.revision ≤ c.revision ∨ found.revision = invalidRevision then
      { hash := mounted, timestamp := max c.timestamp found.timestamp, revision := c.revision,
        location := .mounted, code := .up2Date }
    else if found.revision = 0 ∧ found.timestamp < c.timestamp then
      { hash := mounted, timestamp := c.timestamp, revision := c.revision,
        location := .mounted, code := .up2Date }
    else found

def getNewRootCatalogContext (c : ClientCatalogManager) (servers : Servers) :
    LoadReturn × CatalogContext :=
  let b := Breadcrumb.read c.breadcrumb
  let newest := c.localNewest b
  let mountedHash := c.mounted.getD (.null .sha1)
  let keep : LoadReturn × CatalogContext :=
    (if b.isValid ∧ b.catalogHash = mountedHash then .up2Date else newest.code,
      { hash := newest.hash, revision := newest.revision, location := newest.location })
  match servers.fetch newest.timestamp with
  | .ok m =>
    if newest.revision < m.revision ∨ newest.revision = invalidRevision ∨
        (m.revision = 0 ∧ newest.revision = 0) then
      (.new, { hash := m.catalogHash, revision := m.revision, location := .server,
               manifest := some m })
    else keep
  | .error _ =>
    if newest.hash.isNull then (.fail, { location := newest.location }) else keep

/-! ## Mounting -/

def attach (repo : Repository) (c : ClientCatalogManager) (h : Any) : ClientCatalogManager :=
  { c with mounted := some h, revision := repo.revision h, timestamp := repo.lastModified h }

def crumb (m : Manifest) : Breadcrumb := ⟨m.catalogHash, m.publishTimestamp, m.revision⟩

/-- `StoreBreadcrumb`, which may fail. -/
def storeBreadcrumb (c : ClientCatalogManager) (p : CatalogContext) (stored : Bool) :
    ClientCatalogManager :=
  match p.manifest with
  | some m => if stored then { c with breadcrumb := some (crumb m).toString } else c
  | none => c

inductive Write where
  | store (m : Manifest) (withRevision : Bool)
  | remove

def write (c : ClientCatalogManager) : Write → ClientCatalogManager
  | .store m true => { c with breadcrumb := some (crumb m).toString }
  | .store m false => { c with breadcrumb := some (crumb m).toStringWithoutRevision }
  | .remove => { c with breadcrumb := none }

/-- The first mount; `loaded` tells whether the catalog can be fetched. -/
def mountRoot (repo : Repository) (c : ClientCatalogManager) (servers : Servers) (loaded stored : Bool) :
    ClientCatalogManager :=
  match c.getNewRootCatalogContext servers with
  | (code, p) =>
    if code = .fail ∨ loaded = false then c
    else (c.storeBreadcrumb p stored).attach repo p.hash

def change (repo : Repository) (c : ClientCatalogManager) (p : CatalogContext) (loaded stored : Bool) :
    ClientCatalogManager :=
  if loaded = false ∨ p.location = .mounted then c
  else (c.storeBreadcrumb p stored).attach repo p.hash

/-- `Remount` asks twice if the first answer is not a new catalog; other clients may write in
between. -/
def remount (repo : Repository) (c : ClientCatalogManager) (first second : Servers)
    (between : List Write)
    (loaded stored : Bool) :
    ClientCatalogManager :=
  match c.getNewRootCatalogContext first with
  | (code, p) =>
    if code = .new then c.change repo p loaded stored
    else
      let c := between.foldl write c
      match c.getNewRootCatalogContext second with
      | (code, p) => if code = .up2Date then c.change repo p loaded stored else c

end ClientCatalogManager

/-! ## Runs -/

inductive Event where
  | write (w : ClientCatalogManager.Write)
  | mount (servers : Servers) (loaded stored : Bool)
  | remount (first second : Servers) (between : List ClientCatalogManager.Write) (loaded stored : Bool)

/-- Breadcrumbs come from published manifests. -/
def ClientCatalogManager.Write.Publishes (repo : Repository) : ClientCatalogManager.Write → Prop
  | .store m _ => repo.Has m
  | .remove => True

inductive Step (repo : Repository) :
    ClientCatalogManager → Event → ClientCatalogManager → Prop
  | write {c w} (hw : w.Publishes repo) : Step repo c (.write w) (c.write w)
  | mount {c servers loaded stored} (hc : c.mounted = none) (hs : servers.Publish repo) :
      Step repo c (.mount servers loaded stored) (c.mountRoot repo servers loaded stored)
  | remount {c first second between loaded stored} (hc : c.mounted ≠ none)
      (hf : first.Publish repo) (hs : second.Publish repo)
      (hw : ∀ w ∈ between, w.Publishes repo) :
      Step repo c (.remount first second between loaded stored)
        (c.remount repo first second between loaded stored)

def clients (repo : Repository) : System ClientCatalogManager Event where
  init c := c = {}
  step := Step repo

end Cvmfs.Client
