import Cvmfs.Lib.Transition

/-! # Proxy selection

The part of the download manager that keeps groups of proxies, the current group, the
number of burned proxies in it and the map from hash keys to proxies. All operations
run under the options lock, except that `ProbeGeo` releases it while it waits for the
network, so that it has a start and an end with other operations in between.

`none` stands for an access outside of a vector or map, or for a random choice from an
empty range. Random numbers, answers of the name resolver and of the geo service are
part of the events. Times are left out: what they decide is when a reset happens. -/

namespace Cvmfs.Network

open Lib (System)

abbrev Text := List Char

/-! ## Lists of proxies -/

def splitString (delim : Char) : Text → List Text
  | [] => [[]]
  | c :: cs =>
    if c = delim then [] :: splitString delim cs
    else
      match splitString delim cs with
      | [] => [[c]]
      | chunk :: chunks => (c :: chunk) :: chunks

def joinStrings (joint : Char) : List Text → Text
  | [] => []
  | [s] => s
  | s :: rest => s ++ joint :: joinStrings joint rest

def direct : Text := "DIRECT".toList

def isDirect (proxy : Text) : Bool := proxy = direct ∨ proxy = []

def stripDirect (proxyList : Text) : Bool × Text :=
  if proxyList = [] then (false, [])
  else
    let groups := (splitString ';' proxyList).map (splitString '|')
    let cleaned := (groups.map (List.filter (!isDirect ·))).filter (· ≠ [])
    (groups.any (·.any isDirect), joinStrings ';' (cleaned.map (joinStrings '|')))

def hasPrefixIgnoringCase (s lower : Text) : Bool :=
  (s.take lower.length).map Char.toLower == lower

def addDefaultScheme (proxy : Text) : Text :=
  if hasPrefixIgnoringCase proxy "http://".toList ∨ hasPrefixIgnoringCase proxy "https://".toList ∨
      proxy = direct ∨ proxy = [] then proxy
  else "http://".toList ++ proxy

inductive IpPreference where
  | system
  | v4
  | v6
  deriving DecidableEq

/-- `dns::Host`; `resolved` is `status() == kFailOk`. -/
structure Host where
  id : Nat := 0
  name : Text := []
  resolved : Bool := false
  ipv4 : List Text := []
  ipv6 : List Text := []
  deriving DecidableEq

def Host.viewBestAddresses (preference : IpPreference) (h : Host) : List Text :=
  if (preference = .system ∨ preference = .v4) ∧ h.ipv4 ≠ [] then h.ipv4
  else if preference = .v6 ∧ h.ipv6 = [] then h.ipv4
  else h.ipv6

def Host.isEquivalent (h other : Host) : Bool :=
  h.resolved && other.resolved && h.name == other.name && h.ipv4 == other.ipv4 &&
    h.ipv6 == other.ipv6

/-- An answer of the resolver: a resolved host has an address of the preferred family. -/
structure Answer (preference : IpPreference) where
  host : Host
  address : host.resolved = true → host.viewBestAddresses preference ≠ []

structure ProxyInfo where
  host : Host := {}
  url : Text
  deriving DecidableEq

/-! ## Manager -/

def maxKey : Nat := 2 ^ 32 - 1

/-- What is fixed: how URLs are rewritten, and the keys of a URL in the sharded map, which
are pseudo random numbers below the largest key. -/
structure Config where
  rewriteUrl : Text → Text → Text
  ipPreference : IpPreference
  shardKeys : Text → List Nat
  shardKeys_lt : ∀ url, ∀ k ∈ shardKeys url, k < maxKey
  shardKeys_ne : ∀ url, shardKeys url ≠ []

structure Ref where
  group : Nat
  index : Nat
  deriving DecidableEq

structure Manager where
  groups : Option (List (List ProxyInfo)) := none
  current : Nat := 0
  burned : Nat := 0
  fallback : Nat := 0
  numProxies : Int := 0
  proxyList : Text := []
  fallbackList : Text := []
  proxyMap : List (Nat × Ref) := []
  shard : Bool := false
  deriving DecidableEq

inductive SetMode where
  | regular
  | fallback
  | both
  deriving DecidableEq

def insertKey (k : Nat) (r : Ref) : List (Nat × Ref) → List (Nat × Ref)
  | [] => [(k, r)]
  | (k', r') :: rest =>
    if k < k' then (k, r) :: (k', r') :: rest
    else if k = k' then (k', r') :: rest
    else (k', r') :: insertKey k r rest

def lowerBound (key : Nat) (m : List (Nat × Ref)) : Option Ref :=
  (m.find? fun e => key ≤ e.1).map Prod.snd

def countProxies (groups : List (List ProxyInfo)) : Int := (groups.map List.length).sum

namespace Manager

variable (cfg : Config)

/-- The keys of the living proxies of a group, in the order of the loop. -/
def shardEntries (current : Nat) (alive : List ProxyInfo) : List (Nat × Ref) :=
  alive.zipIdx.flatMap fun p => (cfg.shardKeys p.1.url).map fun k => (k, ⟨current, p.2⟩)

def insertAll (entries : List (Nat × Ref)) : List (Nat × Ref) :=
  entries.foldl (fun m e => insertKey e.1 e.2 m) []

def updateProxies (m : Manager) (pick : Nat) : Option Manager :=
  match m.groups with
  | none => some m
  | some groups =>
    match groups[m.current]? with
    | none => none
    | some group =>
      if group.length ≤ m.burned then none
      else
        let alive := group.length - m.burned
        if m.shard then
          match insertAll (shardEntries cfg m.current (group.take alive)) with
          | [] => none
          | (k, r) :: rest => some { m with proxyMap := insertKey maxKey r ((k, r) :: rest) }
        else some { m with proxyMap := [(maxKey, ⟨m.current, pick % alive⟩)] }

def rebalanceProxies (m : Manager) (pick : Nat) : Option Manager :=
  match m.groups with
  | none => some m
  | some _ => updateProxies cfg { m with burned := 0 } pick

/-- The proxies for one entry of a list. -/
def expand (url : Text) (host : Host) : List ProxyInfo :=
  let url := addDefaultScheme url
  if url = direct then [{ url := direct }]
  else if host.resolved then
    (host.viewBestAddresses cfg.ipPreference).map fun ip => ⟨host, cfg.rewriteUrl url ip⟩
  else [⟨host, url⟩]

variable (answers : Nat → Answer cfg.ipPreference)

/-- The proxies of a group; `n` counts all entries. -/
def proxyGroup (n : Nat) (group : List Text) : List ProxyInfo :=
  (group.zipIdx n).flatMap fun p => expand cfg p.1 (answers p.2).host

def proxyGroups (n : Nat) : List (List Text) → List (List ProxyInfo)
  | [] => []
  | group :: rest => proxyGroup cfg answers n group :: proxyGroups (n + group.length) rest

def effectiveLists (m : Manager) : Text × Text :=
  let fallback := (stripDirect m.fallbackList).2
  (if fallback = [] then m.proxyList else (stripDirect m.proxyList).2, fallback)

def setProxyChain (m : Manager) (proxyList fallbackList : Text) (mode : SetMode) (pick : Nat) :
    Option Manager :=
  let m := { m with
    fallbackList := if mode = SetMode.regular then m.fallbackList else fallbackList
    proxyList := if mode = SetMode.fallback then m.proxyList else proxyList
    proxyMap := [] }
  let (regular, fallback) := m.effectiveLists
  if regular = [] ∧ fallback = [] then
    some { m with groups := none, current := 0, burned := 0, fallback := 0, numProxies := 0 }
  else
    let all := if fallback = [] then regular
      else if regular = [] then fallback else regular ++ ';' :: fallback
    let groups := proxyGroups cfg answers 0 ((splitString ';' all).map (splitString '|'))
    updateProxies cfg { m with
      groups := some groups
      fallback := if regular = [] then 0 else (splitString ';' regular).length
      numProxies := countProxies groups
      current := 0
      burned := 0 } pick

/-- The loop of `SwitchProxy` over the living proxies. -/
def burnLoop (url : Text) : (fuel i : Nat) → List ProxyInfo → Nat → List ProxyInfo × Nat
  | 0, _, group, burned => (group, burned)
  | fuel + 1, i, group, burned =>
    if i < group.length - burned then
      match group[i]?, group[group.length - (burned + 1)]? with
      | some p, some last =>
        if p.url = url then
          burnLoop url fuel (i + 1) ((group.set i last).set (group.length - (burned + 1)) p)
            (burned + 1)
        else burnLoop url fuel (i + 1) group burned
      | _, _ => (group, burned)
    else (group, burned)

def switchProxy (m : Manager) (url : Text) (pick : Nat) : Option Manager :=
  match m.groups with
  | none => some m
  | some groups =>
    match groups[m.current]? with
    | none => none
    | some group =>
      let (group', burned) := burnLoop url group.length 0 group m.burned
      if burned = m.burned then some m
      else
        let m := { m with groups := some (groups.set m.current group'), burned }
        let m := if burned = group'.length then { m with
            burned := 0
            current := if 1 < groups.length then (m.current + 1) % groups.length else m.current }
          else m
        updateProxies cfg m pick

def switchProxyGroup (m : Manager) (pick : Nat) : Option Manager :=
  match m.groups with
  | none => some m
  | some groups =>
    if groups.length < 2 then some m
    else rebalanceProxies cfg { m with current := (m.current + 1) % groups.length } pick

/-- The reset to the primary group, after a host failover or a while. -/
def resetProxies (m : Manager) (pick : Nat) : Option Manager :=
  rebalanceProxies cfg { m with current := 0 } pick

def shardProxies (m : Manager) (pick : Nat) : Option Manager :=
  rebalanceProxies cfg { m with shard := true } pick

/-- `ChooseProxyUnlocked` where there are groups. -/
def chooseProxy (m : Manager) (groups : List (List ProxyInfo)) (key : Nat) : Option ProxyInfo := do
  let r ← lowerBound key m.proxyMap
  let group ← groups[r.group]?
  group[r.index]?

/-- `ValidateProxyIpsUnlocked` for an expired host. -/
def validateProxyIps (m : Manager) (groups : List (List ProxyInfo)) (url : Text) (host : Host)
    (answer : Answer cfg.ipPreference) (pick : Nat) : Option Manager :=
  match groups[m.current]? with
  | none => none
  | some group =>
    if answer.host.resolved = false ∨ host.isEquivalent answer.host then
      -- a host that is not resolved is kept, under a new id
      let newHost := if answer.host.resolved then answer.host else { host with id := answer.host.id }
      let group' := group.map fun p => if p.host.id = host.id then { p with host := newHost } else p
      some { m with groups := some (groups.set m.current group') }
    else
      let newInfos := (answer.host.viewBestAddresses cfg.ipPreference).map fun ip =>
        ⟨answer.host, cfg.rewriteUrl url ip⟩
      let group' := group.filter (·.host.id ≠ host.id) ++ newInfos
      rebalanceProxies cfg { m with
        groups := some (groups.set m.current group')
        numProxies := m.numProxies - group.length + newInfos.length } pick

/-- A job takes the proxy for its key; the addresses of the proxy may have expired. -/
def setUpJob (m : Manager) (key : Nat) (expired : Bool) (answer : Answer cfg.ipPreference)
    (pick : Nat) : Option Manager :=
  match m.groups with
  | none => some m
  | some groups =>
    match m.chooseProxy groups key with
    | none => none
    | some p =>
      if p.url = direct ∨ expired = false then some m
      else m.validateProxyIps cfg groups p.url p.host answer pick

end Manager

/-! ## Geographic order -/

/-- What `ProbeGeo` remembers while it waits: the number of hosts, the groups and the index
of the first fallback group. -/
structure Probe where
  hosts : Nat
  chain : List (List ProxyInfo)
  fallbackGroup : Nat
  deriving DecidableEq

namespace Probe

/-- Index of the first fallback proxy in the order; a separator may precede it. -/
def firstGeoFallback (q : Probe) : Nat :=
  if q.fallbackGroup = 0 ∧ 1 < q.hosts then q.hosts + 1 else q.hosts

def numNames (q : Probe) : Nat := q.firstGeoFallback + (q.chain.length - q.fallbackGroup)

/-- There is something to sort. -/
def useful (q : Probe) : Prop := ¬(q.hosts < 2 ∧ q.chain.length - q.fallbackGroup < 2)

instance (q : Probe) : Decidable q.useful := inferInstanceAs (Decidable (¬_))

/-- Fallback groups in the given order. -/
def sorted (q : Probe) (order : List Nat) : List (List ProxyInfo) :=
  order.filterMap fun o =>
    if q.firstGeoFallback ≤ o then q.chain[q.fallbackGroup + (o - q.firstGeoFallback)]? else none

end Probe

namespace Manager

def probe (m : Manager) (hosts : Nat) : Probe :=
  match m.groups with
  | none => ⟨hosts, [], 0⟩
  | some groups => ⟨hosts, groups, m.fallback⟩

/-- The groups after `ProbeGeo`: the regular groups of the current chain, and the fallback
groups of the chain at its start. -/
def regroup (m : Manager) (q : Probe) (order : List Nat) : List (List ProxyInfo) :=
  (m.groups.getD []).take m.fallback ++ q.sorted order

def installOrder (cfg : Config) (m : Manager) (q : Probe) (order : List Nat) (pick : Nat) :
    Option Manager :=
  let groups := m.regroup q order
  let m := { m with groups := some groups, numProxies := countProxies groups }
  let m := if groups.length < m.current then { m with current := groups.length - 1, burned := 0 }
    else m
  updateProxies cfg m pick

end Manager

/-! ## Transition system -/

/-- The manager, the calls of `ProbeGeo` that wait, and whether an operation went wrong. -/
structure State where
  manager : Manager
  probes : List Probe := []
  faulted : Bool := false

inductive Event (cfg : Config) where
  | setProxyChain (proxyList fallbackList : Text) (mode : SetMode)
      (answers : Nat → Answer cfg.ipPreference) (pick : Nat)
  | switchProxy (url : Text) (pick : Nat)
  | switchProxyGroup (pick : Nat)
  | rebalanceProxies (pick : Nat)
  | resetProxies (pick : Nat)
  | shardProxies (pick : Nat)
  | setUpJob (key : Nat) (expired : Bool) (answer : Answer cfg.ipPreference) (pick : Nat)
  | probeStart (hosts : Nat)
  | probeEnd (i : Nat) (order : List Nat) (pick : Nat)

/-- The outcome of an operation on the manager. -/
def State.after (s : State) (m : Option Manager) : State :=
  match m with
  | none => { s with faulted := true }
  | some manager => { s with manager }

def State.step {cfg : Config} (s : State) : Event cfg → Option State
  | .setProxyChain proxyList fallbackList mode answers pick =>
    some (s.after (s.manager.setProxyChain cfg answers proxyList fallbackList mode pick))
  | .switchProxy url pick => some (s.after (s.manager.switchProxy cfg url pick))
  | .switchProxyGroup pick => some (s.after (s.manager.switchProxyGroup cfg pick))
  | .rebalanceProxies pick => some (s.after (s.manager.rebalanceProxies cfg pick))
  | .resetProxies pick => some (s.after (s.manager.resetProxies cfg pick))
  | .shardProxies pick => some (s.after (s.manager.shardProxies cfg pick))
  | .setUpJob key expired answer pick =>
    if key ≤ maxKey then some (s.after (s.manager.setUpJob cfg key expired answer pick)) else none
  | .probeStart hosts =>
    let q := s.manager.probe hosts
    if q.useful then some { s with probes := s.probes ++ [q] } else some s
  | .probeEnd i order pick =>
    match s.probes[i]? with
    | none => none
    | some q =>
      -- a valid reply is an order of all names
      if order.Perm (List.range q.numNames) then
        some ({ s with probes := s.probes.eraseIdx i }.after
          (s.manager.installOrder cfg q order pick))
      else none

def proxySelection (cfg : Config) : System State (Event cfg) where
  init s := ∃ shard, s = { manager := { shard } }
  step s e s' := s.faulted = false ∧ s.step e = some s'

end Cvmfs.Network
