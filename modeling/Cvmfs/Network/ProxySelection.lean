import Cvmfs.Network.Proxies
import Mathlib.Data.List.Basic

/-! # The proxy selection state is consistent

Every operation ends with a new map, built by `updateProxies` from the current group, so
what is left to show for each of them is that the group, the burned count and the number
of proxies fit together at that point. Two operations do not ensure it: a change of
addresses counts the proxies of other hosts in the group as removed, and the end of
`ProbeGeo` keeps the burned count for another group, and the index of the current group
if it is one beyond the last group. -/

namespace Cvmfs.Network

open List Nat Option
open Lib (System)

/-! ## Maps -/

theorem mem_insertKey {k r e m} (h : e ∈ insertKey k r m) : e = (k, r) ∨ e ∈ m := by
  induction m with
  | nil => exact .inl (mem_singleton.1 h)
  | cons e' m ih =>
    rw [insertKey] at h
    split at h
    · exact mem_cons.1 h
    split at h
    · exact .inr h
    · rcases mem_cons.1 h with rfl | h
      · exact .inr (.head _)
      · exact (ih h).imp_right (mem_cons_of_mem _)

theorem key_mem_insertKey (k : Nat) (r : Ref) (m : List (Nat × Ref)) :
    ∃ r', (k, r') ∈ insertKey k r m := by
  induction m with
  | nil => exact ⟨r, .head _⟩
  | cons e m ih =>
    rw [insertKey]
    split
    · exact ⟨r, .head _⟩
    split
    next heq => exact ⟨e.2, heq ▸ mem_cons_self⟩
    · obtain ⟨r', hr'⟩ := ih
      exact ⟨r', .tail _ hr'⟩

theorem lowerBound_total {P : Ref → Prop} {m} (hlast : ∃ r, (maxKey, r) ∈ m) (hP : ∀ e ∈ m, P e.2)
    {key} (hkey : key ≤ maxKey) : ∃ r, lowerBound key m = some r ∧ P r := by
  obtain ⟨r, hr⟩ := hlast
  have hsome : (m.find? fun e => key ≤ e.1).isSome := by
    rw [find?_isSome]
    exact ⟨_, hr, by simpa using hkey⟩
  obtain ⟨e, he⟩ := isSome_iff_exists.1 hsome
  exact ⟨e.2, by rw [lowerBound, he]; rfl, hP e (mem_of_find?_eq_some he)⟩

namespace Manager

theorem mem_insertAll {entries e} (h : e ∈ insertAll entries) : e ∈ entries := by
  have hgen : ∀ (m : List (Nat × Ref)),
      e ∈ entries.foldl (fun m e => insertKey e.1 e.2 m) m → e ∈ entries ∨ e ∈ m := by
    clear h
    induction entries with
    | nil => exact fun m h => .inr h
    | cons e' entries ih =>
      intro m h
      rcases ih _ h with h | h
      · exact .inl (.tail _ h)
      · rcases mem_insertKey h with rfl | h
        · exact .inl (.head _)
        · exact .inr h
  exact (hgen [] h).resolve_right not_mem_nil

theorem insertAll_ne_nil {entries} (h : entries ≠ []) : insertAll entries ≠ [] := by
  obtain ⟨es, e, rfl⟩ : ∃ es e, entries = es ++ [e] := ⟨_, _, (dropLast_append_getLast h).symm⟩
  rw [insertAll, foldl_append]
  obtain ⟨r, hr⟩ := key_mem_insertKey e.1 e.2 (es.foldl (fun m e => insertKey e.1 e.2 m) [])
  exact ne_nil_of_mem hr

theorem mem_shardEntries {cfg current alive e} (h : e ∈ shardEntries cfg current alive) :
    e.2.group = current ∧ e.2.index < alive.length := by
  obtain ⟨p, hp, he⟩ := mem_flatMap.1 h
  obtain ⟨k, -, rfl⟩ := mem_map.1 he
  have := mem_zipIdx hp
  exact ⟨rfl, by simpa using this.2.1⟩

theorem shardEntries_ne_nil {cfg current alive} (h : alive ≠ []) :
    shardEntries cfg current alive ≠ [] := by
  obtain ⟨p, rest, rfl⟩ := exists_cons_of_ne_nil h
  intro hnil
  have hkeys := flatMap_eq_nil_iff.1 hnil (p, 0) (by simp)
  exact cfg.shardKeys_ne p.url (map_eq_nil_iff.1 hkeys)

/-! ## Consistency -/

/-- The claim of the selection: a valid group, a living proxy in it, the right number of
proxies, and a living proxy of the current group for every key. -/
def Consistent (m : Manager) : Prop :=
  ∀ groups, m.groups = some groups → ∃ group, groups[m.current]? = some group ∧
    m.burned < group.length ∧ m.numProxies = countProxies groups ∧
    ∀ key ≤ maxKey, ∃ r, lowerBound key m.proxyMap = some r ∧ r.group = m.current ∧
      r.index < group.length - m.burned

/-- The groups of a chain have proxies, and some of them are fallback groups. -/
structure WellFormed (groups : List (List ProxyInfo)) (fallback : Nat) : Prop where
  nonempty : ∀ g ∈ groups, g ≠ []
  bound : fallback ≤ groups.length

structure Sound (m : Manager) : Prop where
  consistent : m.Consistent
  wellFormed : WellFormed (m.groups.getD []) m.fallback

theorem Sound.chain {m : Manager} {groups : List (List ProxyInfo)} (h : m.Sound)
    (hgroups : m.groups = some groups) : WellFormed groups m.fallback := by
  have := h.wellFormed
  rwa [hgroups] at this

variable {cfg : Config} {m : Manager} {groups : List (List ProxyInfo)} {pick : Nat}

/-- The state in which the map can be built. -/
structure Ready (m : Manager) (groups : List (List ProxyInfo)) : Prop where
  chain : m.groups = some groups
  current : ∃ group, groups[m.current]? = some group ∧ m.burned < group.length
  count : m.numProxies = countProxies groups
  wellFormed : WellFormed groups m.fallback

theorem Ready.updateProxies (h : Ready m groups) (cfg : Config) (pick : Nat) :
    ∃ m', m.updateProxies cfg pick = some m' ∧ m'.Sound := by
  obtain ⟨group, hgroup, hburned⟩ := h.current
  have hsound : ∀ proxyMap, (∃ r, (maxKey, r) ∈ proxyMap) →
      (∀ e ∈ proxyMap, e.2.group = m.current ∧ e.2.index < group.length - m.burned) →
      Sound { m with groups := some groups, proxyMap } := by
    refine fun proxyMap hlast hall => ⟨fun groups' hgroups' => ?_, h.wellFormed⟩
    cases hgroups'
    exact ⟨group, hgroup, hburned, h.count, fun key hkey => lowerBound_total hlast hall hkey⟩
  have halive : (group.take (group.length - m.burned)).length = group.length - m.burned := by
    rw [length_take]
    omega
  simp only [Manager.updateProxies, h.chain, hgroup, if_neg (not_le.2 hburned)]
  split
  · have hne : group.take (group.length - m.burned) ≠ [] := by
      refine ne_nil_of_length_pos ?_
      omega
    have hentries : insertAll (shardEntries cfg m.current _) ≠ [] :=
      insertAll_ne_nil (shardEntries_ne_nil hne)
    split
    next hnil => exact absurd hnil hentries
    next k r rest hmap =>
      refine ⟨_, rfl, hsound _ (key_mem_insertKey _ _ _) fun e he => ?_⟩
      have hmem : ∀ e ∈ (k, r) :: rest,
          e.2.group = m.current ∧ e.2.index < group.length - m.burned := by
        intro e he
        rw [← hmap] at he
        have := mem_shardEntries (mem_insertAll he)
        rwa [halive] at this
      rcases mem_insertKey he with rfl | he
      · exact hmem (k, r) (.head _)
      · exact hmem e he
  · refine ⟨_, rfl, hsound _ ⟨_, .head _⟩ fun e he => ?_⟩
    rw [mem_singleton.1 he]
    exact ⟨rfl, mod_lt _ (by omega)⟩

/-- A state from which a group is selected anew. -/
structure Selectable (m : Manager) (groups : List (List ProxyInfo)) : Prop where
  chain : m.groups = some groups
  current : m.current < groups.length
  count : m.numProxies = countProxies groups
  wellFormed : WellFormed groups m.fallback

theorem Selectable.rebalanceProxies (h : Selectable m groups) (cfg : Config) (pick : Nat) :
    ∃ m', m.rebalanceProxies cfg pick = some m' ∧ m'.Sound := by
  have hgroup := getElem?_eq_getElem h.current
  have hpos : 0 < (groups.get ⟨m.current, h.current⟩).length :=
    length_pos_of_ne_nil (h.wellFormed.nonempty _ (getElem_mem h.current))
  have hready : Ready { m with burned := 0 } groups :=
    ⟨h.chain, ⟨_, hgroup, hpos⟩, h.count, h.wellFormed⟩
  simpa only [Manager.rebalanceProxies, h.chain] using hready.updateProxies cfg pick

theorem Sound.selectable (h : m.Sound) (hgroups : m.groups = some groups) :
    Selectable m groups := by
  obtain ⟨group, hgroup, -, hcount, -⟩ := h.consistent groups hgroups
  exact ⟨hgroups, (List.getElem?_eq_some_iff.1 hgroup).1, hcount, h.chain hgroups⟩

/-! ## Operations -/

theorem Sound.rebalanceProxies (h : m.Sound) (cfg : Config) (pick : Nat) :
    ∃ m', m.rebalanceProxies cfg pick = some m' ∧ m'.Sound := by
  cases hgroups : m.groups with
  | none => exact ⟨m, by simp [Manager.rebalanceProxies, hgroups], h⟩
  | some groups => exact (h.selectable hgroups).rebalanceProxies cfg pick

theorem Sound.shardProxies (h : m.Sound) (cfg : Config) (pick : Nat) :
    ∃ m', m.shardProxies cfg pick = some m' ∧ m'.Sound :=
  Sound.rebalanceProxies (m := { m with shard := true }) ⟨h.consistent, h.wellFormed⟩ cfg pick

theorem Sound.resetProxies (h : m.Sound) (cfg : Config) (pick : Nat) :
    ∃ m', m.resetProxies cfg pick = some m' ∧ m'.Sound := by
  cases hgroups : m.groups with
  | none =>
    refine ⟨{ m with current := 0 }, by simp [Manager.resetProxies, Manager.rebalanceProxies, hgroups],
      fun groups hg => ?_, h.wellFormed⟩
    exact absurd (hgroups.symm.trans hg) (by simp)
  | some groups =>
    have hsel := h.selectable hgroups
    exact Selectable.rebalanceProxies (m := { m with current := 0 })
      ⟨hgroups, zero_lt_of_lt hsel.current, hsel.count, hsel.wellFormed⟩ cfg pick

theorem Sound.switchProxyGroup (h : m.Sound) (cfg : Config) (pick : Nat) :
    ∃ m', m.switchProxyGroup cfg pick = some m' ∧ m'.Sound := by
  unfold Manager.switchProxyGroup
  split
  · exact ⟨m, rfl, h⟩
  next groups hgroups =>
    split
    · exact ⟨m, rfl, h⟩
    next hmany =>
      have hsel := h.selectable hgroups
      exact Selectable.rebalanceProxies (m := { m with current := (m.current + 1) % groups.length })
        ⟨hgroups, mod_lt _ (by omega), hsel.count, hsel.wellFormed⟩ cfg pick

/-! ## Setting the chain -/

theorem splitString_ne_nil (delim : Char) (s : Text) : splitString delim s ≠ [] := by
  cases s with
  | nil => simp [splitString]
  | cons c cs =>
    rw [splitString]
    split
    · simp
    · split <;> simp

theorem splitString_append (delim : Char) (s t : Text) :
    splitString delim (s ++ delim :: t) = splitString delim s ++ splitString delim t := by
  induction s with
  | nil => simp [splitString]
  | cons c cs ih =>
    rw [cons_append, splitString, splitString, ih]
    split
    · rfl
    · cases h : splitString delim cs with
      | nil => exact absurd h (splitString_ne_nil delim cs)
      | cons chunk chunks => rfl

theorem expand_ne_nil (url : Text) (answer : Answer cfg.ipPreference) :
    expand cfg url answer.host ≠ [] := by
  unfold expand
  dsimp only
  split
  · simp
  · split
    next hres => simpa using answer.address hres
    · simp

section

variable (answers : Nat → Answer cfg.ipPreference)
include answers

theorem proxyGroups_nonempty {n lists}
    (h : ∀ l ∈ lists, l ≠ []) : ∀ g ∈ proxyGroups cfg answers n lists, g ≠ [] := by
  induction lists generalizing n with
  | nil => simp [proxyGroups]
  | cons l lists ih =>
    rw [proxyGroups]
    refine forall_mem_cons.2 ⟨?_, ih fun l hl => h l (.tail _ hl)⟩
    obtain ⟨url, rest, rfl⟩ := exists_cons_of_ne_nil (h l (.head _))
    intro hnil
    have := flatMap_eq_nil_iff.1 hnil (url, n) (by simp)
    exact expand_ne_nil url (answers n) this

theorem length_proxyGroups (n : Nat)
    (lists : List (List Text)) : (proxyGroups cfg answers n lists).length = lists.length := by
  induction lists generalizing n with
  | nil => rfl
  | cons l lists ih => rw [proxyGroups, length_cons, length_cons, ih]

theorem wellFormed_proxyGroups (all : Text) {fallback}
    (hf : fallback ≤ (splitString ';' all).length) :
    WellFormed (proxyGroups cfg answers 0 ((splitString ';' all).map (splitString '|')))
      fallback := by
  refine ⟨proxyGroups_nonempty answers ?_, ?_⟩
  · exact forall_mem_map.2 fun s _ => splitString_ne_nil _ s
  · rwa [length_proxyGroups, length_map]

end

theorem setProxyChain_sound (m : Manager) (cfg : Config)
    (answers : Nat → Answer cfg.ipPreference) (proxyList fallbackList : Text) (mode : SetMode)
    (pick : Nat) : ∃ m', m.setProxyChain cfg answers proxyList fallbackList mode pick = some m' ∧
      m'.Sound := by
  unfold Manager.setProxyChain
  dsimp only
  generalize Manager.effectiveLists _ = lists
  obtain ⟨regular, fallback⟩ := lists
  split
  · exact ⟨_, rfl, by simp [Consistent], forall_mem_nil _, le_refl _⟩
  next hsome =>
    obtain ⟨all, hall⟩ : ∃ all, (if fallback = [] then regular
      else if regular = [] then fallback else regular ++ ';' :: fallback) = all := ⟨_, rfl⟩
    rw [hall]
    have hbound : (if regular = [] then 0 else (splitString ';' regular).length) ≤
        (splitString ';' all).length := by
      rw [← hall]
      split
      · exact zero_le _
      split
      · exact le_refl _
      · rw [splitString_append, length_append]
        exact le_add_right _ _
    have hwf : WellFormed (proxyGroups cfg answers 0 _) _ :=
      wellFormed_proxyGroups answers all hbound
    have hlen : 0 < (proxyGroups cfg answers 0
        ((splitString ';' all).map (splitString '|'))).length := by
      rw [length_proxyGroups, length_map]
      exact length_pos_of_ne_nil (splitString_ne_nil _ _)
    refine Ready.updateProxies ⟨rfl, ⟨_, getElem?_eq_getElem hlen, ?_⟩, rfl, hwf⟩ cfg pick
    exact length_pos_of_ne_nil (hwf.nonempty _ (getElem_mem hlen))

/-! ## Changing a group -/

theorem countProxies_set {i group} (h : groups[i]? = some group) (group' : List ProxyInfo) :
    countProxies (groups.set i group') = countProxies groups - group.length + group'.length := by
  induction groups generalizing i with
  | nil => simp at h
  | cons g groups ih =>
    cases i with
    | zero =>
      cases h
      simp only [countProxies, set_cons_zero, map_cons, sum_cons]
      omega
    | succ i =>
      have := ih h
      simp only [countProxies, set_cons_succ, map_cons, sum_cons] at this ⊢
      omega

theorem WellFormed.set {fallback} (h : WellFormed groups fallback) (i : Nat) {group'}
    (hne : group' ≠ []) : WellFormed (groups.set i group') fallback := by
  refine ⟨fun g hg => ?_, by rw [length_set]; exact h.bound⟩
  rcases mem_or_eq_of_mem_set hg with hg | rfl
  · exact h.nonempty g hg
  · exact hne

theorem burnLoop_spec (url : Text) (fuel i : Nat) {group burned} (h : burned ≤ group.length) :
    (burnLoop url fuel i group burned).1.length = group.length ∧
      burned ≤ (burnLoop url fuel i group burned).2 ∧
      (burnLoop url fuel i group burned).2 ≤ group.length := by
  induction fuel generalizing i group burned with
  | zero => exact ⟨rfl, le_refl _, h⟩
  | succ fuel ih =>
    rw [burnLoop]
    split
    · split
      · split
        next hlt p last _ _ _ =>
          have hlen : ((group.set i last).set (group.length - (burned + 1)) p).length =
              group.length := by simp
          have hle : burned + 1 ≤ group.length := by omega
          obtain ⟨h1, h2, h3⟩ := ih (i + 1) (hle.trans hlen.ge)
          exact ⟨h1.trans hlen, by omega, h3.trans hlen.le⟩
        · exact ih (i + 1) h
      · exact ⟨rfl, le_refl _, h⟩
    · exact ⟨rfl, le_refl _, h⟩

section

variable (h : m.Sound)
include h

theorem Sound.switchProxy (cfg : Config) (url : Text) (pick : Nat) :
    ∃ m', m.switchProxy cfg url pick = some m' ∧ m'.Sound := by
  unfold Manager.switchProxy
  split
  · exact ⟨m, rfl, h⟩
  next groups hgroups =>
    obtain ⟨group, hgroup, hburned, hcount, -⟩ := h.consistent groups hgroups
    have hwf := h.chain hgroups
    simp only [hgroup]
    obtain ⟨hlen, hle, hle'⟩ := burnLoop_spec url group.length 0 (le_of_lt hburned)
    revert hlen hle hle'
    generalize burnLoop url group.length 0 group m.burned = result
    obtain ⟨group', burned⟩ := result
    intro hlen hle hle'
    dsimp only at hlen hle hle' ⊢
    split
    · exact ⟨m, rfl, h⟩
    have hcur := (List.getElem?_eq_some_iff.1 hgroup).1
    have hne : group' ≠ [] := ne_nil_of_length_pos (by omega)
    have hwf' := hwf.set m.current hne
    have hcount' : m.numProxies = countProxies (groups.set m.current group') := by
      rw [countProxies_set hgroup, hlen, hcount]
      omega
    split
    · -- the whole group is burned
      have hnext : (if 1 < groups.length then (m.current + 1) % groups.length
          else m.current) < (groups.set m.current group').length := by
        rw [length_set]
        split
        · exact mod_lt _ (by omega)
        · exact hcur
      have hready : Ready { m with
          groups := some (groups.set m.current group')
          burned := 0
          current := if 1 < groups.length then (m.current + 1) % groups.length
            else m.current } (groups.set m.current group') :=
        ⟨rfl, ⟨_, getElem?_eq_getElem hnext,
          length_pos_of_ne_nil (hwf'.nonempty _ (getElem_mem hnext))⟩, hcount', hwf'⟩
      exact hready.updateProxies cfg pick
    next hsome =>
      have hready : Ready { m with groups := some (groups.set m.current group'), burned }
          (groups.set m.current group') :=
        ⟨rfl, ⟨group', getElem?_set_self hcur, by dsimp only; omega⟩, hcount', hwf'⟩
      exact hready.updateProxies cfg pick

theorem Sound.chooseProxy (hgroups : m.groups = some groups) {key} (hkey : key ≤ maxKey) :
    ∃ group p, groups[m.current]? = some group ∧ p ∈ group ∧ m.chooseProxy groups key = some p := by
  obtain ⟨group, hgroup, -, -, hmap⟩ := h.consistent groups hgroups
  obtain ⟨r, hr, hcur, hidx⟩ := hmap key hkey
  have hlt : r.index < group.length := by omega
  refine ⟨group, group.get ⟨r.index, hlt⟩, hgroup, getElem_mem hlt, ?_⟩
  simp [Manager.chooseProxy, hr, hcur, hgroup, getElem?_eq_getElem hlt]

/-- The addresses of a proxy change although there are proxies of other hosts in its group. -/
def Miscounted (m : Manager) (key : Nat) (expired : Bool) (answer : Host) : Prop :=
  ∃ groups group p, m.groups = some groups ∧ groups[m.current]? = some group ∧
    m.chooseProxy groups key = some p ∧ p.url ≠ direct ∧ expired = true ∧
    answer.resolved = true ∧ p.host.isEquivalent answer = false ∧
    ∃ q ∈ group, q.host.id ≠ p.host.id

theorem Sound.setUpJob {key : Nat} (hkey : key ≤ maxKey) (expired : Bool)
    (answer : Answer cfg.ipPreference) (pick : Nat)
    (hcount : ¬m.Miscounted key expired answer.host) :
    ∃ m', m.setUpJob cfg key expired answer pick = some m' ∧ m'.Sound := by
  unfold Manager.setUpJob
  split
  · exact ⟨m, rfl, h⟩
  next groups hgroups =>
    obtain ⟨group, p, hgroup, hp, hchoose⟩ := h.chooseProxy hgroups hkey
    rw [hchoose]
    dsimp only
    split
    · exact ⟨m, rfl, h⟩
    next hvalidate =>
      obtain ⟨hdirect, hexpired⟩ := not_or.1 hvalidate
      have hwf := h.chain hgroups
      obtain ⟨group', hgroup', hburned, hnum, hmap⟩ := h.consistent groups hgroups
      cases hgroup.symm.trans hgroup'
      have hcur := (List.getElem?_eq_some_iff.1 hgroup).1
      simp only [validateProxyIps, hgroup]
      split
      · -- the addresses stay
        refine ⟨_, rfl, fun groups' hgroups' => ?_, ?_⟩
        · cases hgroups'
          refine ⟨_, getElem?_set_self hcur, ?_, ?_, ?_⟩
          · simpa using hburned
          · rw [countProxies_set hgroup, length_map, hnum]
            omega
          · simpa using hmap
        · exact hwf.set m.current (by simpa using ne_nil_of_mem hp)
      next hchanged =>
        obtain ⟨hres, hequiv⟩ := not_or.1 hchanged
        have hres' : answer.host.resolved = true := by simpa using hres
        have hsame : group.filter (·.host.id ≠ p.host.id) = [] := by
          refine filter_eq_nil_iff.2 fun q hq hne => hcount ?_
          exact ⟨groups, group, p, hgroups, hgroup, hchoose, hdirect, by simpa using hexpired,
            hres', by simpa using hequiv, q, hq, by simpa using hne⟩
        rw [hsame, nil_append]
        generalize hnew : map _ _ = newInfos
        have hne : newInfos ≠ [] := by
          rw [← hnew]
          simpa using answer.address hres'
        have hsel : Selectable { m with
            groups := some (groups.set m.current newInfos)
            numProxies := m.numProxies - group.length + newInfos.length }
            (groups.set m.current newInfos) := by
          refine ⟨rfl, by rw [length_set]; exact hcur, ?_, hwf.set m.current hne⟩
          rw [countProxies_set hgroup, hnum]
        exact hsel.rebalanceProxies cfg pick

/-! ## Geographic order -/

theorem wellFormed_probe (hosts : Nat) :
    WellFormed (m.probe hosts).chain (m.probe hosts).fallbackGroup := by
  unfold Manager.probe
  split
  · exact ⟨forall_mem_nil _, le_refl _⟩
  next groups hgroups => exact h.chain hgroups

/-- The end of `ProbeGeo` leaves a valid current group with a living proxy. -/
def Fitting (m : Manager) (q : Probe) (order : List Nat) : Prop :=
  m.regroup q order ≠ [] ∧ ((m.regroup q order).length < m.current ∨
    ∃ group, (m.regroup q order)[m.current]? = some group ∧ m.burned < group.length)

theorem wellFormed_regroup {q} (hq : WellFormed q.chain q.fallbackGroup)
    (order : List Nat) : WellFormed (m.regroup q order) m.fallback := by
  have hwf := h.wellFormed
  refine ⟨fun g hg => ?_, ?_⟩
  · rcases mem_append.1 hg with hg | hg
    · exact hwf.nonempty g (mem_of_mem_take hg)
    · obtain ⟨o, -, ho⟩ := mem_filterMap.1 hg
      obtain ⟨-, ho⟩ := ite_none_right_eq_some.1 ho
      exact hq.nonempty g (mem_of_getElem? ho)
  · have := hwf.bound
    rw [Manager.regroup, length_append, length_take]
    omega

theorem Sound.installOrder {q} (hq : WellFormed q.chain q.fallbackGroup) {order}
    (hfit : m.Fitting q order) (cfg : Config) (pick : Nat) :
    ∃ m', m.installOrder cfg q order pick = some m' ∧ m'.Sound := by
  have hwf := wellFormed_regroup h hq order
  obtain ⟨hne, hcase⟩ := hfit
  have hpos := length_pos_of_ne_nil hne
  unfold Manager.installOrder
  dsimp only
  split
  · -- the current group is beyond the last group
    have hlast : (m.regroup q order).length - 1 < (m.regroup q order).length := by omega
    have hready : Ready { m with
        groups := some (m.regroup q order)
        numProxies := countProxies (m.regroup q order)
        current := (m.regroup q order).length - 1
        burned := 0 } (m.regroup q order) :=
      ⟨rfl, ⟨_, getElem?_eq_getElem hlast,
        length_pos_of_ne_nil (hwf.nonempty _ (getElem_mem hlast))⟩, rfl, hwf⟩
    exact hready.updateProxies cfg pick
  next hle =>
    have hready : Ready { m with
        groups := some (m.regroup q order)
        numProxies := countProxies (m.regroup q order) } (m.regroup q order) :=
      ⟨rfl, hcase.resolve_left hle, rfl, hwf⟩
    exact hready.updateProxies cfg pick

end

/-! ## What goes wrong otherwise -/

theorem updateProxies_eq_none (hgroups : m.groups = some groups)
    (h : ¬∃ group, groups[m.current]? = some group ∧ m.burned < group.length) :
    m.updateProxies cfg pick = none := by
  rw [updateProxies, hgroups]
  dsimp only
  split
  · rfl
  next group hgroup => exact if_pos (not_lt.1 fun hlt => h ⟨group, hgroup, hlt⟩)

theorem installOrder_eq_none {q order} (h : ¬m.Fitting q order) :
    m.installOrder cfg q order pick = none := by
  unfold installOrder
  dsimp only
  split
  next hlt =>
    refine updateProxies_eq_none rfl ?_
    rintro ⟨group, hgroup, -⟩
    exact h ⟨ne_nil_of_mem (mem_of_getElem? hgroup), .inl hlt⟩
  · refine updateProxies_eq_none rfl ?_
    rintro ⟨group, hgroup, hlt⟩
    exact h ⟨ne_nil_of_mem (mem_of_getElem? hgroup), .inr ⟨group, hgroup, hlt⟩⟩

theorem updateProxies_fields {m'} (h : m.updateProxies cfg pick = some m') :
    m'.groups = m.groups ∧ m'.numProxies = m.numProxies := by
  unfold updateProxies at h
  split at h
  · cases h
    exact ⟨rfl, rfl⟩
  split at h
  · cases h
  obtain ⟨-, h⟩ := ite_none_left_eq_some.1 h
  dsimp only at h
  split at h
  · split at h
    · cases h
    · cases h
      exact ⟨rfl, rfl⟩
  · cases h
    exact ⟨rfl, rfl⟩

theorem Sound.setUpJob_inconsistent (h : m.Sound) {key expired answer}
    (hmis : m.Miscounted key expired answer.host) {m'}
    (hm' : m.setUpJob cfg key expired answer pick = some m') : ¬m'.Consistent := by
  obtain ⟨groups, group, p, hgroups, hgroup, hchoose, hdirect, rfl, hres, hequiv, q, hq, hne⟩ :=
    hmis
  obtain ⟨_, hgroup', -, hnum, -⟩ := h.consistent groups hgroups
  unfold Manager.setUpJob at hm'
  rw [hgroups] at hm'
  dsimp only at hm'
  rw [hchoose] at hm'
  dsimp only at hm'
  rw [if_neg (by simp [hdirect])] at hm'
  unfold validateProxyIps at hm'
  rw [hgroup] at hm'
  dsimp only at hm'
  rw [if_neg (by simp [hres, hequiv]), Manager.rebalanceProxies] at hm'
  obtain ⟨hg', hn'⟩ := updateProxies_fields hm'
  intro hcons
  obtain ⟨_, -, -, hcount, -⟩ := hcons _ hg'
  rw [hn', countProxies_set hgroup, hnum, length_append] at hcount
  have hpos : 0 < (group.filter (·.host.id ≠ p.host.id)).length :=
    length_pos_of_mem (mem_filter.2 ⟨hq, by simpa using hne⟩)
  push_cast at hcount
  omega

end Manager

/-! ## Runs -/

/-- No operation went wrong, and the selection is consistent. -/
def State.Selects (s : State) : Prop := s.faulted = false ∧ s.manager.Consistent

structure State.Sound (s : State) : Prop where
  running : s.faulted = false
  manager : s.manager.Sound
  probes : ∀ q ∈ s.probes, Manager.WellFormed q.chain q.fallbackGroup

/-- The steps that keep the selection consistent: addresses change in groups with a single
host only, and a new order leaves a living proxy in the current group. -/
def State.Benign {cfg : Config} (s : State) : Event cfg → Prop
  | .setUpJob key expired answer _ => ¬s.manager.Miscounted key expired answer.host
  | .probeEnd i order _ => ∀ q, s.probes[i]? = some q → s.manager.Fitting q order
  | _ => True

variable {s s' : State}

theorem State.Sound.selects (h : s.Sound) : s.Selects :=
  ⟨h.running, h.manager.consistent⟩

theorem State.Sound.after (h : s.Sound) {r : Option Manager}
    (hr : ∃ m, r = some m ∧ m.Sound) : (s.after r).Sound := by
  obtain ⟨m, rfl, hm⟩ := hr
  exact ⟨h.running, hm, h.probes⟩

theorem State.Sound.step {cfg : Config} {e : Event cfg} (h : s.Sound)
    (hbenign : s.Benign e) (hstep : s.step e = some s') : s'.Sound := by
  cases e with
  | setProxyChain proxyList fallbackList mode answers pick =>
    cases hstep
    exact h.after (Manager.setProxyChain_sound _ cfg answers proxyList fallbackList mode pick)
  | switchProxy url pick =>
    cases hstep
    exact h.after (h.manager.switchProxy cfg url pick)
  | switchProxyGroup pick =>
    cases hstep
    exact h.after (h.manager.switchProxyGroup cfg pick)
  | rebalanceProxies pick =>
    cases hstep
    exact h.after (h.manager.rebalanceProxies cfg pick)
  | resetProxies pick =>
    cases hstep
    exact h.after (h.manager.resetProxies cfg pick)
  | shardProxies pick =>
    cases hstep
    exact h.after (h.manager.shardProxies cfg pick)
  | setUpJob key expired answer pick =>
    obtain ⟨hkey, ⟨⟩⟩ := ite_none_right_eq_some.1 hstep
    exact h.after (h.manager.setUpJob hkey expired answer pick hbenign)
  | probeStart hosts =>
    simp only [State.step] at hstep
    split at hstep
    · cases hstep
      refine ⟨h.running, h.manager, fun q hq => ?_⟩
      rcases mem_append.1 hq with hq | hq
      · exact h.probes q hq
      · obtain rfl := mem_singleton.1 hq
        exact Manager.wellFormed_probe h.manager hosts
    · cases hstep
      exact h
  | probeEnd i order pick =>
    simp only [State.step] at hstep
    split at hstep
    · cases hstep
    next q hq =>
      obtain ⟨-, ⟨⟩⟩ := ite_none_right_eq_some.1 hstep
      have hrest : State.Sound { s with probes := s.probes.eraseIdx i } :=
        ⟨h.running, h.manager, fun q hq => h.probes q (mem_of_mem_eraseIdx hq)⟩
      exact hrest.after (h.manager.installOrder (h.probes q (mem_of_getElem? hq))
        (hbenign q hq) cfg pick)

theorem State.sound_init (shard : Bool) : State.Sound { manager := { shard } } := by
  refine ⟨rfl, ⟨?_, forall_mem_nil _, le_refl _⟩, forall_mem_nil _⟩
  intro groups hgroups
  cases hgroups

theorem State.Sound.benign {cfg : Config} {e : Event cfg} (h : s.Sound)
    (hstep : s.step e = some s') (hsel : s'.Selects) : s.Benign e := by
  cases e with
  | setUpJob key expired answer pick =>
    obtain ⟨-, ⟨⟩⟩ := ite_none_right_eq_some.1 hstep
    intro hmis
    cases hm : s.manager.setUpJob cfg key expired answer pick with
    | none =>
      rw [hm] at hsel
      exact absurd hsel.1 (by simp [State.after])
    | some m =>
      rw [hm] at hsel
      exact h.manager.setUpJob_inconsistent hmis hm hsel.2
  | probeEnd i order pick =>
    simp only [State.step] at hstep
    split at hstep
    · cases hstep
    next q hq =>
      obtain ⟨-, ⟨⟩⟩ := ite_none_right_eq_some.1 hstep
      intro q' hq'
      cases hq.symm.trans hq'
      by_contra hfit
      rw [Manager.installOrder_eq_none hfit] at hsel
      exact absurd hsel.1 (by simp [State.after])
  | _ => trivial

/-- In every run of benign steps the selection is consistent, and it stays so exactly under
the benign steps. -/
theorem selects_of_benign {cfg : Config} {s : State}
    (h : (proxySelection cfg).Reach State.Benign s) :
    s.Selects ∧ ∀ (e : Event cfg) s', s.step e = some s' → (s'.Selects ↔ s.Benign e) := by
  have hsound : s.Sound := by
    refine h.invariant ?_ fun s e s' hs hbenign hstep => hs.step hbenign hstep.2
    rintro s ⟨shard, rfl⟩
    exact State.sound_init shard
  refine ⟨hsound.selects, fun e s' hstep => ⟨hsound.benign hstep, fun hbenign => ?_⟩⟩
  exact (hsound.step hbenign hstep).selects

/-! ### Runs that go wrong -/

def plainConfig : Config where
  rewriteUrl _ ip := ip
  ipPreference := .v4
  shardKeys _ := [0]
  shardKeys_lt := by simp [maxKey]
  shardKeys_ne := by simp

def address (id : Nat) (name ip : Char) : Answer plainConfig.ipPreference where
  host := { id, name := [name], resolved := true, ipv4 := [[ip]] }
  address := by simp [plainConfig, Host.viewBestAddresses]

/-- Entry number `n` of a list is resolved to its own address. -/
def addresses (n : Nat) : Answer plainConfig.ipPreference :=
  address (n + 1) (Char.ofNat (97 + n)) (Char.ofNat (49 + n))

def setLists (regular fallback : String) : Event plainConfig :=
  .setProxyChain regular.toList fallback.toList .both addresses 0

def State.next (s : State) (e : Event plainConfig) : Option State :=
  if s.faulted = false then s.step e else none

theorem reach_of_next (es : List (Event plainConfig)) {s}
    (h : es.foldlM State.next { manager := {} } = some s) :
    (proxySelection plainConfig).Reach System.anyStep s := by
  exact System.Reach.follow (fun s e s' hnext => ite_none_right_eq_some.1 hnext)
    (.init ⟨false, rfl⟩) h

theorem selects_of_benign_twoProxies : ∃ s, (proxySelection plainConfig).Reach State.Benign s ∧
      (s.manager.groups.map countProxies, s.manager.burned) = (some 2, 1) ∧ s.Selects := by
  have hset : (proxySelection plainConfig).Reach State.Benign _ :=
    .step (e := setLists "a|b" "") (.init ⟨false, rfl⟩) trivial ⟨rfl, rfl⟩
  have hswitch : (proxySelection plainConfig).Reach State.Benign _ :=
    hset.step (show State.Benign _ (Event.switchProxy "1".toList 0) from trivial) ⟨rfl, rfl⟩
  exact ⟨_, hswitch, by decide, (selects_of_benign hswitch).1⟩

/-- New addresses for one of the two hosts of a group: one of two proxies is counted. -/
theorem new_address_miscounts :
    ∃ s, (proxySelection plainConfig).Reach System.anyStep s ∧ s.faulted = false ∧
      s.manager.groups.map countProxies = some 2 ∧ s.manager.numProxies = 1 := by
  refine ⟨_, reach_of_next [setLists "a|b" "", .setUpJob 0 true (address 3 'a' '3') 0] rfl, ?_⟩
  decide

/-- A new order puts a group with a single proxy at the place of a group with a burned one:
the random choice is made from an empty range. -/
theorem new_order_keeps_burned :
    ∃ s, (proxySelection plainConfig).Reach System.anyStep s ∧ s.faulted = true := by
  refine ⟨_, reach_of_next [setLists "" "a|b;c", .switchProxy "1".toList 0,
    .probeStart 0, .probeEnd 0 [1, 0] 0] rfl, ?_⟩
  decide

/-- A shorter chain is installed while the group behind its last one is the current group. -/
theorem new_order_keeps_current :
    ∃ s, (proxySelection plainConfig).Reach System.anyStep s ∧ s.faulted = true := by
  refine ⟨_, reach_of_next [setLists "" "a;b", .probeStart 0, setLists "" "a;b;c;d",
    .switchProxyGroup 0, .switchProxyGroup 0, .probeEnd 0 [0, 1] 0] rfl, ?_⟩
  decide

/-- Two hosts are ordered where there are no proxies: an empty chain is installed. -/
theorem order_without_proxies_faults :
    ∃ s, (proxySelection plainConfig).Reach System.anyStep s ∧ s.faulted = true := by
  refine ⟨_, reach_of_next [.probeStart 2, .probeEnd 0 [1, 0, 2] 0] rfl, ?_⟩
  decide

end Cvmfs.Network
