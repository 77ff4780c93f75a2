import Cvmfs.Nfs4.Clients

/-! # Delegations and the generation of the backend

The monitor thread polls the generation of the backend and recalls all delegations
when it has changed. Attributes are read outside the lock, so an `OPEN` may come
back with attributes that the monitor has already found to be old; without that,
delegations never carry attributes from before the generation read last. -/

namespace Cvmfs.Nfs4

open Lib Table Server Nat Option Bool

namespace Server

variable {cfg : Config} {s t u : Server}

/-! ## Frozen attributes -/

/-- `frozen_attrs_` has the inodes of the recalled delegations. -/
def FrozenExact (s : Server) : Prop :=
  ∀ ino, s.frozenAttrs.contains ino = true ↔
    ∃ o d, s.delegations.find? o = some d ∧ d.recalled ≠ 0 ∧ d.fh.ino = ino

theorem contains_put {t : Table Nat Attr} {k k' : Nat} {v : Attr} :
    (t.put k v).contains k' = true ↔ k' = k ∨ t.contains k' = true := by
  rw [contains, find?_put, contains]
  split
  all_goals
    rename_i h
    simp [h]

theorem contains_foldl_recalled (es : List (Other × Delegation)) (t : Table Nat Attr) (ino : Nat) :
    (es.foldl (fun t e => if e.2.recalled = 0 then t else t.put e.2.fh.ino e.2.attr) t).contains
        ino = true ↔
      t.contains ino = true ∨ ∃ e ∈ es, e.2.recalled ≠ 0 ∧ e.2.fh.ino = ino := by
  induction es generalizing t with
  | nil => simp
  | cons e es ih =>
    rw [List.foldl_cons, ih, List.exists_mem_cons_iff]
    by_cases hr : e.2.recalled = 0
    · simp [hr]
    rw [if_neg hr, contains_put]
    constructor
    · rintro ((h | h) | h)
      · exact .inr (.inl ⟨hr, h.symm⟩)
      · exact .inl h
      · exact .inr (.inr h)
    · rintro (h | ⟨-, h⟩ | h)
      · exact .inl (.inr h)
      · exact .inl (.inl h.symm)
      · exact .inr h

theorem updateFrozenAttrs_exact (s : Server) : s.updateFrozenAttrs.FrozenExact := by
  intro ino
  rw [updateFrozenAttrs]
  rw [contains_foldl_recalled]
  constructor
  · rintro (h | ⟨e, he, hr, hi⟩)
    · cases h
    · exact ⟨e.1, e.2, find?_of_mem he, hr, hi⟩
  · rintro ⟨o, d, hd, hr, hi⟩
    exact .inr ⟨(o, d), find?_eq_some.mp hd, hr, hi⟩

/-! ## The invariant -/

def Probed (s : Server) : Prop := ∃ id c, s.clients.find? id = some c ∧ c.callbackOk = true

/-- Delegations that are not recalled have attributes of the generation read last or a
later one, and recalled ones are outstanding for a lease period at most. -/
structure Current (cfg : Config) (lastRound : Nat) (s : Server) : Prop where
  current : ∀ {o d}, s.delegations.find? o = some d → d.recalled = 0 →
    s.lastGeneration ≤ d.generation
  frozen : s.FrozenExact
  lease : ∀ {o d}, s.delegations.find? o = some d → d.recalled ≠ 0 →
    lastRound ≤ cfg.leaseTime + d.recalled

/-- The invariant: without a finished round there is nothing to recall, and the next
stateid is new. -/
structure Watched (cfg : Config) (lastRound : Nat) (s : Server) : Prop
    extends Current cfg lastRound s where
  quiet : s.lastGeneration = 0 → ¬s.Probed ∧ ∀ o, s.delegations.find? o = none
  numbers : ∀ {o d}, s.delegations.find? o = some d → o.number < s.nextStateid

structure Same (s t : Server) : Prop where
  delegations : t.delegations = s.delegations
  frozenAttrs : t.frozenAttrs = s.frozenAttrs
  lastGeneration : t.lastGeneration = s.lastGeneration
  probed : t.Probed → s.Probed
  nextStateid : s.nextStateid ≤ t.nextStateid

theorem Same.refl (s : Server) : Same s s := ⟨rfl, rfl, rfl, id, le_refl _⟩

theorem Same.trans (h : Same s t) (h' : Same t u) : Same s u :=
  ⟨h'.delegations.trans h.delegations, h'.frozenAttrs.trans h.frozenAttrs,
    h'.lastGeneration.trans h.lastGeneration, fun hp => h.probed (h'.probed hp),
    h.nextStateid.trans h'.nextStateid⟩

/-- Delegations are removed, and the frozen attributes are computed anew. -/
structure Trimmed (s t : Server) : Prop where
  delegations : ∀ {o d}, t.delegations.find? o = some d → s.delegations.find? o = some d
  frozen : t.FrozenExact
  lastGeneration : t.lastGeneration = s.lastGeneration
  probed : t.Probed → s.Probed
  nextStateid : s.nextStateid ≤ t.nextStateid

variable {n : Nat}

theorem FrozenExact.congr (h : s.FrozenExact) (hd : t.delegations = s.delegations)
    (hf : t.frozenAttrs = s.frozenAttrs) : t.FrozenExact := by
  intro ino
  rw [hd, hf]
  exact h ino

theorem Same.trimmed (h : Same s t) (hf : s.FrozenExact) : Trimmed s t :=
  ⟨fun hd => h.delegations ▸ hd, hf.congr h.delegations h.frozenAttrs, h.lastGeneration, h.probed,
    h.nextStateid⟩

theorem Trimmed.trans (h : Trimmed s t) (h' : Trimmed t u) : Trimmed s u :=
  ⟨fun hd => h.delegations (h'.delegations hd), h'.frozen,
    h'.lastGeneration.trans h.lastGeneration, fun hp => h.probed (h'.probed hp),
    h.nextStateid.trans h'.nextStateid⟩

theorem Watched.trimmed (hs : Watched cfg n s) (h : Trimmed s t) : Watched cfg n t where
  current hd hr := by
    rw [h.lastGeneration]
    exact hs.current (h.delegations hd) hr
  frozen := h.frozen
  lease hd hr := hs.lease (h.delegations hd) hr
  quiet hg := by
    obtain ⟨hp, hnone⟩ := hs.quiet (h.lastGeneration ▸ hg)
    refine ⟨fun hp' => hp (h.probed hp'), fun o => ?_⟩
    by_contra hne
    obtain ⟨d, hd⟩ := ne_none_iff_exists'.mp hne
    have hd := h.delegations hd
    rw [hnone] at hd
    cases hd
  numbers hd := (hs.numbers (h.delegations hd)).trans_le h.nextStateid

theorem Watched.same (hs : Watched cfg n s) (h : Same s t) : Watched cfg n t :=
  hs.trimmed (h.trimmed hs.frozen)

/-! ## Operations that leave delegations alone -/

theorem Same.recordSeqid {owner seqid op status body} (h : Same s t) :
    Same s (t.recordSeqid owner seqid op status body) := by
  rw [Server.recordSeqid]
  split <;> exact { h with }

variable {stateid : Stateid} {hasFh : Bool}

theorem sequenced_same {seqid op process} (h : ∀ st, Same s (process st).1) :
    Same s (s.sequenced cfg stateid seqid op hasFh process).1 :=
  sequenced_rec (P := Same s) (Same.refl s) fun st _ _ _ => h st

theorem putOpenStates_same (s : Server) (opens : Table Other OpenState) :
    Same s { s with openStates := opens } := { Same.refl s with }

theorem opOpenConfirm_same {seqid} : Same s (s.opOpenConfirm cfg stateid seqid hasFh).1 := by
  refine sequenced_same fun st => ?_
  dsimp only
  exact (putOpenStates_same s _).recordSeqid

theorem opOpenDowngrade_same {seqid shareAccess} :
    Same s (s.opOpenDowngrade cfg stateid seqid shareAccess hasFh).1 := by
  refine sequenced_same fun st => ?_
  split
  · dsimp only
    exact (Same.refl s).recordSeqid
  · dsimp only
    exact (putOpenStates_same s _).recordSeqid

theorem opClose_same {seqid} : Same s (s.opClose cfg stateid seqid hasFh).1 := by
  rw [opClose]
  split
  · exact Same.refl s
  · refine sequenced_same fun st => ?_
    dsimp only
    exact (putOpenStates_same s _).recordSeqid

theorem shareOpen_same {owner fh r} (hlt : s.nextStateid + 1 < 2 ^ 64)
    (h : s.shareOpen cfg owner fh = some r) : Same s r.2 ∧ r.2.nextStateid ≤ s.nextStateid + 1 := by
  rw [shareOpen] at h
  split at h
  · cases h
    exact ⟨Same.refl s, le_succ _⟩
  split at h
  · cases h
  have hnext : (s.newStateidOther cfg).2.nextStateid = s.nextStateid + 1 := inc64_of_lt hlt
  cases h
  refine ⟨⟨rfl, rfl, rfl, id, ?_⟩, hnext.le⟩
  change s.nextStateid ≤ (s.newStateidOther cfg).2.nextStateid
  omega

theorem bumpOpen_same (s : Server) (o : Other) (shareAccess : Nat) :
    Same s (s.bumpOpen o shareAccess) := putOpenStates_same s _

theorem takeProbes_same (s : Server) : Same s s.takeProbes.2 := { Same.refl s with }

theorem queueProbe_same (cfg : Config) (s : Server) (id : ClientId) (c : Client) :
    Same s (s.queueProbe cfg id c) := by
  rw [queueProbe]
  split <;> exact { Same.refl s with }

theorem adjustClient_same {id g} (k m : Nat)
    (hg : ∀ c, (g c).callbackOk = true → c.callbackOk = true) :
    Same s { s with
      clients := s.clients.adjust id g, nextClientid := k, nextCallback := m } := by
  refine ⟨rfl, rfl, rfl, ?_, le_refl _⟩
  rintro ⟨x, c, hc, hok⟩
  obtain ⟨c₀, hc₀, ⟨-, rfl⟩ | ⟨-, rfl⟩⟩ := of_adjust hc
  · exact ⟨x, c₀, hc₀, hg c₀ hok⟩
  · exact ⟨x, c, hc₀, hok⟩

theorem newClient_same (cfg : Config) (s : Server) (verifier name : Opaque) :
    Same s (s.newClient cfg verifier name).2 := by
  refine ⟨rfl, rfl, rfl, ?_, le_refl _⟩
  rintro ⟨x, c, hc, hok⟩
  rcases of_put hc with ⟨rfl, rfl⟩ | ⟨-, hc⟩
  · cases hr : (s.clients.select fun _ c => !(decide (c.name = name) && !c.confirmed)).find?
        ⟨cfg.boot, s.nextClientid⟩ with
    | none =>
      rw [hr] at hok
      cases hok
    | some c₀ =>
      rw [hr] at hok
      exact ⟨_, c₀, (of_select hr).1, hok⟩
  · exact ⟨x, c, (of_select hc).1, hok⟩

theorem opSetclientid_same {verifier name callbackValid time} :
    Same s (s.opSetclientid cfg verifier name callbackValid time).1 := by
  rw [opSetclientid]
  refine Same.trans ?_ (adjustClient_same _ _ fun c hok => ?_)
  · split
    · exact Same.refl s
    · exact newClient_same cfg s verifier name
  · split at hok
    · cases hok
    · exact hok

/-! ## Operations that remove delegations -/

theorem dropClient_trimmed (s : Server) (id : ClientId) : Trimmed s (s.dropClient id) := by
  refine ⟨fun hd => (of_select hd).1, updateFrozenAttrs_exact _, rfl, ?_, le_refl _⟩
  rintro ⟨x, c, hc, hok⟩
  exact ⟨x, c, (of_erase hc).2, hok⟩

theorem foldl_dropClient_trimmed (ids : List ClientId) (h : Trimmed s t) :
    Trimmed s (ids.foldl dropClient t) := by
  induction ids generalizing t with
  | nil => exact h
  | cons id ids ih => exact ih (h.trans (dropClient_trimmed t id))

theorem opSetclientidConfirm_trimmed {id confirm} (hf : s.FrozenExact) :
    Trimmed s (s.opSetclientidConfirm cfg id confirm).1 := by
  rw [opSetclientidConfirm]
  have hself := (Same.refl s).trimmed hf
  cases hc : s.clients.find? id with
  | none => exact hself
  | some c =>
    dsimp only
    have hq := (queueProbe_same cfg s id c).trimmed hf
    split
    · exact hself
    split
    · exact hq
    · refine foldl_dropClient_trimmed _ (hq.trans (Same.trimmed ?_ hq.frozen))
      exact adjustClient_same _ _ fun c hok => hok

theorem opDelegreturn_trimmed (hf : s.FrozenExact) : Trimmed s (s.opDelegreturn cfg stateid).1 := by
  have hself := (Same.refl s).trimmed hf
  rw [opDelegreturn]
  split
  · exact hself
  split
  · dsimp only
    split
    · -- no frozen attributes: the delegation was not recalled
      rename_i hempty
      refine ⟨fun hd => (of_erase hd).2, fun ino => ?_, rfl, id, le_refl _⟩
      have hnone : ¬s.frozenAttrs.contains ino = true := by
        rw [contains, find?, List.isEmpty_iff.mp hempty]
        exact false_ne_true
      refine iff_of_false hnone ?_
      rintro ⟨o, d, hd, hr, hi⟩
      exact hnone ((hf ino).mpr ⟨o, d, (of_erase hd).2, hr, hi⟩)
    · exact ⟨fun hd => (of_erase hd).2, updateFrozenAttrs_exact _, rfl, id, le_refl _⟩
  · exact hself

theorem recallsSent_trimmed (s : Server) (failed : List Other) : Trimmed s (s.recallsSent failed) :=
  ⟨fun hd => (of_filter hd).1, updateFrozenAttrs_exact _, rfl, id, le_refl _⟩

/-! ## Grants and recalls -/

/-- A step grants a delegation only if none is being recalled, and it does not touch
the time of a recall. -/
structure Stepped (s t : Server) : Prop where
  granted : ∀ {o d}, t.delegations.find? o = some d → s.delegations.find? o = none →
    ∀ {o' d'}, s.delegations.find? o' = some d' → d'.recalled = 0
  kept : ∀ {o d d'}, s.delegations.find? o = some d → t.delegations.find? o = some d' →
    d.recalled ≠ 0 → d'.recalled = d.recalled

theorem Trimmed.stepped (h : Trimmed s t) : Stepped s t := by
  refine ⟨fun hd hnone => ?_, fun hd hd' _ => ?_⟩
  · rw [h.delegations hd] at hnone
    cases hnone
  · rw [h.delegations hd'] at hd
    cases hd
    rfl

theorem mayGrant_eq_true {id fh} (h : s.mayGrant cfg id fh = true) :
    s.Probed ∧ ∀ {o d}, s.delegations.find? o = some d → d.recalled = 0 := by
  rw [mayGrant, and_eq_true, and_eq_true] at h
  obtain ⟨⟨-, hc⟩, hall⟩ := h
  constructor
  · cases hf : s.clients.find? id with
    | none =>
      rw [hf] at hc
      cases hc
    | some c =>
      rw [hf] at hc
      exact ⟨id, c, hf, hc⟩
  · intro o d hd
    exact (of_decide_eq_true (List.all_eq_true.mp hall _ (find?_eq_some.mp hd))).2

theorem Watched.putDelegation {id target} (hs : Watched cfg n s) (hlt : s.nextStateid + 1 < 2 ^ 64)
    (hg : s.lastGeneration ≤ target.generation) : Watched cfg n (s.putDelegation cfg id target).1 ∧
      Stepped s (s.putDelegation cfg id target).1 := by
  have hsame : ∀ {t}, Same s t → Watched cfg n t ∧ Stepped s t :=
    fun h => ⟨hs.same h, (h.trimmed hs.frozen).stepped⟩
  rw [Server.putDelegation]
  split
  · rename_i hmay
    obtain ⟨hprobed, hnone⟩ := mayGrant_eq_true hmay
    split
    · exact hsame { Same.refl s with }
    split
    · exact hsame (Same.refl s)
    have hnext : (s.newStateidOther cfg).2.nextStateid = s.nextStateid + 1 := inc64_of_lt hlt
    have habsent : s.delegations.find? (s.newStateidOther cfg).1 = none := by
      by_contra hne
      obtain ⟨d, hd⟩ := ne_none_iff_exists'.mp hne
      exact lt_irrefl _ (hs.numbers hd)
    refine ⟨⟨⟨fun {o d} hd hr => ?_, fun ino => ?_, fun {o d} hd hr => ?_⟩, fun h0 => ?_,
      fun {o d} hd => ?_⟩, ⟨fun _ _ => hnone, fun {o d d'} hd hd' _ => ?_⟩⟩
    · rcases of_put hd with ⟨-, rfl⟩ | ⟨-, hd⟩
      · exact hg
      · exact hs.current hd hr
    · refine (hs.frozen ino).trans ?_
      constructor
      · rintro ⟨o, d, hd, hr, -⟩
        exact absurd (hnone hd) hr
      rintro ⟨o, d, hd, hr, -⟩
      rcases of_put hd with ⟨-, rfl⟩ | ⟨-, hd⟩
      · exact absurd rfl hr
      · exact absurd (hnone hd) hr
    · rcases of_put hd with ⟨-, rfl⟩ | ⟨-, hd⟩
      · exact absurd rfl hr
      · exact hs.lease hd hr
    · exact absurd hprobed (hs.quiet h0).1
    · change _ < (s.newStateidOther cfg).2.nextStateid
      rw [hnext]
      rcases of_put hd with ⟨rfl, -⟩ | ⟨-, hd⟩
      · exact lt_succ_self _
      · exact (hs.numbers hd).trans (lt_succ_self _)
    · rcases of_put hd' with ⟨rfl, -⟩ | ⟨-, hd'⟩
      · rw [habsent] at hd
        cases hd
      have hd'' : s.delegations.find? o = some d' := hd'
      rw [hd] at hd''
      cases hd''
      rfl
  · exact hsame (Same.refl s)

theorem Stepped.same (h : Stepped s t) (h' : Same t u) : Stepped s u := by
  refine ⟨fun hd hnone => ?_, fun hd hd' => ?_⟩
  · exact h.granted (h'.delegations ▸ hd) hnone
  · exact h.kept hd (h'.delegations ▸ hd')

theorem Stepped.of_same (h : Same s t) (h' : Stepped t u) : Stepped s u := by
  have hd := h.delegations
  refine ⟨fun hu hnone => ?_, fun hs hu => ?_⟩
  · intro o' d' ho'
    rw [← hd] at hnone ho'
    exact h'.granted hu hnone ho'
  · rw [← hd] at hs
    exact h'.kept hs hu

theorem Watched.openFinish {a creds target} (hs : Watched cfg n s)
    (hlt : s.nextStateid + 2 < 2 ^ 64)
    (hg : ∀ obj, target = .ok obj → s.lastGeneration ≤ obj.generation) :
    Watched cfg n (s.openFinish cfg a creds target).1 ∧
      Stepped s (s.openFinish cfg a creds target).1 := by
  have hsame : ∀ {t}, Same s t → Watched cfg n t ∧ Stepped s t :=
    fun h => ⟨hs.same h, (h.trimmed hs.frozen).stepped⟩
  unfold Server.openFinish
  cases target with
  | error status => exact hsame (Same.refl s).recordSeqid
  | ok obj =>
    dsimp only
    split
    · split
      · exact hsame (Same.refl s)
      rename_i r hr
      obtain ⟨hsame₁, hn₁⟩ := shareOpen_same (by omega) hr
      have hsame₂ := hsame₁.trans (bumpOpen_same r.2 r.1 a.shareAccess)
      have hs₂ := hs.same hsame₂
      have hn₂ : (r.2.bumpOpen r.1 a.shareAccess).nextStateid + 1 < 2 ^ 64 := by
        change r.2.nextStateid + 1 < 2 ^ 64
        omega
      have hg₂ : (r.2.bumpOpen r.1 a.shareAccess).lastGeneration ≤ obj.generation := by
        rw [hsame₂.lastGeneration]
        exact hg obj rfl
      have htry : Watched cfg n ((r.2.bumpOpen r.1 a.shareAccess).tryDelegation cfg a obj).1 ∧
          Stepped s ((r.2.bumpOpen r.1 a.shareAccess).tryDelegation cfg a obj).1 := by
        rw [tryDelegation]
        split
        · obtain ⟨hw, hst⟩ := hs₂.putDelegation hn₂ hg₂
          exact ⟨hw, Stepped.of_same hsame₂ hst⟩
        · exact hsame hsame₂
      dsimp only
      exact ⟨htry.1.same (Same.refl _).recordSeqid, htry.2.same (Same.refl _).recordSeqid⟩
    · exact hsame (Same.refl s).recordSeqid

theorem storeProbes_fields (probes : List ((ClientId × Nat) × Bool)) (s : Server) :
    (probes.foldl storeProbe s).delegations = s.delegations ∧
      (probes.foldl storeProbe s).lastGeneration = s.lastGeneration ∧
      (probes.foldl storeProbe s).nextStateid = s.nextStateid := by
  induction probes generalizing s with
  | nil => exact ⟨rfl, rfl, rfl⟩
  | cons p ps ih => exact ih (s.storeProbe p)

theorem reviewDelegation_cases {now changed d d'}
    (h : s.reviewDelegation cfg now changed d = some d') :
    (d' = d ∧ (d.recalled = 0 → changed = false) ∧
        (d.recalled ≠ 0 → now ≤ cfg.leaseTime + d.recalled)) ∨
      (d.recalled = 0 ∧ d' = { d with recalled := now }) := by
  rw [reviewDelegation] at h
  split at h
  · cases h
  rename_i hlease
  have hle : d.recalled ≠ 0 → now ≤ cfg.leaseTime + d.recalled :=
    fun hr => Nat.le_of_not_lt fun hlt => hlease ⟨hr, hlt⟩
  split at h
  · rename_i hch
    rw [and_eq_true, decide_eq_true_eq] at hch
    split at h
    · cases h
      exact .inr ⟨hch.2, rfl⟩
    · cases h
  · rename_i hch
    cases h
    refine .inl ⟨rfl, fun hr => ?_, hle⟩
    simpa [hr] using hch

theorem Watched.monitorUpdate {probes generation now} (hs : Watched cfg n s) (hg : generation ≠ 0)
    (hnow : now ≠ 0) : Watched cfg now (s.monitorUpdate cfg probes generation now).2 ∧
      Stepped s (s.monitorUpdate cfg probes generation now).2 := by
  obtain ⟨hd, hl, hn⟩ := storeProbes_fields probes s
  rw [Server.monitorUpdate]
  generalize probes.foldl storeProbe s = s' at hd hl hn
  -- every delegation afterwards comes from one before
  have hrows : ∀ {o d'}, (s'.reviewDelegations cfg generation now).2.delegations.find? o = some d' →
      ∃ d, s.delegations.find? o = some d ∧ s'.reviewDelegation cfg now
          (decide (s'.lastGeneration ≠ 0 ∧ generation ≠ s'.lastGeneration)) d = some d' := by
    intro o d' h
    change ((s'.delegations.select _).mapValues _).find? o = some d' at h
    rw [find?_mapValues] at h
    obtain ⟨d, hd₀, rfl⟩ := map_eq_some_iff.mp h
    obtain ⟨hd₀, hsome⟩ := of_select hd₀
    obtain ⟨d₁, hd₁⟩ := isSome_iff_exists.mp hsome
    refine ⟨d, hd ▸ hd₀, ?_⟩
    rw [hd₁]
    rfl
  refine ⟨⟨⟨fun {o d'} hd' hr => ?_, updateFrozenAttrs_exact _, fun {o d'} hd' hr => ?_⟩,
    fun h0 => absurd h0 hg, fun {o d'} hd' => ?_⟩, ⟨fun {o d'} hd' hnone => ?_,
    fun {o d d'} hd₀ hd' hr => ?_⟩⟩
  · obtain ⟨d, hd₀, hrev⟩ := hrows hd'
    rcases reviewDelegation_cases hrev with ⟨rfl, hch, -⟩ | ⟨-, rfl⟩
    · have hch := of_decide_eq_false (hch hr)
      by_cases h0 : s'.lastGeneration = 0
      · have := (hs.quiet (hl ▸ h0)).2 o
        rw [hd₀] at this
        cases this
      have heq : generation = s'.lastGeneration := by
        by_contra hne
        exact hch ⟨h0, hne⟩
      change generation ≤ d'.generation
      rw [heq, hl]
      exact hs.current hd₀ hr
    · exact absurd hr hnow
  · obtain ⟨d, hd₀, hrev⟩ := hrows hd'
    rcases reviewDelegation_cases hrev with ⟨rfl, -, hle⟩ | ⟨-, rfl⟩
    · exact hle hr
    · exact le_add_left _ _
  · obtain ⟨d, hd₀, -⟩ := hrows hd'
    change o.number < s'.nextStateid
    rw [hn]
    exact hs.numbers hd₀
  · obtain ⟨d, hd₀, -⟩ := hrows hd'
    rw [hd₀] at hnone
    cases hnone
  · obtain ⟨d₁, hd₁, hrev⟩ := hrows hd'
    rw [hd₀] at hd₁
    cases hd₁
    rcases reviewDelegation_cases hrev with ⟨rfl, -⟩ | ⟨h0, -⟩
    · rfl
    · exact absurd h0 hr

end Server

/-! ## Runs -/

namespace World

variable {cfg : Config} {w w' : World}

/-- An `OPEN` does not come back with attributes from before the generation that the
monitor read last; generations are positive and grow, and so are clock readings;
stateid numbers do not wrap. -/
def UpToDate (w : World) : Event → Prop
  | .openFinish thread =>
    w.server.nextStateid + 2 < 2 ^ 64 ∧
      ∀ p obj, w.opens.find? thread = some p → p.target = some (.ok obj) →
        w.server.lastGeneration ≤ obj.generation
  | .generation new => w.generation < new
  | .monitorRead => w.generation ≠ 0
  | .monitorUpdate _ now => now ≠ 0
  | _ => True

/-- The invariant of the server, and the generation in a round is not zero. -/
structure Watched (cfg : Config) (w : World) : Prop where
  server : w.server.Watched cfg w.lastRound
  read : ∀ {callbacks g}, w.monitor = .updating callbacks g → g ≠ 0

theorem of_server (hs : w'.server.Watched cfg w'.lastRound ∧ w.server.Stepped w'.server)
    (hread : ∀ {callbacks g}, w'.monitor = .updating callbacks g → g ≠ 0) :
    w'.Watched cfg ∧ w.server.Stepped w'.server :=
  ⟨⟨hs.1, hread⟩, hs.2⟩

theorem Watched.exec {e a} (hw : w.Watched cfg) (hg : w.UpToDate e)
    (h : w.exec cfg e = some (w', a)) : w'.Watched cfg ∧ w.server.Stepped w'.server := by
  have hs := hw.server
  have htrim : ∀ {t}, w.server.Trimmed t → t.Watched cfg w.lastRound ∧ w.server.Stepped t :=
    fun ht => ⟨hs.trimmed ht, ht.stepped⟩
  have hsame : ∀ {t}, w.server.Same t → t.Watched cfg w.lastRound ∧ w.server.Stepped t :=
    fun ht => htrim (ht.trimmed hs.frozen)
  have hsteady := hsame (Same.refl _)
  cases e with
  | setclientid verifier name callbackValid time =>
    cases h
    exact of_server (hsame opSetclientid_same) hw.read
  | setclientidConfirm id confirm =>
    cases h
    exact of_server (htrim (opSetclientidConfirm_trimmed hs.frozen)) hw.read
  | openBegin thread args creds hasFh =>
    rw [World.exec] at h
    split at h
    · cases h
    · split at h <;> cases h <;> exact of_server hsteady hw.read
  | openLookup thread target =>
    rw [World.exec] at h
    split at h
    · cases h
      exact of_server hsteady hw.read
    · cases h
  | openFinish thread =>
    rw [World.exec] at h
    split at h
    · rename_i args creds target hp
      cases h
      refine of_server (hs.openFinish hg.1 fun obj ho => ?_) hw.read
      exact hg.2 _ obj hp (congrArg some ho)
    · cases h
  | openConfirm stateid seqid hasFh =>
    cases h
    exact of_server (hsame opOpenConfirm_same) hw.read
  | openDowngrade stateid seqid shareAccess hasFh =>
    cases h
    exact of_server (hsame opOpenDowngrade_same) hw.read
  | close stateid seqid hasFh =>
    cases h
    exact of_server (hsame opClose_same) hw.read
  | delegreturn stateid =>
    cases h
    exact of_server (htrim (opDelegreturn_trimmed hs.frozen)) hw.read
  | generation new =>
    cases h
    exact of_server hsteady hw.read
  | monitorStart =>
    rw [World.exec] at h
    split at h
    · cases h
      exact of_server (hsame (takeProbes_same _)) (by intro _ _ hm; cases hm)
    · cases h
  | monitorRead =>
    rw [World.exec] at h
    split at h
    · cases h
      refine of_server hsteady fun hm => ?_
      cases hm
      exact hg
    · cases h
  | monitorUpdate probeOk now =>
    rw [World.exec] at h
    split at h
    · rename_i callbacks g hm
      cases h
      refine of_server (hs.monitorUpdate (hw.read hm) hg) fun {_ _} hm' => ?_
      split at hm' <;> cases hm'
    · cases h
  | monitorRecalled failed =>
    rw [World.exec] at h
    split at h
    · cases h
      exact of_server (htrim (recallsSent_trimmed _ _)) (by intro _ _ hm; cases hm)
    · cases h

end World

theorem Started.watched {cfg w} (h : Started w) : w.Watched cfg := by
  obtain ⟨g, rfl⟩ := h
  refine ⟨⟨⟨fun hd => ?_, fun ino => ?_, fun hd => ?_⟩, fun _ => ⟨?_, fun _ => rfl⟩, fun hd => ?_⟩,
    fun hm => ?_⟩
  · cases hd
  · refine iff_of_false false_ne_true ?_
    rintro ⟨o, d, hd, -⟩
    cases hd
  · cases hd
  · rintro ⟨id, c, hc, -⟩
    cases hc
  · cases hd
  · cases hm

/-- **Delegations and revisions.** In every run whose steps meet the condition,
delegations that are not recalled carry attributes of the generation read last or a
later one, the frozen attributes are those of the recalled delegations, and these are
outstanding for a lease period at most; no step grants a delegation during a recall. -/
theorem delegations_current {cfg : Config} {w : World} (h : (system cfg).Reach World.UpToDate w) :
    w.server.Current cfg w.lastRound ∧
      ∀ e w' a, w.UpToDate e → w.exec cfg e = some (w', a) → w.server.Stepped w'.server := by
  have hw : w.Watched cfg := by
    refine System.Reach.invariant (P := World.Watched cfg)
      (fun _ (hw : Started _) => hw.watched) ?_ h
    rintro w e w' hw hg ⟨a, he⟩
    exact (hw.exec hg he).1
  exact ⟨hw.server.toCurrent, fun e w' a hg he => (hw.exec hg he).2⟩

/-! ## An `OPEN` that is overtaken by a round -/

def delegatingConfig : Config := ⟨7, 90, 65536, true⟩

theorem delegations_current_granted : ∃ w, (system delegatingConfig).Reach World.UpToDate w ∧
      w.server.delegations.entries.length = 1 ∧ w.server.Current delegatingConfig w.lastRound := by
  have h₀ : (system delegatingConfig).Reach World.UpToDate { generation := 1 } := .init ⟨1, rfl⟩
  have h₁ := reach_exec (e := .setclientid [1] [65] true 0) h₀ trivial rfl
  have h₂ := reach_exec (e := .setclientidConfirm ⟨7, 1⟩ (2 ^ 33)) h₁ trivial rfl
  have h₃ := reach_exec (e := .monitorStart) h₂ trivial rfl
  have h₄ := reach_exec (e := .monitorRead) h₃ (by decide : (_ : Nat) ≠ 0) rfl
  have h₅ := reach_exec (e := .monitorUpdate [true] 100) h₄ (by decide : (_ : Nat) ≠ 0) rfl
  have h₆ := reach_exec (e := .openBegin 0 (sampleOpen ⟨7, 1⟩) ⟨0, 0, []⟩ true) h₅ trivial rfl
  have h₇ := reach_exec (e := .openLookup 0 (.ok sampleFile)) h₆ trivial rfl
  have h₈ := reach_exec (e := .openFinish 0) h₇
    ⟨by decide, fun p obj hp ho => by cases hp; cases ho; decide⟩ rfl
  exact ⟨_, h₈, rfl, (delegations_current h₈).1⟩

/-- The file is looked up, the backend changes, the monitor finishes a round with the
new generation, and then the delegation is granted with the old attributes. -/
theorem delegation_for_old_revision :
    ∃ w, (system delegatingConfig).Reach System.anyStep w ∧ w.server.lastGeneration = 2 ∧
      ∃ o d, w.server.delegations.find? o = some d ∧ d.recalled = 0 ∧ d.generation = 1 := by
  refine ⟨_, reach_events [.setclientid [1] [65] true 0, .setclientidConfirm ⟨7, 1⟩ (2 ^ 33),
    .monitorStart, .monitorRead, .monitorUpdate [true] 100,
    .openBegin 0 (sampleOpen ⟨7, 1⟩) ⟨0, 0, []⟩ true, .openLookup 0 (.ok sampleFile),
    .generation 2, .monitorStart, .monitorRead, .monitorUpdate [] 101, .openFinish 0] rfl, ?_⟩
  exact ⟨rfl, ⟨7, 2⟩, _, rfl, rfl, rfl⟩

end Cvmfs.Nfs4
