import Cvmfs.Nfs4.Server

/-! # State belongs to live clients

Open states, open-owners and delegations belong to confirmed clients, and what a
replaced incarnation of a client had is gone for good. `OPEN` checks its client
before the lookup and does not check it again when it installs its state, so this
needs that the client is not replaced meanwhile. -/

namespace Cvmfs.Nfs4

open Lib Table Server List Nat

namespace Server

variable {cfg : Config} {s t u : Server}

/-- A confirmed record of a client. -/
def Confirmed (s : Server) (id : ClientId) : Prop :=
  ∃ c, s.clients.find? id = some c ∧ c.confirmed = true

/-- Every piece of state belongs to a live client, and nothing is used twice. -/
structure Owned (cfg : Config) (s : Server) : Prop where
  unique : ∀ {id id' c c'}, s.clients.find? id = some c → s.clients.find? id' = some c' →
    c.confirmed = true → c'.confirmed = true → c.name = c'.name → id = id'
  opens : ∀ {o st}, s.openStates.find? o = some st → s.Confirmed st.owner.1
  owners : ∀ {k r}, s.owners.find? k = some r → s.Confirmed k.1
  delegations : ∀ {o d}, s.delegations.find? o = some d → s.Confirmed d.clientid
  distinct : ∀ {o o' st st'}, s.openStates.find? o = some st → s.openStates.find? o' = some st' →
    st.owner = st'.owner → st.fh = st'.fh → o = o'
  issued : s.issued.Nodup ∧ (∀ {o st}, s.openStates.find? o = some st → o ∈ s.issued) ∧
    ∀ {o d}, s.delegations.find? o = some d → o ∈ s.issued
  bounded : s.openStates.entries.length ≤ cfg.maxStateids
  gone : ∀ {id}, id ∈ s.dropped → s.clients.find? id = none

/-- No open state, open-owner or delegation of a client. -/
def NothingLeft (s : Server) (id : ClientId) : Prop :=
  (∀ o st, s.openStates.find? o = some st → st.owner.1 ≠ id) ∧
    (∀ k r, s.owners.find? k = some r → k.1 ≠ id) ∧
    ∀ o d, s.delegations.find? o = some d → d.clientid ≠ id

theorem Owned.nothingLeft (h : Owned cfg s) {id} (hid : id ∈ s.dropped) : s.NothingLeft id := by
  have hno : ¬s.Confirmed id := by
    rintro ⟨c, hc, -⟩
    rw [h.gone hid] at hc
    cases hc
  refine ⟨fun o st hst he => ?_, fun k r hr he => ?_, fun o d hd he => ?_⟩
  · exact hno (he ▸ h.opens hst)
  · exact hno (he ▸ h.owners hr)
  · exact hno (he ▸ h.delegations hd)

/-- The invariant: numbers that were given out are below the next ones. -/
structure Sound (cfg : Config) (s : Server) : Prop extends Owned cfg s where
  numbers : ∀ {o}, o ∈ s.issued → o.number < s.nextStateid
  clientNumbers : ∀ {id c}, s.clients.find? id = some c → id.number < s.nextClientid
  droppedNumbers : ∀ {id}, id ∈ s.dropped → id.number < s.nextClientid

/-! ## Steps that add nothing -/

def identity (c : Client) : Opaque × Bool := (c.name, c.confirmed)

/-- Clients stay as they are, and rows are at most removed or updated. -/
structure Shrinks (s t : Server) : Prop where
  clients : ∀ id, (t.clients.find? id).map identity = (s.clients.find? id).map identity
  opens : ∀ {o st}, t.openStates.find? o = some st →
    ∃ st₀, s.openStates.find? o = some st₀ ∧ st.owner = st₀.owner ∧ st.fh = st₀.fh
  owners : ∀ {k r}, t.owners.find? k = some r → ∃ r₀, s.owners.find? k = some r₀
  delegations : ∀ {o d}, t.delegations.find? o = some d →
    ∃ d₀, s.delegations.find? o = some d₀ ∧ d.clientid = d₀.clientid
  count : t.openStates.entries.length ≤ s.openStates.entries.length
  issued : t.issued = s.issued
  dropped : t.dropped = s.dropped
  nextStateid : t.nextStateid = s.nextStateid
  nextClientid : s.nextClientid ≤ t.nextClientid

theorem Shrinks.refl (s : Server) : Shrinks s s :=
  ⟨fun _ => rfl, fun h => ⟨_, h, rfl, rfl⟩, fun h => ⟨_, h⟩, fun h => ⟨_, h, rfl⟩, le_refl _,
    rfl, rfl, rfl, le_refl _⟩

theorem Shrinks.trans (h : Shrinks s t) (h' : Shrinks t u) : Shrinks s u := by
  refine ⟨fun id => (h'.clients id).trans (h.clients id), fun {o st} hst => ?_, fun {k r} hr => ?_,
    fun {o d} hd => ?_, h'.count.trans h.count, h'.issued.trans h.issued,
    h'.dropped.trans h.dropped, h'.nextStateid.trans h.nextStateid,
    h.nextClientid.trans h'.nextClientid⟩
  · obtain ⟨st₁, h₁, ho₁, hf₁⟩ := h'.opens hst
    obtain ⟨st₂, h₂, ho₂, hf₂⟩ := h.opens h₁
    exact ⟨st₂, h₂, ho₁.trans ho₂, hf₁.trans hf₂⟩
  · obtain ⟨r₁, h₁⟩ := h'.owners hr
    exact h.owners h₁
  · obtain ⟨d₁, h₁, hc₁⟩ := h'.delegations hd
    obtain ⟨d₂, h₂, hc₂⟩ := h.delegations h₁
    exact ⟨d₂, h₂, hc₁.trans hc₂⟩

theorem Shrinks.client {id c} (h : Shrinks s t) (hc : t.clients.find? id = some c) :
    ∃ c₀, s.clients.find? id = some c₀ ∧ c.name = c₀.name ∧ c.confirmed = c₀.confirmed := by
  have he := h.clients id
  rw [hc, Option.map_some] at he
  obtain ⟨c₀, hc₀, hid⟩ := Option.map_eq_some_iff.mp he.symm
  exact ⟨c₀, hc₀, (congrArg Prod.fst hid).symm, (congrArg Prod.snd hid).symm⟩

theorem Shrinks.confirmed {id} (h : Shrinks s t) (hc : s.Confirmed id) : t.Confirmed id := by
  obtain ⟨c, hc, hconf⟩ := hc
  have he := h.clients id
  rw [hc, Option.map_some] at he
  obtain ⟨c', hc', hid⟩ := Option.map_eq_some_iff.mp he
  exact ⟨c', hc', (congrArg Prod.snd hid).trans hconf⟩

theorem Sound.shrinks (hs : Sound cfg s) (h : Shrinks s t) : Sound cfg t where
  unique hc hc' hcon hcon' hname := by
    obtain ⟨c₀, h₀, hn₀, hf₀⟩ := h.client hc
    obtain ⟨c₁, h₁, hn₁, hf₁⟩ := h.client hc'
    exact hs.unique h₀ h₁ (hf₀ ▸ hcon) (hf₁ ▸ hcon') (hn₀ ▸ hn₁ ▸ hname)
  opens hst := by
    obtain ⟨st₀, h₀, ho, -⟩ := h.opens hst
    rw [ho]
    exact h.confirmed (hs.opens h₀)
  owners hr := by
    obtain ⟨r₀, h₀⟩ := h.owners hr
    exact h.confirmed (hs.owners h₀)
  delegations hd := by
    obtain ⟨d₀, h₀, hc⟩ := h.delegations hd
    rw [hc]
    exact h.confirmed (hs.delegations h₀)
  distinct hst hst' ho hf := by
    obtain ⟨st₀, h₀, ho₀, hf₀⟩ := h.opens hst
    obtain ⟨st₁, h₁, ho₁, hf₁⟩ := h.opens hst'
    exact hs.distinct h₀ h₁ (ho₀ ▸ ho₁ ▸ ho) (hf₀ ▸ hf₁ ▸ hf)
  issued := by
    rw [h.issued]
    refine ⟨hs.issued.1, fun hst => ?_, fun hd => ?_⟩
    · obtain ⟨st₀, h₀, -⟩ := h.opens hst
      exact hs.issued.2.1 h₀
    · obtain ⟨d₀, h₀, -⟩ := h.delegations hd
      exact hs.issued.2.2 h₀
  bounded := h.count.trans hs.bounded
  gone {id} hid := by
    have he := h.clients id
    rw [hs.gone (h.dropped ▸ hid), Option.map_none] at he
    exact Option.map_eq_none_iff.mp he
  numbers ho := by
    rw [h.nextStateid]
    exact hs.numbers (h.issued ▸ ho)
  clientNumbers hc := by
    obtain ⟨c₀, h₀, -⟩ := h.client hc
    exact (hs.clientNumbers h₀).trans_le h.nextClientid
  droppedNumbers hid := (hs.droppedNumbers (h.dropped ▸ hid)).trans_le h.nextClientid

theorem updateFrozenAttrs_shrinks (s : Server) : Shrinks s s.updateFrozenAttrs :=
  { Shrinks.refl s with }

theorem Shrinks.delegations_only {ds} (h : ∀ {o d}, ds.find? o = some d →
      ∃ d₀, s.delegations.find? o = some d₀ ∧ d.clientid = d₀.clientid) :
    Shrinks s { s with delegations := ds } :=
  { Shrinks.refl s with delegations := h }

theorem opDelegreturn_shrinks (s : Server) (stateid : Stateid) :
    Shrinks s (s.opDelegreturn cfg stateid).1 := by
  rw [opDelegreturn]
  split
  · exact Shrinks.refl s
  split
  · have hdel : Shrinks s { s with delegations := s.delegations.erase stateid.other } :=
      .delegations_only fun hd => ⟨_, (of_erase hd).2, rfl⟩
    dsimp only
    split
    · exact hdel
    · exact hdel.trans (updateFrozenAttrs_shrinks _)
  · exact Shrinks.refl s

variable {owner : OwnerKey}

theorem Shrinks.recordSeqid {seqid op status body r} (h : Shrinks s t)
    (hr : t.owners.find? owner = some r) :
    Shrinks s (t.recordSeqid owner seqid op status body) := by
  rw [Server.recordSeqid]
  split
  · refine h.trans { Shrinks.refl t with owners := fun {k r'} h => ?_ }
    rcases of_put h with ⟨rfl, -⟩ | ⟨-, h⟩
    · exact ⟨r, hr⟩
    · exact ⟨_, h⟩
  · exact h

variable {stateid : Stateid}

theorem findOpenState_eq_ok {exactSeqid st} (h : s.findOpenState cfg stateid exactSeqid = .ok st) :
    s.openStates.find? stateid.other = some st := by
  rw [findOpenState] at h
  split at h
  · cases h
  split at h
  · cases h
  rename_i st' hst
  split at h
  · cases h
  split at h
  · cases h
  · cases h
    exact hst

theorem checkSeqid_eq_process {seqid op} (h : s.checkSeqid owner seqid op false = .process) :
    ∃ r, s.owners.find? owner = some r := by
  rw [checkSeqid] at h
  split at h
  · cases h
  · rename_i r hr
    exact ⟨r, hr⟩

variable {hasFh : Bool}

theorem sequenced_rec {P : Server → Prop} {seqid op process} (hself : P s)
    (hproc : ∀ st r, s.openStates.find? stateid.other = some st →
      s.owners.find? st.owner = some r → P (process st).1) :
    P (s.sequenced cfg stateid seqid op hasFh process).1 := by
  rw [sequenced]
  split
  · exact hself
  cases hf : s.findOpenState cfg stateid true with
  | error status => exact hself
  | ok st =>
    dsimp only
    cases hc : s.checkSeqid st.owner seqid op false with
    | bad | replay status body => exact hself
    | process =>
      obtain ⟨r, hr⟩ := checkSeqid_eq_process hc
      exact hproc st r (findOpenState_eq_ok hf) hr

theorem Shrinks.putOpen {o st st'} (h : s.openStates.find? o = some st)
    (howner : st'.owner = st.owner) (hfh : st'.fh = st.fh) :
    Shrinks s { s with openStates := s.openStates.put o st' } := by
  refine { Shrinks.refl s with
    opens := fun {o' st₁} h₁ => ?_, count := length_put_of_some h }
  rcases of_put h₁ with ⟨rfl, rfl⟩ | ⟨-, h₁⟩
  · exact ⟨st, h, howner, hfh⟩
  · exact ⟨_, h₁, rfl, rfl⟩

theorem opOpenConfirm_shrinks {seqid} : Shrinks s (s.opOpenConfirm cfg stateid seqid hasFh).1 := by
  rw [opOpenConfirm]
  refine sequenced_rec (P := Shrinks s) (.refl s) fun st r hst hr => ?_
  dsimp only
  exact Shrinks.recordSeqid (Shrinks.putOpen hst rfl rfl) hr

theorem opOpenDowngrade_shrinks {seqid shareAccess} :
    Shrinks s (s.opOpenDowngrade cfg stateid seqid shareAccess hasFh).1 := by
  rw [opOpenDowngrade]
  refine sequenced_rec (P := Shrinks s) (.refl s) fun st r hst hr => ?_
  split
  · dsimp only
    exact (Shrinks.refl s).recordSeqid hr
  · dsimp only
    exact Shrinks.recordSeqid (Shrinks.putOpen hst rfl rfl) hr

theorem opClose_shrinks {seqid} : Shrinks s (s.opClose cfg stateid seqid hasFh).1 := by
  rw [opClose]
  split
  · exact Shrinks.refl s
  refine sequenced_rec (P := Shrinks s) (.refl s) fun st r hst hr => ?_
  dsimp only
  have hdel : Shrinks s { s with openStates := s.openStates.erase stateid.other } :=
    { Shrinks.refl s with
      opens := fun h => ⟨_, (of_erase h).2, rfl, rfl⟩
      count := length_erase_le _ _ }
  exact hdel.recordSeqid hr

theorem takeProbes_shrinks (s : Server) : Shrinks s s.takeProbes.2 :=
  { Shrinks.refl s with }

theorem Shrinks.adjustClient {id g} (n m : Nat) (hg : ∀ c, identity (g c) = identity c)
    (hn : s.nextClientid ≤ n) :
    Shrinks s { s with
      clients := s.clients.adjust id g, nextClientid := n, nextCallback := m } := by
  refine { Shrinks.refl s with clients := fun id' => ?_, nextClientid := hn }
  change ((s.clients.adjust id g).find? id').map identity = _
  rw [find?_adjust]
  split
  · rename_i he
    rw [he]
    cases s.clients.find? id with
    | none => rfl
    | some c => exact congrArg some (hg c)
  · rfl

theorem storeProbe_shrinks (s : Server) (probe : (ClientId × Nat) × Bool) :
    Shrinks s (s.storeProbe probe) := by
  refine Shrinks.adjustClient s.nextClientid s.nextCallback (fun c => ?_) (le_refl _)
  split <;> rfl

theorem storeProbes_shrinks (probes : List ((ClientId × Nat) × Bool)) (s : Server) :
    Shrinks s (probes.foldl storeProbe s) := by
  induction probes generalizing s with
  | nil => exact Shrinks.refl s
  | cons p ps ih => exact (storeProbe_shrinks s p).trans (ih _)

theorem reviewDelegation_clientid {now changed d d'}
    (h : s.reviewDelegation cfg now changed d = some d') : d'.clientid = d.clientid := by
  rw [reviewDelegation] at h
  split at h
  · cases h
  split at h
  · split at h
    · cases h
      rfl
    · cases h
  · cases h
    rfl

theorem reviewDelegations_shrinks (s : Server) (generation now : Nat) :
    Shrinks s (s.reviewDelegations cfg generation now).2 := by
  refine Shrinks.trans (t := _) ?_ (updateFrozenAttrs_shrinks _)
  refine { Shrinks.refl s with delegations := fun {o d} hd => ?_ }
  rw [find?_mapValues] at hd
  obtain ⟨d₀, hd₀, rfl⟩ := Option.map_eq_some_iff.mp hd
  obtain ⟨hd₀, hsome⟩ := of_select hd₀
  obtain ⟨d₁, hd₁⟩ := Option.isSome_iff_exists.mp hsome
  refine ⟨d₀, hd₀, ?_⟩
  rw [hd₁, Option.getD_some]
  exact reviewDelegation_clientid hd₁

theorem monitorUpdate_shrinks (s : Server) (probes : List ((ClientId × Nat) × Bool))
    (generation now : Nat) : Shrinks s (s.monitorUpdate cfg probes generation now).2 :=
  (storeProbes_shrinks probes s).trans (reviewDelegations_shrinks _ _ _)

theorem recallsSent_shrinks (s : Server) (failed : List Other) : Shrinks s (s.recallsSent failed) :=
  (Shrinks.delegations_only fun hd => ⟨_, (of_filter hd).1, rfl⟩).trans
    (updateFrozenAttrs_shrinks _)

/-! ## Opens -/

section

variable (hs : Sound cfg s)
include hs

theorem Sound.recordSeqid {seqid op status body} (hc : s.Confirmed owner.1) :
    Sound cfg (s.recordSeqid owner seqid op status body) := by
  rw [Server.recordSeqid]
  split
  · refine { hs with owners := fun {k r} hr => ?_ }
    rcases of_put hr with ⟨rfl, -⟩ | ⟨-, hr⟩
    · exact hc
    · exact hs.owners hr
  · exact hs

theorem Sound.fresh : (s.newStateidOther cfg).1 ∉ s.issued :=
  fun hmem => lt_irrefl _ (hs.numbers hmem)

section

variable (hlt : s.nextStateid + 1 < 2 ^ 64)
include hlt

theorem Sound.newStateidOther : Sound cfg (s.newStateidOther cfg).2 := by
  have hnext : (s.newStateidOther cfg).2.nextStateid = s.nextStateid + 1 := inc64_of_lt hlt
  refine { hs with issued := ⟨?_, ?_, ?_⟩, numbers := fun {o} ho => ?_ }
  · exact nodup_cons.mpr ⟨hs.fresh, hs.issued.1⟩
  · exact fun h => .tail _ (hs.issued.2.1 h)
  · exact fun h => .tail _ (hs.issued.2.2 h)
  rw [hnext]
  rcases mem_cons.mp ho with rfl | ho
  · exact lt_succ_self _
  · exact (hs.numbers ho).trans (lt_succ_self _)

theorem Sound.shareOpen {fh r} (hc : s.Confirmed owner.1) (h : s.shareOpen cfg owner fh = some r) :
    Sound cfg r.2 ∧ r.2.clients = s.clients ∧ r.2.nextStateid ≤ s.nextStateid + 1 := by
  rw [Server.shareOpen] at h
  split at h
  · cases h
    exact ⟨hs, rfl, le_succ _⟩
  rename_i hnone
  split at h
  · cases h
  rename_i hroom
  cases h
  have hnew := hs.newStateidOther hlt
  have hfresh := hs.fresh
  have habsent : s.openStates.find? (s.newStateidOther cfg).1 = none := by
    by_contra hne
    obtain ⟨st, hst⟩ := Option.ne_none_iff_exists'.mp hne
    exact hfresh (hs.issued.2.1 hst)
  have hother : ∀ {o st}, s.openStates.find? o = some st → ¬(st.owner = owner ∧ st.fh = fh) := by
    intro o st hst he
    have := find?_eq_none.mp hnone _ (find?_eq_some.mp hst)
    exact this (decide_eq_true he)
  refine ⟨{ hs with
    opens := fun {o st} hst => ?_
    distinct := fun {o o' st st'} hst hst' ho hf => ?_
    issued := ⟨hnew.issued.1, fun {o st} hst => ?_, hnew.issued.2.2⟩
    bounded := ?_
    numbers := hnew.numbers }, rfl, (inc64_of_lt hlt).le⟩
  · rcases of_put hst with ⟨rfl, rfl⟩ | ⟨-, hst⟩
    · exact hc
    · exact hs.opens hst
  · rcases of_put hst with ⟨rfl, rfl⟩ | ⟨-, hst⟩ <;>
      rcases of_put hst' with ⟨rfl, rfl⟩ | ⟨-, hst'⟩
    · rfl
    · exact absurd ⟨ho.symm, hf.symm⟩ (hother hst')
    · exact absurd ⟨ho, hf⟩ (hother hst)
    · exact hs.distinct hst hst' ho hf
  · rcases of_put hst with ⟨rfl, rfl⟩ | ⟨-, hst⟩
    · exact .head _
    · exact .tail _ (hs.issued.2.1 hst)
  · change (s.openStates.put _ _).entries.length ≤ cfg.maxStateids
    rw [length_put_of_none habsent]
    omega

omit hlt in
omit hs in
theorem bumpOpen_shrinks (s : Server) (o : Other) (shareAccess : Nat) :
    Shrinks s (s.bumpOpen o shareAccess) := by
  refine { Shrinks.refl s with
    opens := fun {o' st} h => ?_, count := (length_adjust _ _ _).le }
  obtain ⟨st₀, h₀, ⟨-, rfl⟩ | ⟨-, rfl⟩⟩ := of_adjust h
  · exact ⟨st₀, h₀, rfl, rfl⟩
  · exact ⟨st, h₀, rfl, rfl⟩

theorem Sound.putDelegation {clientid target} (hc : s.Confirmed clientid) :
    Sound cfg (s.putDelegation cfg clientid target).1 ∧
      (s.putDelegation cfg clientid target).1.clients = s.clients := by
  rw [Server.putDelegation]
  split
  · split
    · exact ⟨{ hs with }, rfl⟩
    split
    · exact ⟨hs, rfl⟩
    have hnew := hs.newStateidOther hlt
    refine ⟨{ hs with
      delegations := fun {o d} hd => ?_
      issued := ⟨hnew.issued.1, hnew.issued.2.1, fun {o d} hd => ?_⟩
      numbers := hnew.numbers }, rfl⟩
    · rcases of_put hd with ⟨-, rfl⟩ | ⟨-, hd⟩
      · exact hc
      · exact hs.delegations hd
    · rcases of_put hd with ⟨rfl, -⟩ | ⟨-, hd⟩
      · exact .head _
      · exact hnew.issued.2.2 hd
  · exact ⟨hs, rfl⟩

theorem Sound.tryDelegation {a target} (hc : s.Confirmed a.clientid) :
    Sound cfg (s.tryDelegation cfg a target).1 ∧
      (s.tryDelegation cfg a target).1.clients = s.clients := by
  rw [Server.tryDelegation]
  split
  · exact hs.putDelegation hlt hc
  · exact ⟨hs, rfl⟩

end

theorem Sound.openFinish {a creds target} (hlt : s.nextStateid + 2 < 2 ^ 64)
    (hc : s.Confirmed a.clientid) : Sound cfg (s.openFinish cfg a creds target).1 := by
  have hrec : ∀ {seqid op status body}, Sound cfg (s.recordSeqid a.key seqid op status body) :=
    hs.recordSeqid hc
  unfold Server.openFinish
  cases target with
  | error status => exact hrec
  | ok obj =>
    dsimp only
    split
    · split
      · exact hs
      rename_i r hr
      obtain ⟨hs₁, hcl₁, hn₁⟩ := hs.shareOpen (by omega) hc hr
      have hs₂ := hs₁.shrinks (bumpOpen_shrinks r.2 r.1 a.shareAccess)
      have hc₂ : (r.2.bumpOpen r.1 a.shareAccess).Confirmed a.clientid := by
        change ∃ c, r.2.clients.find? a.clientid = some c ∧ _
        rw [hcl₁]
        exact hc
      have hn₂ : (r.2.bumpOpen r.1 a.shareAccess).nextStateid + 1 < 2 ^ 64 := by
        change r.2.nextStateid + 1 < 2 ^ 64
        omega
      obtain ⟨hs₃, hcl₃⟩ : Sound cfg ((r.2.bumpOpen r.1 a.shareAccess).tryDelegation cfg a obj).1 ∧
          _ := hs₂.tryDelegation hn₂ hc₂
      dsimp only
      refine hs₃.recordSeqid ?_
      obtain ⟨c, hfind, hconf⟩ := hc₂
      exact ⟨c, hcl₃ ▸ hfind, hconf⟩
    · exact hrec

/-! ## Clients -/

variable {name : Opaque}

theorem Sound.newClient {verifier} (hlt : s.nextClientid + 1 < 2 ^ 32) :
    Sound cfg (s.newClient cfg verifier name).2 ∧
      (s.newClient cfg verifier name).2.nextClientid = s.nextClientid + 1 := by
  have hnext : (s.newClient cfg verifier name).2.nextClientid = s.nextClientid + 1 :=
    inc32_of_lt hlt
  have habsent : s.clients.find? ⟨cfg.boot, s.nextClientid⟩ = none := by
    by_contra hne
    obtain ⟨c, hc⟩ := Option.ne_none_iff_exists'.mp hne
    exact lt_irrefl _ (hs.clientNumbers hc)
  have hfind : ∀ {id c}, (s.newClient cfg verifier name).2.clients.find? id = some c →
      (id = ⟨cfg.boot, s.nextClientid⟩ ∧ c.confirmed = false) ∨ s.clients.find? id = some c := by
    intro id c hc
    rcases of_put hc with ⟨rfl, rfl⟩ | ⟨-, hc⟩
    · refine .inl ⟨rfl, ?_⟩
      rw [find?_select, habsent]
      rfl
    · exact .inr (of_select hc).1
  have hkeep : ∀ {id}, s.Confirmed id → (s.newClient cfg verifier name).2.Confirmed id := by
    rintro id ⟨c, hc, hconf⟩
    have hne : id ≠ ⟨cfg.boot, s.nextClientid⟩ := by
      rintro rfl
      rw [habsent] at hc
      cases hc
    refine ⟨c, ?_, hconf⟩
    change ((s.clients.select _).put _ _).find? id = some c
    rw [find?_put, if_neg hne, find?_select, hc]
    simp [hconf]
  refine ⟨⟨⟨fun hc hc' hcon hcon' hn => ?_, fun hst => hkeep (hs.opens hst),
    fun hr => hkeep (hs.owners hr), fun hd => hkeep (hs.delegations hd), hs.distinct, hs.issued,
    hs.bounded, fun {id} hid => ?_⟩, hs.numbers, fun {id c} hc => ?_, fun hid => ?_⟩, hnext⟩
  · rcases hfind hc with ⟨-, hf⟩ | hc
    · rw [hf] at hcon
      cases hcon
    rcases hfind hc' with ⟨-, hf⟩ | hc'
    · rw [hf] at hcon'
      cases hcon'
    · exact hs.unique hc hc' hcon hcon' hn
  · by_contra hne
    obtain ⟨c, hc⟩ := Option.ne_none_iff_exists'.mp hne
    rcases hfind hc with ⟨rfl, -⟩ | hc
    · exact lt_irrefl _ (hs.droppedNumbers hid)
    · rw [hs.gone hid] at hc
      cases hc
  · rw [hnext]
    rcases hfind hc with ⟨rfl, -⟩ | hc
    · exact lt_succ_self _
    · exact (hs.clientNumbers hc).trans (lt_succ_self _)
  · rw [hnext]
    exact (hs.droppedNumbers hid).trans (lt_succ_self _)

theorem Sound.opSetclientid {verifier callbackValid time} (hlt : s.nextClientid + 2 < 2 ^ 32) :
    Sound cfg (s.opSetclientid cfg verifier name callbackValid time).1 := by
  have hadjust : ∀ {u : Server} {id : ClientId} {g : Client → Client} {m : Nat}, Sound cfg u →
      (∀ c, identity (g c) = identity c) → u.nextClientid + 1 < 2 ^ 32 →
      Sound cfg { u with
        clients := u.clients.adjust id g, nextClientid := inc32 u.nextClientid
        nextCallback := m } := by
    intro u id g m hu hg hn
    refine hu.shrinks (Shrinks.adjustClient _ _ hg ?_)
    rw [inc32_of_lt hn]
    exact le_succ _
  rw [Server.opSetclientid]
  cases s.sameInstance verifier name with
  | some id =>
    dsimp only
    refine hadjust hs (fun c => ?_) (by omega)
    split <;> rfl
  | none =>
    obtain ⟨hnew, hn⟩ : Sound cfg (s.newClient cfg verifier name).2 ∧ _ := hs.newClient (by omega)
    dsimp only
    refine hadjust hnew (fun c => ?_) (by omega)
    split <;> rfl

end

/-- What is left after dropping clients. -/
structure DroppedAll (s : Server) (ids : List ClientId) (t : Server) : Prop where
  clients : ∀ x, t.clients.find? x = if x ∈ ids then none else s.clients.find? x
  opens : ∀ {o st}, t.openStates.find? o = some st →
    s.openStates.find? o = some st ∧ st.owner.1 ∉ ids
  owners : ∀ {k r}, t.owners.find? k = some r → s.owners.find? k = some r ∧ k.1 ∉ ids
  delegations : ∀ {o d}, t.delegations.find? o = some d →
    s.delegations.find? o = some d ∧ d.clientid ∉ ids
  count : t.openStates.entries.length ≤ s.openStates.entries.length
  issued : t.issued = s.issued
  dropped : ∀ {x}, x ∈ t.dropped → x ∈ ids ∨ x ∈ s.dropped
  nextStateid : t.nextStateid = s.nextStateid
  nextClientid : t.nextClientid = s.nextClientid

theorem droppedAll_foldl (ids : List ClientId) (s : Server) :
    DroppedAll s ids (ids.foldl dropClient s) := by
  induction ids generalizing s with
  | nil =>
    exact ⟨fun _ => by simp, fun h => ⟨h, not_mem_nil⟩, fun h => ⟨h, not_mem_nil⟩,
      fun h => ⟨h, not_mem_nil⟩, le_refl _, rfl, .inr, rfl, rfl⟩
  | cons id ids ih =>
    have h := ih (s.dropClient id)
    refine ⟨fun x => ?_, fun {o st} hst => ?_, fun {k r} hr => ?_, fun {o d} hd => ?_,
      h.count.trans (length_select_le _ _), h.issued, fun {x} hx => ?_, h.nextStateid,
      h.nextClientid⟩
    · rw [foldl_cons, h.clients]
      change (if x ∈ ids then none else (s.clients.erase id).find? x) = _
      rw [find?_erase]
      by_cases hx : x = id <;> by_cases hm : x ∈ ids <;> simp [hx, hm]
    · obtain ⟨hst, hni⟩ := h.opens hst
      obtain ⟨hst, hne⟩ := of_select hst
      exact ⟨hst, by simpa [hni] using hne⟩
    · obtain ⟨hr, hni⟩ := h.owners hr
      obtain ⟨hr, hne⟩ := of_filter hr
      exact ⟨hr, by simpa [hni] using hne⟩
    · obtain ⟨hd, hni⟩ := h.delegations hd
      obtain ⟨hd, hne⟩ := of_select hd
      exact ⟨hd, by simpa [hni] using hne⟩
    rcases h.dropped hx with hx | hx
    · exact .inl (.tail _ hx)
    · rcases mem_cons.mp hx with rfl | hx
      · exact .inl (.head _)
      · exact .inr hx

theorem mem_previous {id x} :
    x ∈ s.previous id name ↔ ∃ c, s.clients.find? x = some c ∧ x ≠ id ∧ c.name = name := by
  rw [previous, mem_map]
  constructor
  · rintro ⟨e, he, rfl⟩
    obtain ⟨he, hp⟩ := mem_filter.mp he
    obtain ⟨hne, hn⟩ := of_decide_eq_true hp
    exact ⟨e.2, find?_of_mem he, hne, hn⟩
  · rintro ⟨c, hc, hne, hn⟩
    exact ⟨(x, c), mem_filter.mpr ⟨find?_eq_some.mp hc, decide_eq_true ⟨hne, hn⟩⟩, rfl⟩

theorem Sound.replace {id c} (hs : Sound cfg s) (hc : s.clients.find? id = some c) :
    Sound cfg (((s.setConfirmed id).previous id c.name).foldl dropClient (s.setConfirmed id)) := by
  have hd := droppedAll_foldl ((s.setConfirmed id).previous id c.name) (s.setConfirmed id)
  have hids : ∀ {x c'}, x ≠ id → s.clients.find? x = some c' → c'.name = c.name →
      x ∈ (s.setConfirmed id).previous id c.name := by
    intro x c' hx hc' hn
    refine mem_previous.mpr ⟨c', ?_, hx, hn⟩
    change (s.clients.adjust id _).find? x = some c'
    rw [find?_adjust, if_neg hx]
    exact hc'
  have hback : ∀ {x}, x ∈ (s.setConfirmed id).previous id c.name → x.number < s.nextClientid := by
    intro x hx
    obtain ⟨c', hc', -⟩ := mem_previous.mp hx
    obtain ⟨c₀, hc₀, -⟩ := of_adjust hc'
    exact hs.clientNumbers hc₀
  generalize (s.setConfirmed id).previous id c.name = ids at hd hids hback
  generalize ids.foldl dropClient (s.setConfirmed id) = t at hd
  have hfind : ∀ x, t.clients.find? x = if x ∈ ids then none
      else if x = id then some { c with confirmed := true } else s.clients.find? x := by
    intro x
    rw [hd.clients]
    change (if x ∈ ids then none else (s.clients.adjust id _).find? x) = _
    rw [find?_adjust, hc]
    rfl
  have hclient : ∀ {x c'}, t.clients.find? x = some c' → x ∉ ids ∧
      ((x = id ∧ c' = { c with confirmed := true }) ∨ (x ≠ id ∧ s.clients.find? x = some c')) := by
    intro x c' hx
    rw [hfind] at hx
    split at hx
    · cases hx
    refine ⟨‹_›, ?_⟩
    split at hx
    · exact .inl ⟨‹_›, (Option.some.inj hx).symm⟩
    · exact .inr ⟨‹_›, hx⟩
  have hkeep : ∀ {x}, s.Confirmed x → x ∉ ids → t.Confirmed x := by
    rintro x ⟨c', hc', hconf⟩ hx
    by_cases hid : x = id
    · exact ⟨_, by rw [hfind, if_neg hx, if_pos hid], rfl⟩
    · exact ⟨c', by rw [hfind, if_neg hx, if_neg hid]; exact hc', hconf⟩
  refine ⟨⟨fun hc₁ hc₂ hf₁ hf₂ hn => ?_, fun hst => ?_, fun hr => ?_, fun hdel => ?_,
    fun hst hst' => hs.distinct (hd.opens hst).1 (hd.opens hst').1, ⟨?_, fun hst => ?_,
    fun hdel => ?_⟩, hd.count.trans hs.bounded, fun {x} hx => ?_⟩, fun ho => ?_, fun {x c'} hx => ?_,
    fun {x} hx => ?_⟩
  · obtain ⟨hx₁, ⟨rfl, rfl⟩ | ⟨hne₁, hc₁⟩⟩ := hclient hc₁ <;>
      obtain ⟨hx₂, ⟨rfl, rfl⟩ | ⟨hne₂, hc₂⟩⟩ := hclient hc₂
    · rfl
    · exact absurd (hids hne₂ hc₂ hn.symm) hx₂
    · exact absurd (hids hne₁ hc₁ hn) hx₁
    · exact hs.unique hc₁ hc₂ hf₁ hf₂ hn
  · obtain ⟨hst, hx⟩ := hd.opens hst
    exact hkeep (hs.opens hst) hx
  · obtain ⟨hr, hx⟩ := hd.owners hr
    exact hkeep (hs.owners hr) hx
  · obtain ⟨hdel, hx⟩ := hd.delegations hdel
    exact hkeep (hs.delegations hdel) hx
  · rw [hd.issued]
    exact hs.issued.1
  · rw [hd.issued]
    exact hs.issued.2.1 (hd.opens hst).1
  · rw [hd.issued]
    exact hs.issued.2.2 (hd.delegations hdel).1
  · by_contra hne
    obtain ⟨c', hc'⟩ := Option.ne_none_iff_exists'.mp hne
    obtain ⟨hni, hcase⟩ := hclient hc'
    have hgone := hs.gone ((hd.dropped hx).resolve_left hni)
    rcases hcase with ⟨rfl, -⟩ | ⟨-, hcase⟩
    · rw [hc] at hgone
      cases hgone
    · rw [hcase] at hgone
      cases hgone
  · rw [hd.nextStateid]
    exact hs.numbers (hd.issued ▸ ho)
  · rw [hd.nextClientid]
    obtain ⟨-, ⟨rfl, -⟩ | ⟨-, hx⟩⟩ := hclient hx
    · exact hs.clientNumbers hc
    · exact hs.clientNumbers hx
  · rw [hd.nextClientid]
    rcases hd.dropped hx with hx | hx
    · exact hback hx
    · exact hs.droppedNumbers hx

theorem queueProbe_shrinks (cfg : Config) (s : Server) (id : ClientId) (c : Client) :
    Shrinks s (s.queueProbe cfg id c) := by
  rw [queueProbe]
  split
  · exact { Shrinks.refl _ with }
  · exact Shrinks.refl s

theorem queueProbe_clients (s : Server) (id : ClientId) (c : Client) :
    (s.queueProbe cfg id c).clients = s.clients := by
  rw [queueProbe]
  split <;> rfl

theorem Sound.opSetclientidConfirm {id confirm} (hs : Sound cfg s) :
    Sound cfg (s.opSetclientidConfirm cfg id confirm).1 := by
  rw [Server.opSetclientidConfirm]
  cases hc : s.clients.find? id with
  | none => exact hs
  | some c =>
    have hq := hs.shrinks (queueProbe_shrinks cfg s id c)
    dsimp only
    split
    · exact hs
    · split
      · exact hq
      · exact hq.replace ((congrArg (find? · id) (queueProbe_clients s id c)).trans hc)

theorem checkClient_eq_ok {id} (h : s.checkClient cfg id = .ok) : s.Confirmed id := by
  rw [checkClient] at h
  split at h
  · cases h
  split at h
  · cases h
  rename_i c hc
  split at h
  · exact ⟨c, hc, ‹_›⟩
  · cases h

end Server

/-! ## Runs -/

namespace World

variable {cfg : Config} {w w' : World}

/-- The client of an `OPEN` is still there when it installs its state, and the 32-bit
and 64-bit numbers do not wrap. -/
def Timely (cfg : Config) (w : World) : Event → Prop
  | .setclientid .. => w.server.nextClientid + 2 < 2 ^ 32
  | .openFinish thread =>
    w.server.nextStateid + 2 < 2 ^ 64 ∧
      ∀ p, w.opens.find? thread = some p → w.server.checkClient cfg p.args.clientid = .ok
  | _ => True

theorem sound_exec {e a} (hs : w.server.Sound cfg) (hg : w.Timely cfg e)
    (h : w.exec cfg e = some (w', a)) : w'.server.Sound cfg := by
  cases e with
  | setclientid verifier name callbackValid time =>
    cases h
    exact hs.opSetclientid hg
  | setclientidConfirm id confirm =>
    cases h
    exact hs.opSetclientidConfirm
  | openBegin thread args creds hasFh =>
    rw [exec] at h
    split at h
    · cases h
    · split at h <;> cases h <;> exact hs
  | openLookup thread target | monitorRead =>
    rw [exec] at h
    split at h
    · cases h
      exact hs
    · cases h
  | openFinish thread =>
    rw [exec] at h
    split at h
    · rename_i args creds target hp
      cases h
      exact hs.openFinish hg.1 (checkClient_eq_ok (hg.2 _ hp))
    · cases h
  | openConfirm stateid seqid hasFh =>
    cases h
    exact hs.shrinks opOpenConfirm_shrinks
  | openDowngrade stateid seqid shareAccess hasFh =>
    cases h
    exact hs.shrinks opOpenDowngrade_shrinks
  | close stateid seqid hasFh =>
    cases h
    exact hs.shrinks opClose_shrinks
  | delegreturn stateid =>
    cases h
    exact hs.shrinks (opDelegreturn_shrinks _ _)
  | generation new =>
    cases h
    exact hs
  | monitorStart =>
    rw [exec] at h
    split at h
    · cases h
      exact hs.shrinks (takeProbes_shrinks _)
    · cases h
  | monitorUpdate probeOk now =>
    rw [exec] at h
    split at h
    · cases h
      exact hs.shrinks (monitorUpdate_shrinks _ _ _ _)
    · cases h
  | monitorRecalled failed =>
    rw [exec] at h
    split at h
    · cases h
      exact hs.shrinks (recallsSent_shrinks _ _)
    · cases h

end World

theorem Started.sound {cfg w} (h : Started w) : w.server.Sound cfg := by
  obtain ⟨g, rfl⟩ := h
  refine ⟨⟨fun hc => ?_, fun hc => ?_, fun hc => ?_, fun hc => ?_, fun hc => ?_,
    ⟨nodup_nil, fun hc => ?_, fun hc => ?_⟩, zero_le _, fun hc => ?_⟩, fun hc => ?_,
    fun hc => ?_, fun hc => ?_⟩ <;> cases hc

/-- **State of live clients.** In every run in which the client of each `OPEN` is still
there when the `OPEN` installs its state, all state belongs to confirmed clients, and
nothing is left of those that were replaced. -/
theorem state_of_live_clients {cfg : Config} {w : World}
    (h : (system cfg).Reach (World.Timely cfg) w) :
    w.server.Owned cfg ∧ ∀ id ∈ w.server.dropped, w.server.NothingLeft id := by
  have hs : w.server.Sound cfg := by
    refine System.Reach.invariant (P := fun w => w.server.Sound cfg)
      (fun _ (hw : Started _) => hw.sound) ?_ h
    rintro w e w' hs hg ⟨a, he⟩
    exact World.sound_exec hs hg he
  exact ⟨hs.toOwned, fun id hid => hs.toOwned.nothingLeft hid⟩

/-! ## A client is replaced during its `OPEN` -/

theorem reach_exec {cfg} {guard : World → Event → Prop} {w w' e a} (h : (system cfg).Reach guard w)
    (hg : guard w e) (he : w.exec cfg e = some (w', a)) : (system cfg).Reach guard w' :=
  h.step hg ⟨a, he⟩

theorem reach_events {cfg w} (es : List Event)
    (h : es.foldlM (fun w e => (w.exec cfg e).map Prod.fst) { generation := 1 } = some w) :
    (system cfg).Reach System.anyStep w := by
  refine System.Reach.follow (fun w e w' hw => ?_) (.init ⟨1, rfl⟩) h
  obtain ⟨r, hr, rfl⟩ := Option.map_eq_some_iff.mp hw
  exact ⟨r.2, hr⟩

def plainConfig : Config := ⟨7, 90, 65536, false⟩

def sampleFile : FileHandle × Attr := (⟨.object, 1, 5, 0⟩, ⟨5, 0o100644, 0, 0⟩)

/-- The first `OPEN` of an owner. -/
def sampleOpen (clientid : ClientId) : OpenArgs :=
  ⟨1, 1, 0, clientid, [1], false, .null [102]⟩

theorem state_of_live_clients_open : ∃ w, (system plainConfig).Reach (World.Timely plainConfig) w ∧
      w.server.openStates.entries.length = 1 ∧ w.server.Owned plainConfig := by
  have h₀ : (system plainConfig).Reach (World.Timely plainConfig) { generation := 1 } :=
    .init ⟨1, rfl⟩
  have h₁ := reach_exec (e := .setclientid [1] [65] false 0) h₀ (by decide : (_ : Nat) < _) rfl
  have h₂ := reach_exec (e := .setclientidConfirm ⟨7, 1⟩ (2 ^ 33)) h₁ trivial rfl
  have h₃ := reach_exec (e := .openBegin 0 (sampleOpen ⟨7, 1⟩) ⟨0, 0, []⟩ true) h₂ trivial rfl
  have h₄ := reach_exec (e := .openLookup 0 (.ok sampleFile)) h₃ trivial rfl
  have h₅ := reach_exec (e := .openFinish 0) h₄ ⟨by decide, fun p hp => by cases hp; rfl⟩ rfl
  exact ⟨_, h₅, rfl, (state_of_live_clients h₅).1⟩

/-- A new incarnation is confirmed while an `OPEN` of the old one looks up its file:
the open state that is installed then belongs to nobody. -/
theorem open_outlives_client : ∃ w, (system plainConfig).Reach System.anyStep w ∧
      ∃ o st, w.server.openStates.find? o = some st ∧ st.owner.1 ∈ w.server.dropped ∧
        w.server.clients.find? st.owner.1 = none := by
  refine ⟨_, reach_events [.setclientid [1] [65] false 0, .setclientidConfirm ⟨7, 1⟩ (2 ^ 33),
    .openBegin 0 (sampleOpen ⟨7, 1⟩) ⟨0, 0, []⟩ true, .setclientid [2] [65] false 0,
    .setclientidConfirm ⟨7, 3⟩ (2 ^ 34), .openLookup 0 (.ok sampleFile), .openFinish 0] rfl, ?_⟩
  exact ⟨⟨7, 1⟩, _, rfl, mem_singleton.mpr rfl, rfl⟩

end Cvmfs.Nfs4
