import Cvmfs.Nfs4.Exchange

/-! # Sequence numbers, one operation at a time

A request with the next sequence number of its owner is refused with a status after
which the number does not advance, or it is executed and its number is recorded with
the answer (`Handled`). Three exits of the operations answer otherwise, and are ruled
out here by `Plain` and `Current`: `OPEN` with `OPEN4_CREATE`, an unknown claim and
an old stateid. Steps without a sequence number at most forget dropped clients. -/

namespace Cvmfs.Nfs4

open Lib Table Server Nat Option

theorem inc32_ne (n : Nat) : inc32 n ≠ n := by
  rw [inc32]
  omega

/-! ## What one operation does -/

variable {cfg : Config} {w w' : World} {opened : Table Other OwnerKey}

namespace Server

variable {s t u : Server}

/-- A request is executed: its number is recorded with the answer. -/
structure Executed (cfg : Config) (s : Server) (q : Request) (a : Answer) (t : Server) : Prop where
  advances : seqidAdvances a.1 = true
  owners : t.owners = s.owners.put q.key ⟨q.seqid, q.op, a.1, a.2⟩
  opens : ∀ {o st}, t.openStates.find? o = some st →
    (∃ st₀, s.openStates.find? o = some st₀ ∧ st.owner = st₀.owner) ∨
      (st.owner = q.key ∧ s.nextStateid ≤ o.number ∧ o.number < t.nextStateid)
  opened : ∀ {id d}, a.2 = .opened id d →
    ∃ st, t.openStates.find? id.other = some st ∧ st.owner = q.key
  closed : q.op = .close → ∃ id, q.stateid? = some id ∧ a.2.other? = some id.other ∧
    t.openStates.find? id.other = none ∧ id.other.boot = cfg.boot
  nextStateid : s.nextStateid ≤ t.nextStateid
  dropped : t.dropped = s.dropped

/-- A request is refused without an effect, or it is executed. -/
inductive Handled (cfg : Config) (s : Server) (q : Request) : Answer → Server → Prop
  | refused {status} : seqidAdvances status = false → status ≠ .badSeqid →
    Handled cfg s q (status, .empty) s
  | executed {a t} : Executed cfg s q a t → Handled cfg s q a t

variable {q : Request} {a : Answer}

section

variable (h : Handled cfg s q a t)
include h

theorem Handled.ne_badSeqid : a.1 ≠ .badSeqid := by
  cases h with
  | refused _ hne => exact hne
  | executed he =>
    intro hbad
    have hadv := he.advances
    rw [hbad] at hadv
    cases hadv

theorem Handled.refused_or :
    (t = s ∧ seqidAdvances a.1 = false ∧ a.2 = .empty) ∨ Executed cfg s q a t := by
  cases h with
  | refused hadv _ => exact .inl ⟨rfl, hadv, rfl⟩
  | executed he => exact .inr he

variable {k : OwnerKey}

theorem Handled.owners_other (hk : k ≠ q.key) : t.owners.find? k = s.owners.find? k := by
  cases h with
  | refused => rfl
  | executed he => rw [he.owners, find?_put, if_neg hk]

theorem Handled.dropped : t.dropped = s.dropped := by
  cases h with
  | refused => rfl
  | executed he => exact he.dropped

end

/-- `OPEN4_CREATE` needs a missing file handle, and the claim is known. -/
def Plain (args : OpenArgs) (hasFh : Bool) : Prop :=
  (args.create = true → hasFh = false) ∧ ∀ n, args.claim ≠ .unknown n

theorem checkClient_eq (cfg : Config) (s : Server) (id : ClientId) :
    s.checkClient cfg id = .ok ∨ s.checkClient cfg id = .staleClientid := by
  rw [checkClient]
  split
  · exact .inr rfl
  split
  · exact .inr rfl
  · split
    · exact .inl rfl
    · exact .inr rfl

variable {n : Nat}

theorem checkSeqid_next {op createOwner}
    (hnext : ∀ r, s.owners.find? k = some r → n = inc32 r.seqid)
    (hrec : createOwner = false → ∃ r, s.owners.find? k = some r) :
    s.checkSeqid k n op createOwner = .process := by
  rw [checkSeqid]
  split
  · rename_i hnone
    cases createOwner with
    | true => rfl
    | false =>
      obtain ⟨r, hr⟩ := hrec rfl
      rw [hnone] at hr
      cases hr
  · rename_i r hr
    rw [if_pos (hnext r hr)]

variable {r : OpenOwner}

theorem checkSeqid_again {op createOwner} (hr : s.owners.find? k = some r) (hop : r.lastOp = op) :
    s.checkSeqid k r.seqid op createOwner = .replay r.lastStatus r.lastBody := by
  rw [checkSeqid, hr]
  dsimp only
  rw [if_neg (inc32_ne r.seqid).symm, if_pos ⟨rfl, hop⟩]

variable {args : OpenArgs} {hasFh : Bool}

theorem openBegin_next {creds} (hplain : Plain args hasFh)
    (hnext : ∀ r, s.owners.find? args.key = some r → args.seqid = inc32 r.seqid)
    (h : s.openBegin cfg args hasFh = some a) : Handled cfg s (.open args creds) a s := by
  rw [openBegin] at h
  split at h
  · rename_i hcreate
    cases h
    rw [hplain.1 hcreate]
    exact .refused rfl (by decide)
  split at h
  · rename_i n hclaim
    exact absurd hclaim (hplain.2 n)
  split at h
  · cases h
    exact .refused rfl (by decide)
  rw [checkSeqid_next hnext (fun hc => by cases hc)] at h
  rcases checkClient_eq cfg s args.clientid with hc | hc
  · rw [hc] at h
    cases h
  · rw [hc] at h
    cases h
    exact .refused rfl (by decide)

theorem openBegin_known (hplain : Plain args true)
    (hclient : s.checkClient cfg args.clientid = .ok)
    (hnext : ∀ r, s.owners.find? args.key = some r → args.seqid = inc32 r.seqid) :
    s.openBegin cfg args true = none := by
  have hcreate : args.create = false := by
    by_contra hc
    cases hplain.1 (Bool.not_eq_false _ ▸ hc)
  have hproc : s.checkSeqid args.key args.seqid .open true = .process :=
    checkSeqid_next hnext fun hc => by cases hc
  rw [openBegin, hcreate, hclient, hproc]
  cases hclaim : args.claim with
  | unknown n => exact absurd hclaim (hplain.2 n)
  | _ => rfl

theorem openBegin_again (hr : s.owners.find? args.key = some r) (hn : r.seqid = args.seqid)
    (hop : r.lastOp = .open) (hadv : seqidAdvances r.lastStatus = true) :
    ∃ a, s.openBegin cfg args hasFh = some a ∧ a.1 ≠ .badSeqid := by
  rw [openBegin, ← hn, checkSeqid_again hr hop]
  split
  · refine ⟨_, rfl, ?_⟩
    cases hasFh <;> exact fun h => by cases h
  split
  · exact ⟨_, rfl, by decide⟩
  split
  · exact ⟨_, rfl, by decide⟩
  rcases checkClient_eq cfg s args.clientid with hc | hc
  · rw [hc]
    refine ⟨_, rfl, fun hbad => ?_⟩
    rw [show r.lastStatus = .badSeqid from hbad] at hadv
    cases hadv
  · rw [hc]
    exact ⟨_, rfl, by decide⟩

theorem recordSeqid_advances {op status body} (h : seqidAdvances status = true) :
    s.recordSeqid k n op status body =
      { s with owners := s.owners.put k ⟨n, op, status, body⟩ } := by
  rw [recordSeqid, if_pos h]

theorem Executed.plain {status} (h : seqidAdvances status = true) (hop : q.op ≠ .close) :
    Executed cfg s q (status, .empty) (s.recordSeqid q.key q.seqid q.op status .empty) := by
  rw [recordSeqid_advances h]
  refine ⟨h, rfl, fun hst => .inl ⟨_, hst, rfl⟩, fun hb => ?_, fun hc => absurd hc hop,
    le_refl _, rfl⟩
  cases hb

theorem openCheck_advances (args : OpenArgs) (creds : Credentials) (target : Object) :
    seqidAdvances (openCheck args creds target) = true := by
  rw [openCheck]
  split_ifs <;> rfl

theorem shareOpen_spec {fh r} (hlt : s.nextStateid + 1 < 2 ^ 64) (h : s.shareOpen cfg k fh = some r) :
    (∃ st, r.2.openStates.find? r.1 = some st ∧ st.owner = k) ∧
      (∀ {o st}, r.2.openStates.find? o = some st → s.openStates.find? o = some st ∨
        (st.owner = k ∧ s.nextStateid ≤ o.number ∧ o.number < r.2.nextStateid)) ∧
      r.2.owners = s.owners ∧ r.2.dropped = s.dropped ∧ s.nextStateid ≤ r.2.nextStateid ∧
      r.2.nextStateid ≤ s.nextStateid + 1 := by
  rw [shareOpen] at h
  split at h
  · rename_i e he
    cases h
    have hp : e.2.owner = k ∧ e.2.fh = fh := by simpa using List.find?_some he
    exact ⟨⟨e.2, find?_of_mem (List.mem_of_find?_eq_some he), hp.1⟩, .inl, rfl, rfl,
      le_refl _, le_succ _⟩
  split at h
  · cases h
  cases h
  have hnext : (s.newStateidOther cfg).2.nextStateid = s.nextStateid + 1 := inc64_of_lt hlt
  refine ⟨⟨_, find?_put_self, rfl⟩, fun {o st} hst => ?_, rfl, rfl, ?_, ?_⟩
  · rcases of_put hst with ⟨rfl, rfl⟩ | ⟨-, hst⟩
    · refine .inr ⟨rfl, le_refl _, ?_⟩
      change s.nextStateid < (s.newStateidOther cfg).2.nextStateid
      omega
    · exact .inl hst
  · change s.nextStateid ≤ (s.newStateidOther cfg).2.nextStateid
    omega
  · exact hnext.le

theorem tryDelegation_frame (cfg : Config) (args : OpenArgs) (target : Object)
    (hlt : s.nextStateid + 1 < 2 ^ 64) : (s.tryDelegation cfg args target).1.owners = s.owners ∧
      (s.tryDelegation cfg args target).1.openStates = s.openStates ∧
      (s.tryDelegation cfg args target).1.dropped = s.dropped ∧
      s.nextStateid ≤ (s.tryDelegation cfg args target).1.nextStateid := by
  rw [tryDelegation]
  split
  · rw [putDelegation]
    split
    · split
      · exact ⟨rfl, rfl, rfl, le_refl _⟩
      split
      · exact ⟨rfl, rfl, rfl, le_refl _⟩
      refine ⟨rfl, rfl, rfl, ?_⟩
      change s.nextStateid ≤ inc64 s.nextStateid
      rw [inc64_of_lt hlt]
      exact le_succ _
    · exact ⟨rfl, rfl, rfl, le_refl _⟩
  · exact ⟨rfl, rfl, rfl, le_refl _⟩

theorem advances_of_lookupFails {status} (h : lookupFails status = true) :
    seqidAdvances status = true := by
  revert h
  cases status <;> decide

theorem openFinish_handled {creds target} (hlt : s.nextStateid + 2 < 2 ^ 64)
    (hfail : ∀ status, target = .error status → lookupFails status = true) :
    Handled cfg s (.open args creds) (s.openFinish cfg args creds target).2
      (s.openFinish cfg args creds target).1 := by
  unfold openFinish
  cases target with
  | error status =>
    exact .executed (Executed.plain (q := .open args creds)
      (advances_of_lookupFails (hfail status rfl)) nofun)
  | ok obj =>
    have hadv := openCheck_advances args creds obj
    dsimp only
    split
    · split
      · exact .refused rfl (by decide)
      rename_i r hr
      obtain ⟨⟨st, hst, hown⟩, hold, howners, hdropped, hle, hle'⟩ := shareOpen_spec (by omega) hr
      have hbump : ∀ {o st}, (r.2.bumpOpen r.1 args.shareAccess).openStates.find? o = some st →
          ∃ st₀, r.2.openStates.find? o = some st₀ ∧ st.owner = st₀.owner := by
        intro o st hst
        obtain ⟨st₀, h₀, howner, -⟩ := (bumpOpen_shrinks r.2 r.1 args.shareAccess).opens hst
        exact ⟨st₀, h₀, howner⟩
      have hmine : ∃ st, (r.2.bumpOpen r.1 args.shareAccess).openStates.find? r.1 = some st ∧
          st.owner = args.key := by
        refine ⟨{ st with seqid := inc32 st.seqid, access := st.access ||| args.shareAccess },
          (find?_adjust ..).trans ?_, hown⟩
        rw [if_pos rfl, hst]
        rfl
      have hroom : (r.2.bumpOpen r.1 args.shareAccess).nextStateid + 1 < 2 ^ 64 := by
        change r.2.nextStateid + 1 < 2 ^ 64
        omega
      obtain ⟨ho, hs, hd, hn⟩ := tryDelegation_frame cfg args obj hroom
      rw [recordSeqid_advances rfl]
      refine .executed ⟨rfl, ?_, fun {o st} hst => ?_, fun {id d} hb => ?_, fun hc => ?_, ?_, ?_⟩
      · rw [ho]
        exact congrArg (put · _ _) howners
      · rw [hs] at hst
        obtain ⟨st₀, h₀, howner⟩ := hbump hst
        rcases hold h₀ with h₀ | ⟨hk, hge, hlt'⟩
        · exact .inl ⟨st₀, h₀, howner⟩
        · exact .inr ⟨howner.trans hk, hge, hlt'.trans_le hn⟩
      · cases hb
        rw [hs]
        exact hmine
      · cases hc
      · exact hle.trans hn
      · exact hd.trans hdropped
    · rename_i hne
      exact .executed (Executed.plain (q := .open args creds) hadv nofun)

theorem openFinish_advances {creds target} (hroom : s.openStates.entries.length < cfg.maxStateids)
    (hfail : ∀ status, target = .error status → lookupFails status = true) :
    seqidAdvances (s.openFinish cfg args creds target).2.1 = true := by
  unfold openFinish
  cases target with
  | error status => exact advances_of_lookupFails (hfail status rfl)
  | ok obj =>
    dsimp only
    split
    · rw [shareOpen, if_neg (not_le.mpr hroom)]
      cases s.openStates.entries.find? _ <;> rfl
    · exact openCheck_advances args creds obj

variable {stateid : Stateid}

theorem findOpenState_eq_error {exactSeqid status}
    (h : s.findOpenState cfg stateid exactSeqid = .error status) :
    status = .staleStateid ∨ status = .badStateid ∨ (status = .oldStateid ∧
        ∃ st, s.openStates.find? stateid.other = some st ∧ stateid.seqid < st.seqid) := by
  rw [findOpenState] at h
  split at h
  · cases h
    exact .inl rfl
  split at h
  · cases h
    exact .inr (.inl rfl)
  rename_i st hst
  split at h
  · cases h
    exact .inr (.inl rfl)
  split at h
  · rename_i hold
    cases h
    rw [Bool.and_eq_true, decide_eq_true_eq] at hold
    exact .inr (.inr ⟨rfl, st, hst, hold.2⟩)
  · cases h

variable {st : OpenState}

theorem findOpenState_boot {exactSeqid} (h : s.findOpenState cfg stateid exactSeqid = .ok st) :
    stateid.other.boot = cfg.boot := by
  by_contra hne
  rw [findOpenState, if_pos hne] at h
  cases h

theorem sequenced_next {op process} (hown : ∀ {st}, s.openStates.find? stateid.other = some st →
      st.owner = k ∧ st.seqid ≤ stateid.seqid ∧ ∃ r, s.owners.find? k = some r)
    (hnext : ∀ r, s.owners.find? k = some r → n = inc32 r.seqid)
    (hproc : ∀ st, s.openStates.find? stateid.other = some st → stateid.other.boot = cfg.boot →
      st.owner = k → Executed cfg s q (process st).2 (process st).1) :
    Handled cfg s q (s.sequenced cfg stateid n op hasFh process).2
      (s.sequenced cfg stateid n op hasFh process).1 := by
  rw [sequenced]
  split
  · exact .refused rfl (by decide)
  cases hf : s.findOpenState cfg stateid true with
  | error status =>
    rcases findOpenState_eq_error hf with rfl | rfl | ⟨-, st, hst, hlt⟩
    · exact .refused rfl (by decide)
    · exact .refused rfl (by decide)
    · exact absurd hlt (not_lt.mpr (hown hst).2.1)
  | ok st =>
    have hst := findOpenState_eq_ok hf
    obtain ⟨hk, -, hrec⟩ := hown hst
    dsimp only
    rw [hk, checkSeqid_next hnext fun _ => hrec]
    exact .executed (hproc st hst (findOpenState_boot hf) hk)

theorem sequenced_found {op process} (hboot : stateid.other.boot = cfg.boot)
    (hst : s.openStates.find? stateid.other = some st) (heq : stateid.seqid = st.seqid)
    (hproc : s.checkSeqid st.owner n op false = .process) :
    s.sequenced cfg stateid n op true process = process st := by
  have hfound : s.findOpenState cfg stateid true = .ok st := by
    simp [findOpenState, hboot, hst, heq]
  simp [sequenced, hfound, hproc]

theorem sequenced_again {op process}
    (hown : ∀ {st}, s.openStates.find? stateid.other = some st → st.owner = k)
    (hr : s.owners.find? k = some r) (hop : r.lastOp = op)
    (hadv : seqidAdvances r.lastStatus = true) :
    ∃ a, s.sequenced cfg stateid r.seqid op hasFh process = (s, a) ∧ a.1 ≠ .badSeqid := by
  rw [sequenced]
  split
  · exact ⟨_, rfl, by decide⟩
  cases hf : s.findOpenState cfg stateid true with
  | error status =>
    rcases findOpenState_eq_error hf with rfl | rfl | ⟨rfl, -⟩ <;>
      exact ⟨_, rfl, by decide⟩
  | ok st =>
    have hk := hown (findOpenState_eq_ok hf)
    dsimp only
    rw [hk, checkSeqid_again hr hop]
    refine ⟨_, rfl, fun hbad => ?_⟩
    rw [show r.lastStatus = .badSeqid from hbad] at hadv
    cases hadv

variable {o : Other}

theorem Executed.replaced {st' id} (hst : s.openStates.find? o = some st)
    (howner : st'.owner = st.owner) (hop : q.op ≠ .close) :
    Executed cfg s q (.ok, .stateid id)
      { s with
        openStates := s.openStates.put o st'
        owners := s.owners.put q.key ⟨q.seqid, q.op, .ok, .stateid id⟩ } := by
  refine ⟨rfl, rfl, fun {o' st₁} h₁ => ?_, fun hb => ?_, fun hc => absurd hc hop, le_refl _, rfl⟩
  · rcases of_put h₁ with ⟨rfl, rfl⟩ | ⟨-, h₁⟩
    · exact .inl ⟨st, hst, howner⟩
    · exact .inl ⟨_, h₁, rfl⟩
  · cases hb

section Next

variable (hown : ∀ {st}, s.openStates.find? stateid.other = some st →
    st.owner = k ∧ st.seqid ≤ stateid.seqid ∧ ∃ r, s.owners.find? k = some r)
  (hnext : ∀ r, s.owners.find? k = some r → n = inc32 r.seqid)

include hown hnext

theorem opOpenConfirm_next :
    Handled cfg s (.openConfirm k stateid n) (s.opOpenConfirm cfg stateid n hasFh).2
      (s.opOpenConfirm cfg stateid n hasFh).1 := by
  rw [opOpenConfirm]
  refine sequenced_next hown hnext fun st hst _ hk => ?_
  dsimp only
  rw [recordSeqid_advances rfl, hk]
  exact Executed.replaced (q := .openConfirm k stateid n) hst hk.symm (by simp [Request.op])

theorem opOpenDowngrade_next {shareAccess} : Handled cfg s (.openDowngrade k stateid n shareAccess)
      (s.opOpenDowngrade cfg stateid n shareAccess hasFh).2
      (s.opOpenDowngrade cfg stateid n shareAccess hasFh).1 := by
  rw [opOpenDowngrade]
  refine sequenced_next hown hnext fun st hst _ hk => ?_
  split
  · rw [hk]
    exact Executed.plain (q := .openDowngrade k stateid n shareAccess) rfl (by simp [Request.op])
  · dsimp only
    rw [recordSeqid_advances rfl, hk]
    exact Executed.replaced (q := .openDowngrade k stateid n shareAccess) hst hk.symm
      (by simp [Request.op])

theorem opClose_next (hreplay : s.closedReply stateid.other n = none) :
    Handled cfg s (.close k stateid n) (s.opClose cfg stateid n hasFh).2
      (s.opClose cfg stateid n hasFh).1 := by
  have hnot : s.replayedClose cfg stateid n hasFh = none := by
    unfold replayedClose
    split
    · exact hreplay
    · rfl
  rw [opClose, hnot]
  refine sequenced_next hown hnext fun st hst hboot hk => ?_
  dsimp only
  rw [recordSeqid_advances rfl, hk]
  refine ⟨rfl, rfl, fun h₁ => ?_, fun hb => ?_, fun _ => ?_, le_refl _, rfl⟩
  · exact .inl ⟨_, (of_erase h₁).2, rfl⟩
  · cases hb
  · refine ⟨stateid, rfl, rfl, ?_, hboot⟩
    change (s.openStates.erase stateid.other).find? stateid.other = none
    rw [find?_erase, if_pos rfl]

end Next

/-! ## Steps without a sequence number -/

/-- Rows of dropped clients go, the rest stays. -/
structure Forgets (s t : Server) : Prop where
  owners : ∀ k, t.owners.find? k = s.owners.find? k ∨ (t.owners.find? k = none ∧ k.1 ∈ t.dropped)
  opens : ∀ {o st}, t.openStates.find? o = some st →
    s.openStates.find? o = some st ∧ t.owners.find? st.owner = s.owners.find? st.owner
  dropped : ∀ {id}, id ∈ s.dropped → id ∈ t.dropped
  nextStateid : t.nextStateid = s.nextStateid

theorem Forgets.refl (s : Server) : Forgets s s :=
  ⟨fun _ => .inl rfl, fun h => ⟨h, rfl⟩, id, rfl⟩

theorem Forgets.row {k r} (h : Forgets s t) (hr : t.owners.find? k = some r) :
    s.owners.find? k = some r := by
  rcases h.owners k with hk | ⟨hk, -⟩
  · exact hk ▸ hr
  · rw [hk] at hr
    cases hr

theorem Forgets.trans (h : Forgets s t) (h' : Forgets t u) : Forgets s u := by
  refine ⟨fun k => ?_, fun {o st} hst => ?_, fun hid => h'.dropped (h.dropped hid),
    h'.nextStateid.trans h.nextStateid⟩
  · rcases h'.owners k with hk | hk
    · rw [hk]
      rcases h.owners k with hk' | ⟨hk', hd⟩
      · exact .inl hk'
      · exact .inr ⟨hk', h'.dropped hd⟩
    · exact .inr hk
  · obtain ⟨hst, ho⟩ := h'.opens hst
    obtain ⟨hst, ho'⟩ := h.opens hst
    exact ⟨hst, ho.trans ho'⟩

theorem Forgets.recall (h : Forgets s u) : Forgets s u.updateFrozenAttrs :=
  { h with }

theorem dropClient_forgets (s : Server) (id : ClientId) : Forgets s (s.dropClient id) := by
  refine ⟨fun k => ?_, fun {o st} hst => ?_, List.mem_cons_of_mem _, rfl⟩
  · change (s.owners.filter _).find? k = _ ∨ (s.owners.filter _).find? k = none ∧ _
    rw [find?_filter]
    by_cases hk : k.1 = id
    · exact .inr ⟨by simp [hk], hk ▸ List.mem_cons_self⟩
    · exact .inl (by simp [hk])
  · obtain ⟨hst, hne⟩ := of_select hst
    refine ⟨hst, ?_⟩
    change (s.owners.filter _).find? _ = _
    rw [find?_filter]
    simp_all

theorem dropClients_forgets (ids : List ClientId) (s : Server) :
    Forgets s (ids.foldl dropClient s) := by
  induction ids generalizing s with
  | nil => exact Forgets.refl s
  | cons id ids ih => exact (dropClient_forgets s id).trans (ih _)

theorem opSetclientid_forgets (s : Server) (verifier name : Opaque) (callbackValid : Bool)
    (time : Nat) : Forgets s (s.opSetclientid cfg verifier name callbackValid time).1 := by
  rw [opSetclientid]
  cases s.sameInstance verifier name <;> exact { Forgets.refl s with }

theorem opSetclientidConfirm_forgets (s : Server) (id : ClientId) (confirm : Nat) :
    Forgets s (s.opSetclientidConfirm cfg id confirm).1 := by
  rw [opSetclientidConfirm]
  split
  · exact Forgets.refl s
  rename_i c hc
  have hprobe : Forgets s (s.queueProbe cfg id c) := by
    rw [queueProbe]
    split
    · exact { Forgets.refl s with }
    · exact Forgets.refl s
  have hconf : Forgets s ((s.queueProbe cfg id c).setConfirmed id) :=
    { hprobe with }
  split
  · exact Forgets.refl s
  split
  · exact hprobe
  · exact hconf.trans (dropClients_forgets _ _)

theorem opDelegreturn_forgets (s : Server) (stateid : Stateid) :
    Forgets s (s.opDelegreturn cfg stateid).1 := by
  rw [opDelegreturn]
  split
  · exact Forgets.refl s
  split
  · have hdel : Forgets s { s with delegations := s.delegations.erase stateid.other } :=
      { Forgets.refl s with }
    dsimp only
    split
    · exact hdel
    · exact hdel.recall
  · exact Forgets.refl s

theorem monitorUpdate_forgets (s : Server) (probes : List ((ClientId × Nat) × Bool))
    (generation now : Nat) : Forgets s (s.monitorUpdate cfg probes generation now).2 := by
  have hprobes : ∀ u, Forgets u (probes.foldl storeProbe u) := by
    induction probes with
    | nil => exact Forgets.refl
    | cons p ps ih =>
      intro u
      have hstep : Forgets u (u.storeProbe p) := { Forgets.refl u with }
      exact hstep.trans (ih _)
  exact (hprobes s).trans { Forgets.refl _ with }

/-! ## What is kept about open states -/

/-- `opened` says which owner a stateid was given to. -/
structure Ledger (s : Server) (opened : Table Other OwnerKey) : Prop where
  owned : ∀ {o st k}, s.openStates.find? o = some st → opened.find? o = some k → st.owner = k
  recorded : ∀ {o st}, s.openStates.find? o = some st → ∃ r, s.owners.find? st.owner = some r
  closed : ∀ {k r o}, s.owners.find? k = some r → r.lastOp = .close →
    r.lastBody.other? = some o → opened.find? o = some k
  advances : ∀ {k r}, s.owners.find? k = some r → seqidAdvances r.lastStatus = true
  numbers : ∀ {o st}, s.openStates.find? o = some st → o.number < s.nextStateid
  openedNumbers : ∀ {o k}, opened.find? o = some k → o.number < s.nextStateid

section

variable (h : Ledger s opened)
include h

theorem Ledger.forgets (hst : Forgets s t) : Ledger t opened := by
  refine ⟨fun hs => h.owned (hst.opens hs).1, fun hs => ?_, fun hr => h.closed (hst.row hr),
    fun hr => h.advances (hst.row hr), fun hs => ?_, fun ho => ?_⟩
  · obtain ⟨hs, he⟩ := hst.opens hs
    rw [he]
    exact h.recorded hs
  · rw [hst.nextStateid]
    exact h.numbers (hst.opens hs).1
  · rw [hst.nextStateid]
    exact h.openedNumbers ho

theorem Ledger.executed (hid : ∀ {id}, q.stateid? = some id → opened.find? id.other = some q.key)
    (he : Executed cfg s q a t) : Ledger t opened := by
  refine ⟨fun {o st k} hs ho => ?_, fun {o st} hs => ?_, fun {k r o} hr hop hb => ?_,
    fun {k r} hr => ?_, fun {o st} hs => ?_, fun ho => (h.openedNumbers ho).trans_le he.nextStateid⟩
  · rcases he.opens hs with ⟨st₀, h₀, howner⟩ | ⟨-, hge, -⟩
    · rw [howner]
      exact h.owned h₀ ho
    · exact absurd (h.openedNumbers ho) (not_lt.mpr hge)
  · rw [he.owners, find?_put]
    split
    · exact ⟨_, rfl⟩
    rcases he.opens hs with ⟨st₀, h₀, howner⟩ | ⟨hk, -⟩
    · rw [howner]
      exact h.recorded h₀
    · exact absurd hk ‹_›
  · rw [he.owners] at hr
    rcases of_put hr with ⟨rfl, rfl⟩ | ⟨-, hr⟩
    · obtain ⟨id, hq, hother, -⟩ := he.closed hop
      rw [hb] at hother
      cases hother
      exact hid hq
    · exact h.closed hr hop hb
  · rw [he.owners] at hr
    rcases of_put hr with ⟨rfl, rfl⟩ | ⟨-, hr⟩
    · exact he.advances
    · exact h.advances hr
  · rcases he.opens hs with ⟨st₀, h₀, -⟩ | ⟨-, -, hlt⟩
    · exact (h.numbers h₀).trans_le he.nextStateid
    · exact hlt

theorem Ledger.learn (hst : s.openStates.find? o = some st) : Ledger s (opened.put o st.owner) := by
  refine ⟨fun {o' st' k} hs ho => ?_, h.recorded, fun {k r o'} hr hop hb => ?_, h.advances, h.numbers,
    fun {o' k} ho => ?_⟩
  · rcases of_put ho with ⟨rfl, rfl⟩ | ⟨-, ho⟩
    · rw [hst] at hs
      cases hs
      rfl
    · exact h.owned hs ho
  · have ho := h.closed hr hop hb
    rw [find?_put]
    split
    · rename_i he
      subst he
      rw [h.owned hst ho]
    · exact ho
  · rcases of_put ho with ⟨rfl, rfl⟩ | ⟨-, ho⟩
    · exact h.numbers hst
    · exact h.openedNumbers ho

omit h in
theorem Handled.learn_grows (h : Handled cfg s q a t) (hl : Ledger t opened)
    (ho : opened.find? o = some k) : (Exchange.learn opened q.key a.2).find? o = some k := by
  cases hb : a.2 with
  | opened id d =>
    rcases h.refused_or with ⟨-, -, he⟩ | he
    · rw [hb] at he
      cases he
    obtain ⟨st, hst, howner⟩ := he.opened hb
    rw [Exchange.learn, find?_put]
    split
    · rename_i hid
      subst hid
      rw [← howner, hl.owned hst ho]
    · exact ho
  | empty | stateid id | client id confirm => exact ho

omit h in
theorem Handled.learn_ledger (h : Handled cfg s q a t) (hl : Ledger t opened) :
    Ledger t (Exchange.learn opened q.key a.2) := by
  cases hb : a.2 with
  | opened id d =>
    rcases h.refused_or with ⟨-, -, he⟩ | he
    · rw [hb] at he
      cases he
    · obtain ⟨st, hst, howner⟩ := he.opened hb
      exact howner ▸ hl.learn hst
  | empty | stateid id | client id confirm => exact hl

theorem Ledger.closedReply_eq_none (ho : opened.find? o = some k)
    (hnext : ∀ r, s.owners.find? k = some r → n = inc32 r.seqid) : s.closedReply o n = none := by
  rw [closedReply, map_eq_none_iff, List.find?_eq_none]
  intro e he hp
  obtain ⟨hop, hn, hb⟩ := of_decide_eq_true hp
  have hr := find?_of_mem he
  have hk := h.closed hr hop hb
  rw [ho] at hk
  cases hk
  exact inc32_ne _ ((hnext _ hr).symm.trans hn.symm)

theorem Ledger.closedReply_ne (ha : s.closedReply o n = some a) : a.1 ≠ .badSeqid := by
  rw [closedReply] at ha
  obtain ⟨e, he, rfl⟩ := map_eq_some_iff.mp ha
  have hadv := h.advances (find?_of_mem (List.mem_of_find?_eq_some he))
  intro hbad
  rw [show e.2.lastStatus = .badSeqid from hbad] at hadv
  cases hadv

theorem Ledger.opClose_again (ho : opened.find? stateid.other = some k)
    (hr : s.owners.find? k = some r) (hop : r.lastOp = .close) :
    ∃ a, s.opClose cfg stateid r.seqid hasFh = (s, a) ∧ a.1 ≠ .badSeqid := by
  rw [opClose]
  cases hc : s.replayedClose cfg stateid r.seqid hasFh with
  | some reply =>
    refine ⟨reply, rfl, ?_⟩
    unfold replayedClose at hc
    split at hc
    · exact h.closedReply_ne hc
    · cases hc
  | none => exact sequenced_again (fun hst => h.owned hst ho) hr hop (h.advances hr)

end

end Server

namespace World

theorem exec_forgets {e a} (he : e.sequenced = false) (h : w.exec cfg e = some (w', a)) :
    w.server.Forgets w'.server ∧ w'.opens = w.opens := by
  cases e with
  | setclientid verifier name callbackValid time =>
    cases h
    exact ⟨opSetclientid_forgets _ _ _ _ _, rfl⟩
  | setclientidConfirm id confirm =>
    cases h
    exact ⟨opSetclientidConfirm_forgets _ _ _, rfl⟩
  | openBegin thread args creds hasFh | openLookup thread target | openFinish thread
  | openConfirm stateid seqid hasFh | openDowngrade stateid seqid shareAccess hasFh
  | close stateid seqid hasFh => cases he
  | delegreturn stateid =>
    cases h
    exact ⟨opDelegreturn_forgets _ _, rfl⟩
  | generation new =>
    cases h
    exact ⟨Forgets.refl _, rfl⟩
  | monitorStart | monitorRecalled failed =>
    rw [exec] at h
    split at h
    · cases h
      exact ⟨{ Forgets.refl _ with }, rfl⟩
    · cases h
  | monitorRead =>
    rw [exec] at h
    split at h
    · cases h
      exact ⟨Forgets.refl _, rfl⟩
    · cases h
  | monitorUpdate probeOk now =>
    rw [exec] at h
    split at h
    · cases h
      exact ⟨monitorUpdate_forgets _ _ _ _, rfl⟩
    · cases h

end World

/-! ## Copies of a request -/

namespace Compound

/-- An `OPEN` is one that the server records. -/
def Plain (c : Compound) : Prop :=
  match c.request with
  | .open args _ => Server.Plain args c.fh.isSome
  | _ => True

/-- The stateid is not older than the open state. -/
def Current (s : Server) (c : Compound) : Prop :=
  ∀ id st, c.request.stateid? = some id → s.openStates.find? id.other = some st →
    st.seqid ≤ id.seqid

/-- What is refused without a record: a missing file handle, a client of an `OPEN` that is not
confirmed, and a stateid that the server does not have. -/
def Known (cfg : Config) (s : Server) (c : Compound) : Prop :=
  c.fh.isSome = true ∧
    match c.request with
    | .open args _ => s.checkClient cfg args.clientid = .ok
    | .openConfirm _ id _ | .openDowngrade _ id _ _ | .close _ id _ =>
      id.other.boot = cfg.boot ∧ ∃ st, s.openStates.find? id.other = some st ∧ id.seqid ≤ st.seqid

variable {c : Compound} {thread : Nat} {oa : Option Answer}

section Next

variable (hl : w.server.Ledger opened) (hplain : c.Plain) (hcur : c.Current w.server)
  (hid : ∀ {id}, c.request.stateid? = some id → opened.find? id.other = some c.request.key)
  (hnext : ∀ r, w.server.owners.find? c.request.key = some r → c.request.seqid = inc32 r.seqid)

include hl hplain hcur hid hnext

theorem process_next (h : w.exec cfg (c.event thread) = some (w', oa)) :
    (∃ a, oa = some a ∧ w.server.Handled cfg c.request a w'.server ∧ w'.opens = w.opens) ∨
      (oa = none ∧ w.opens.find? thread = none ∧ ∃ args creds, c.request = .open args creds ∧
        w' = { w with opens := w.opens.put thread { args := args, creds := creds } }) := by
  obtain ⟨q, fh, last⟩ := c
  have hown : ∀ {id st}, q.stateid? = some id → w.server.openStates.find? id.other = some st →
      st.owner = q.key ∧ st.seqid ≤ id.seqid ∧ ∃ r, w.server.owners.find? q.key = some r := by
    intro id st hq hst
    have howner := hl.owned hst (hid hq)
    exact ⟨howner, hcur id st hq hst, howner ▸ hl.recorded hst⟩
  cases q with
  | «open» args creds =>
    rw [event, World.exec] at h
    split at h
    · cases h
    rename_i hfree
    split at h
    · rename_i a ha
      cases h
      exact .inl ⟨a, rfl, openBegin_next hplain hnext ha, rfl⟩
    · cases h
      rw [contains, Bool.not_eq_true, isSome_eq_false_iff, isNone_iff_eq_none] at hfree
      exact .inr ⟨rfl, hfree, args, creds, rfl, rfl⟩
  | openConfirm owner stateid n =>
    cases h
    exact .inl ⟨_, rfl, opOpenConfirm_next (hown rfl) hnext, rfl⟩
  | openDowngrade owner stateid n shareAccess =>
    cases h
    exact .inl ⟨_, rfl, opOpenDowngrade_next (hown rfl) hnext, rfl⟩
  | close owner stateid n =>
    cases h
    exact .inl ⟨_, rfl, opClose_next (hown rfl) hnext (hl.closedReply_eq_none (hid rfl) hnext), rfl⟩

theorem advances_of_known {a} (hknown : c.Known cfg w.server)
    (h : w.exec cfg (c.event thread) = some (w', some a)) : seqidAdvances a.1 = true := by
  obtain ⟨q, fh, last⟩ := c
  obtain ⟨hfh, hknown⟩ := hknown
  have hfound : ∀ {id n}, q.stateid? = some id → q.seqid = n →
      (∃ st, w.server.openStates.find? id.other = some st ∧ id.seqid ≤ st.seqid) →
      ∃ st, w.server.openStates.find? id.other = some st ∧ id.seqid = st.seqid ∧
        ∀ op, w.server.checkSeqid st.owner n op false = .process := by
    rintro id n hq rfl ⟨st, hst, hle⟩
    have howner := hl.owned hst (hid hq)
    refine ⟨st, hst, le_antisymm hle (hcur id st hq hst), fun op => ?_⟩
    rw [howner]
    exact checkSeqid_next hnext fun _ => howner ▸ hl.recorded hst
  cases q with
  | «open» args creds =>
    -- it has no answer before its second part
    change Server.Plain args fh.isSome at hplain
    rw [hfh] at hplain
    rw [event, World.exec, hfh, openBegin_known hplain hknown hnext] at h
    split at h <;> cases h
  | openConfirm owner id n =>
    obtain ⟨st, hst, heq, hproc⟩ := hfound (n := n) rfl rfl hknown.2
    cases h
    rw [opOpenConfirm, hfh, sequenced_found hknown.1 hst heq (hproc _)]
    rfl
  | openDowngrade owner id n shareAccess =>
    obtain ⟨st, hst, heq, hproc⟩ := hfound (n := n) rfl rfl hknown.2
    cases h
    rw [opOpenDowngrade, hfh, sequenced_found hknown.1 hst heq (hproc _)]
    split <;> rfl
  | close owner id n =>
    obtain ⟨st, hst, heq, hproc⟩ := hfound (n := n) rfl rfl hknown.2
    cases h
    have hlive : w.server.replayedClose cfg id n true = none := by
      simp [replayedClose, findOpenState, hknown.1, hst, heq]
    rw [opClose, hfh, hlive, sequenced_found hknown.1 hst heq (hproc _)]
    rfl

end Next

theorem process_again {r} (hl : w.server.Ledger opened)
    (hid : ∀ {id}, c.request.stateid? = some id → opened.find? id.other = some c.request.key)
    (hr : w.server.owners.find? c.request.key = some r) (hn : r.seqid = c.request.seqid)
    (hop : r.lastOp = c.request.op) (h : w.exec cfg (c.event thread) = some (w', oa)) :
    w' = w ∧ ∃ a, oa = some a ∧ a.1 ≠ .badSeqid := by
  obtain ⟨q, fh, last⟩ := c
  have hadv := hl.advances hr
  have hsame : ∀ {t : Server × Answer}, (∃ a, t = (w.server, a) ∧ a.1 ≠ .badSeqid) →
      some ({ w with server := t.1 }, some t.2) = some (w', oa) →
        w' = w ∧ ∃ a, oa = some a ∧ a.1 ≠ .badSeqid := by
    rintro _ ⟨a, rfl, hne⟩ h
    cases h
    exact ⟨rfl, a, rfl, hne⟩
  cases q with
  | «open» args creds =>
    obtain ⟨a, ha, hne⟩ := openBegin_again hr hn hop hadv
    rw [event, World.exec] at h
    split at h
    · cases h
    · rw [ha] at h
      cases h
      exact ⟨rfl, a, rfl, hne⟩
  | openConfirm owner stateid n =>
    subst hn
    exact hsame (sequenced_again (fun hst => hl.owned hst (hid rfl)) hr hop hadv) h
  | openDowngrade owner stateid n shareAccess =>
    subst hn
    exact hsame (sequenced_again (fun hst => hl.owned hst (hid rfl)) hr hop hadv) h
  | close owner stateid n =>
    subst hn
    exact hsame (hl.opClose_again (hid rfl) hr hop) h

end Compound

end Cvmfs.Nfs4
