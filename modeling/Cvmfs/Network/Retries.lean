import Cvmfs.Network.Transfer

/-! # Downloads end

Every answer to try again uses up a part of a budget: the step without caches, a retry on the
same URL, a proxy, or a host, which gives back the proxies and the step without caches. The
budgets are bounded only as long as the counters can reach their limits, which they cannot
from 256 on. -/

namespace Cvmfs.Network.Download

open JobInfo Bool

variable {o o' : Options} {j j' : JobInfo} {r : Outcome} {w : Bool}

/-! ## Why a job goes on -/

/-- The reasons to try again, with the retry flag and the job that follow from them. -/
inductive Continues (o : Options) (w : Bool) (j : JobInfo) : Bool → JobInfo → Prop
  | uncached (hdata : j.errorCode = .badData) (hcache : j.nocache = false) :
      Continues o w j false j
  | sameUrl (hretry : canRetry o j = true) : Continues o w j true j
  | nextProxy (hfailure : isProxyFailure j.errorCode = true)
      (hleft : j.numUsedProxies < o.numProxies) : Continues o w j false j
  | nextHost (e : Failures) (hfailure : isHostFailure e = true)
      (hleft : hostsLeft o w j = true) : Continues o w j false (j.setErrorCode e)
  | nextRound (hleft : hostsLeft o w j = true) :
      Continues o w j false ((j.setNumUsedProxies 1).setErrorCode .hostAfterProxy)

section

variable (hf : o.failoverIndefinitely = false)
include hf

theorem proxiesFailed_continues (h : (proxiesFailed o r w j).tryAgain = true) :
    Continues o w j (proxiesFailed o r w j).sameUrlRetry (proxiesFailed o r w j).job := by
  unfold proxiesFailed at h ⊢
  by_cases hleft : hostsLeft o w j = true
  · rw [if_pos hleft]
    exact .nextRound hleft
  · simp [hleft, hf] at h

theorem decideFailed_continues (hs : o.shardingPolicy = false) {same : Bool}
    (hsame : same = true → canRetry o j = true)
    (h : (decideFailed o r w same false j).tryAgain = true) :
    Continues o w j (decideFailed o r w same false j).sameUrlRetry
      (decideFailed o r w same false j).job := by
  unfold decideFailed at h ⊢
  cases same with
  | true =>
    simp only [hs, Bool.true_or, Bool.not_true, Bool.false_and, Bool.false_eq_true, if_true,
      if_false]
    exact .sameUrl (hsame rfl)
  | false =>
    simp only [hs, Bool.false_or, Bool.not_false, Bool.true_and, Bool.false_eq_true,
      if_false] at h ⊢
    by_cases hproxy : isProxyFailure j.errorCode = true
    · simp only [hproxy, if_true] at h ⊢
      by_cases hleft : o.numProxies ≤ j.numUsedProxies
      · simp only [hleft, decide_true, if_true] at h ⊢
        exact proxiesFailed_continues hf h
      · simp only [hleft, decide_false, Bool.false_eq_true, if_false]
        exact .nextProxy hproxy (by omega)
    · simp only [hproxy, Bool.false_eq_true, if_false, Bool.and_eq_true] at h ⊢
      exact .nextHost _ h.1 h.2

theorem decideRetry_continues
    (hs : o.shardingPolicy = false) (h : (decideRetry o r w j).tryAgain = true) :
    Continues o w j (decideRetry o r w j).sameUrlRetry (decideRetry o r w j).job := by
  unfold decideRetry at h ⊢
  split at h
  · cases h
  rename_i hok
  simp only [if_neg hok]
  by_cases hdata : j.errorCode = .badData
  · have hretry : canRetry o j = false := by
      simp [canRetry, hdata, isProxyTransferError, isHostTransferError]
    by_cases hcache : j.nocache = true
    · -- the failure of the host that is made of corrupted data
      have hblame : j.blameHost = j.setErrorCode .hostHttp := if_pos ⟨hdata, hcache⟩
      have hhost : isHostFailure .hostHttp = true := by decide
      have hproxy : isProxyFailure .hostHttp = false := by decide
      have hcached : (decide (j.errorCode = .badData) && !j.nocache) = false := by simp [hcache]
      simp only [hretry, hblame, hcached, decideFailed, errorCode_setErrorCode, hhost,
        hproxy, Bool.false_or, Bool.true_and, Bool.false_eq_true, if_false] at h ⊢
      exact .nextHost _ hhost h
    · have hblame : j.blameHost = j := if_neg fun hd => hcache hd.2
      have hproxy : isProxyFailure .badData = false := by decide
      simp only [hretry, hblame, hdata, decideFailed, hproxy, Bool.false_or, Bool.false_eq_true,
        if_false]
      exact .uncached hdata (by simpa using hcache)
  · have hblame : j.blameHost = j := if_neg fun hd => hdata hd.1
    simp only [hblame, hdata, decide_false, Bool.false_and] at h ⊢
    exact decideFailed_continues hf hs id h

end

/-! ## What is done about a failure -/

theorem handleFailure_sameUrl (h : canRetry o j = true) :
    handleFailure o r w true j = some (o, j.setRegularCache.backoff o r.draw) := by
  unfold canRetry at h
  unfold handleFailure
  cases he : j.errorCode <;>
    simp [he, isProxyTransferError, isHostTransferError] at h <;>
    simp [he, isProxyTransferError, isHostTransferError]

theorem handleFailure_proxy (h : isProxyFailure j.errorCode = true) :
    handleFailure o r w false j = some (switchProxy o r j.setRegularCache) := by
  unfold isProxyFailure at h
  unfold handleFailure
  cases he : j.errorCode <;>
    simp [he, isProxyTransferError] at h <;>
    simp [he, isProxyTransferError]

theorem handleFailure_host (h : isHostFailure j.errorCode = true ∨ j.errorCode = .hostAfterProxy) :
    handleFailure o r w false j = some (switchHost o r w j.setRegularCache) := by
  unfold isHostFailure at h
  unfold handleFailure
  cases he : j.errorCode <;>
    simp [he, isHostTransferError] at h <;>
    simp [he, isProxyTransferError, isHostTransferError]

variable {same : Bool}

theorem handleFailure_badData (h : j.errorCode = .badData) :
    handleFailure o r w same j = some (o, j.setNocache) := by
  simp [handleFailure, h, setNocache, setRegularCache]

theorem Continues.handled (h : Continues o w j same j') : handleFailure o r w same j' ≠ none := by
  cases h with
  | uncached hdata _ => simp [handleFailure_badData hdata]
  | sameUrl hretry => simp [handleFailure_sameUrl hretry]
  | nextProxy hfailure _ => simp [handleFailure_proxy hfailure]
  | nextHost e hfailure _ => simp [handleFailure_host (j := j.setErrorCode e) (.inl hfailure)]
  | nextRound _ =>
    simp [handleFailure_host (j := (j.setNumUsedProxies 1).setErrorCode .hostAfterProxy) (.inr rfl)]

/-! ## Budgets -/

/-- Limits that a counter of a job can reach. -/
structure Options.Narrow (o : Options) : Prop where
  retries : o.maxRetries < 256
  proxies : o.numProxies < 256
  hosts : ∀ n ∈ o.hostChain, n < 256
  metalinks : ∀ n ∈ o.metalinkChain, n < 256

/-- Neither endless failover nor a sharding policy. -/
def Options.Plain (o : Options) : Prop :=
  o.failoverIndefinitely = false ∧ o.shardingPolicy = false

/-- What a job can still use up: a step without caches, proxies and retries, and hosts. A host
is worth more than all proxies. -/
def JobInfo.budget (j : JobInfo) : Nat :=
  (!j.nocache).toNat + 2 * (255 - j.numUsedProxies) + 2 * (255 - j.numRetries) +
    1024 * ((255 - j.numUsedHosts) + (255 - j.numUsedMetalinks))

@[simp] theorem setErrorCode_budget (j : JobInfo) (e : Failures) :
    (j.setErrorCode e).budget = j.budget := rfl

theorem setRegularCache_budget (j : JobInfo) : j.setRegularCache.budget ≤ j.budget + 1 := by
  simp only [setRegularCache, budget, Bool.not_false, Bool.toNat_true]
  omega

theorem newRound_budget (j : JobInfo) : (j.setNumUsedProxies 1).budget ≤ j.budget + 508 := by
  simp only [setNumUsedProxies, budget]
  omega

theorem hostsLeft_used (ho : o.Narrow) (h : hostsLeft o w j = true) : j.usedHosts w < 255 := by
  simp only [hostsLeft, and_eq_true, Option.any_eq_true, decide_eq_true_eq] at h
  obtain ⟨_, size, hsize, hlt⟩ := h
  have : size < 256 := by
    cases w with
    | true => exact ho.metalinks size hsize
    | false => exact ho.hosts size hsize
  omega

theorem switchHost_budget (h : j.usedHosts w < 255) :
    (switchHost o r w j).2.budget + 1024 = j.budget := by
  cases w with
  | true =>
    simp only [usedHosts, if_true] at h
    simp only [switchHost, setUrlOptions, budget, if_true]
    omega
  | false =>
    simp only [usedHosts, false_eq_true, if_false] at h
    simp only [switchHost, setUrlOptions, budget, false_eq_true, if_false]
    omega

theorem switchProxy_budget (h : j.numUsedProxies < 255) :
    (switchProxy o r j).2.budget + 2 = j.budget := by
  simp only [switchProxy, setUrlOptions, setNumUsedProxies, budget]
  omega

theorem backoff_budget (h : j.numRetries < 255) (draw : Nat) :
    (j.backoff o draw).budget + 2 = j.budget := by
  simp only [backoff, budget]
  omega

variable {next : Options × JobInfo}

/-- **Progress.** Whatever is done about a failure uses up some of the budget. -/
theorem Continues.budget_lt (ho : o.Narrow)
    (h : Continues o w j same j') (he : handleFailure o r w same j' = some next) :
    next.2.budget < j.budget := by
  have hcache := setRegularCache_budget j
  cases h with
  | uncached hdata hcached =>
    rw [handleFailure_badData hdata] at he
    cases he
    simp [budget, setNocache, hcached]
  | sameUrl hretry =>
    rw [handleFailure_sameUrl hretry] at he
    cases he
    have hlt : j.numRetries < 255 := by
      have := ho.retries
      simp only [canRetry, and_eq_true, decide_eq_true_eq] at hretry
      omega
    have := backoff_budget (o := o) (j := j.setRegularCache) hlt r.draw
    simp only
    omega
  | nextProxy hfailure hleft =>
    rw [handleFailure_proxy hfailure] at he
    cases he
    have := ho.proxies
    have := switchProxy_budget (o := o) (r := r) (j := j.setRegularCache) (by
      show j.numUsedProxies < 255
      omega)
    omega
  | nextHost e hfailure hleft =>
    rw [handleFailure_host (.inl hfailure)] at he
    cases he
    have := switchHost_budget (o := o) (r := r) (w := w)
      (j := (j.setErrorCode e).setRegularCache) (hostsLeft_used ho hleft)
    have := setRegularCache_budget (j.setErrorCode e)
    rw [setErrorCode_budget] at this
    omega
  | nextRound hleft =>
    rw [handleFailure_host (.inr rfl)] at he
    cases he
    have := switchHost_budget (o := o) (r := r) (w := w)
      (j := ((j.setNumUsedProxies 1).setErrorCode .hostAfterProxy).setRegularCache)
      (hostsLeft_used ho hleft)
    have := setRegularCache_budget ((j.setNumUsedProxies 1).setErrorCode .hostAfterProxy)
    rw [setErrorCode_budget] at this
    have := newRound_budget j
    omega

theorem callback_budget (j : JobInfo) (c : Callback) : (j.callback c).budget = j.budget := by
  cases c with
  | status code =>
    dsimp only [callback, onStatus]
    repeat' split
    all_goals rfl
  | proxyError =>
    dsimp only [callback]
    split <;> rfl
  | tooBig | link _ | corrupt | ioError => rfl

theorem transfer_budget (j : JobInfo) (r : Outcome) : (j.transfer r).budget = j.budget := by
  unfold transfer
  induction r.callbacks generalizing j with
  | nil => rfl
  | cons c cs ih => rw [List.foldl_cons, ih, callback_budget]

/-! ## One answer -/

/-- The numbers that come with an outcome are ones that a counter can reach: of the hosts in the
links of the job, and of the proxies after a look up. -/
structure Moderate (r : Outcome) (j : JobInfo) : Prop where
  links : (linkedHosts j.link).length < 256
  proxies : ∀ n ∈ r.url.numProxies, n < 256

theorem verify_options (o : Options) (r : Outcome) (j : JobInfo) :
    (verify o r j).1 = o ∨
      (verify o r j).1 = { o with hostChain := some (linkedHosts j.link).length } := by
  unfold verify
  dsimp only
  split
  · unfold processLink
    dsimp only
    split
    · exact .inl rfl
    · exact .inr rfl
  · exact .inl rfl

theorem verify_budget (o : Options) (r : Outcome) (j : JobInfo) :
    (verify o r j).2.1.budget = j.budget := by
  unfold verify
  dsimp only
  split
  · unfold processLink
    dsimp only
    split <;> rfl
  · rfl

theorem handleFailure_options
    (h : handleFailure o r w same j = some next) :
    next.1 = o ∨ next.1 = { o with numProxies := r.url.numProxies.getD o.numProxies } := by
  unfold handleFailure at h
  dsimp only at h
  repeat' split at h
  all_goals cases h
  all_goals first | exact .inl rfl | exact .inr rfl

theorem Options.Plain.verify (h : o.Plain) : (verify o r j).1.Plain := by
  rcases verify_options o r j with he | he <;> rw [he] <;> exact h

theorem Options.Narrow.verify (h : o.Narrow) (hm : Moderate r j) : (verify o r j).1.Narrow := by
  rcases verify_options o r j with he | he <;> rw [he]
  · exact h
  refine { h with hosts := ?_ }
  intro n hn
  cases hn
  exact hm.links

/-- The answer of a manager without endless failover and sharding is to stop, or follows from a
reason to try again. -/
theorem verifyAndFinalize_cases (hp : o.Plain) : (∃ j', verifyAndFinalize o r j = .stop j') ∨
    ∃ same j' next, Continues (verify o r j).1 (verify o r j).2.2 (verify o r j).2.1 same j' ∧
      handleFailure (verify o r j).1 r (verify o r j).2.2 same j' = some next ∧
      verifyAndFinalize o r j = .again next.1 next.2 := by
  have hp' : (verify o r j).1.Plain := hp.verify
  unfold verifyAndFinalize
  generalize verify o r j = v at *
  obtain ⟨o₁, job₁, w⟩ := v
  dsimp only at *
  split
  · rename_i hagain
    have hc := decideRetry_continues hp'.1 hp'.2 hagain
    unfold tryAgain
    split
    · exact .inl ⟨_, rfl⟩
    split
    · exact .inl ⟨_, rfl⟩
    simp only [hp'.1, hp'.2, Bool.false_and, Bool.false_eq_true, if_false]
    obtain ⟨next, hnext⟩ := Option.ne_none_iff_exists'.1 (hc.handled (r := r))
    rw [hnext]
    exact .inr ⟨_, _, next, hc, hnext, rfl⟩
  · exact .inl ⟨_, rfl⟩

theorem verifyAndFinalize_plain (hp : o.Plain) (h : verifyAndFinalize o r j = .again o' j') :
    o'.Plain := by
  rcases verifyAndFinalize_cases hp with ⟨_, he⟩ | ⟨_, _, next, _, hnext, he⟩
  · rw [he] at h
    cases h
  · rw [he] at h
    cases h
    rcases handleFailure_options hnext with heq | heq <;> rw [heq] <;> exact hp.verify

/-- **One more attempt.** It leaves less of the budget, and limits that can be reached. -/
theorem verifyAndFinalize_again (hp : o.Plain) (ho : o.Narrow) (hm : Moderate r j)
    (h : verifyAndFinalize o r j = .again o' j') : j'.budget < j.budget ∧ o'.Narrow := by
  rcases verifyAndFinalize_cases hp with ⟨_, he⟩ | ⟨same, job₁, next, hc, hnext, he⟩
  · rw [he] at h
    cases h
  rw [he] at h
  cases h
  have hv := ho.verify hm
  have hlt := hc.budget_lt hv hnext
  rw [verify_budget] at hlt
  refine ⟨hlt, ?_⟩
  rcases handleFailure_options hnext with heq | heq <;> rw [heq]
  · exact hv
  refine { hv with proxies := ?_ }
  cases hn : r.url.numProxies with
  | none => exact hv.proxies
  | some n => exact hm.proxies n hn

/-! ## Whole downloads -/

variable {outcomes : Nat → Outcome}

/-- The numbers that come with the outcomes of a download can be reached. -/
def Within (outcomes : Nat → Outcome) (o : Options) (j : JobInfo) : Prop :=
  ∀ n o' j', run outcomes o j n = .again o' j' → Moderate (outcomes n) (j'.transfer (outcomes n))

/-- A job is tried again only finitely often, and never with an error that is not expected. -/
def Ends (outcomes : Nat → Outcome) (o : Options) (j : JobInfo) : Prop :=
  (∃ n, ∀ k, n ≤ k → ∀ o' j', run outcomes o j k ≠ .again o' j') ∧ ∀ n, run outcomes o j n ≠ .panic

variable {n : Nat}

theorem run_succ_of_again (h : run outcomes o j n = .again o' j') : run outcomes o j (n + 1) =
      verifyAndFinalize o' (outcomes n) (j'.transfer (outcomes n)) := by
  rw [run, h]

theorem again_of_run_succ (h : run outcomes o j (n + 1) = .again o' j') :
    ∃ o₁ job₁, run outcomes o j n = .again o₁ job₁ := by
  rw [run] at h
  cases hr : run outcomes o j n with
  | again o₁ job₁ => exact ⟨o₁, job₁, rfl⟩
  | stop _ => rw [hr] at h; cases h
  | panic => rw [hr] at h; cases h

theorem run_plain (hp : o.Plain) (h : run outcomes o j n = .again o' j') : o'.Plain := by
  induction n generalizing o' j' with
  | zero =>
    cases h
    exact hp
  | succ n ih =>
    obtain ⟨o₁, job₁, hn⟩ := again_of_run_succ h
    rw [run_succ_of_again hn] at h
    exact verifyAndFinalize_plain (ih hn) h

theorem run_budget (hp : o.Plain) (ho : o.Narrow) (hw : Within outcomes o j)
    (h : run outcomes o j n = .again o' j') : j'.budget + n ≤ j.budget ∧ o'.Narrow := by
  induction n generalizing o' j' with
  | zero =>
    cases h
    exact ⟨le_rfl, ho⟩
  | succ n ih =>
    obtain ⟨o₁, job₁, hn⟩ := again_of_run_succ h
    obtain ⟨hle, ho₁⟩ := ih hn
    rw [run_succ_of_again hn] at h
    obtain ⟨hlt, ho'⟩ := verifyAndFinalize_again (run_plain hp hn) ho₁ (hw n o₁ job₁ hn) h
    rw [transfer_budget] at hlt
    exact ⟨by omega, ho'⟩

theorem run_ne_panic (hp : o.Plain) (n : Nat) : run outcomes o j n ≠ .panic := by
  induction n with
  | zero => exact nofun
  | succ n ih =>
    intro h
    cases hn : run outcomes o j n with
    | panic => exact ih hn
    | stop _ => rw [run, hn] at h; cases h
    | again o₁ job₁ =>
      rw [run_succ_of_again hn] at h
      rcases verifyAndFinalize_cases (run_plain hp hn) with ⟨_, he⟩ | ⟨_, _, _, _, _, he⟩ <;>
        rw [he] at h <;> cases h

theorem ends_of_narrow (hp : o.Plain) (ho : o.Narrow) (hw : Within outcomes o j) :
    Ends outcomes o j := by
  refine ⟨⟨j.budget + 1, fun k hk o' j' h => ?_⟩, run_ne_panic hp⟩
  have := (run_budget hp ho hw h).1
  omega

/-! ## Downloads that do not end -/

theorem verify_unlinked (h : j.link = []) :
    verify o r j = (o, j.setErrorCode (classify o r j), j.metalink) := by
  simp [verify, h]

def plainOutcome (curl : CurlCode) (metalinkDue : Bool) : Outcome :=
  { curl, url := { proxy := direct, metalinkDue } }

variable {curl : CurlCode} {due : Bool}

theorem verifyAndFinalize_of_decision (hp : o.Plain) (hlink : j.link = []) {e : Failures}
    (he : classify o (plainOutcome curl due) j = e)
    (hd : decideRetry o (plainOutcome curl due) j.metalink (j.setErrorCode e) =
      ⟨true, same, j.setErrorCode e⟩)
    (hnext : handleFailure o (plainOutcome curl due) j.metalink same (j.setErrorCode e) =
      some next) : verifyAndFinalize o (plainOutcome curl due) j = .again next.1 next.2 := by
  unfold verifyAndFinalize
  rw [verify_unlinked hlink, he]
  dsimp only
  rw [hd, if_pos rfl]
  unfold tryAgain
  simp [plainOutcome, hp.1, hp.2] at hnext ⊢
  rw [hnext]

theorem decideRetry_sameUrl (hp : o.Plain) (h : canRetry o j = true) :
    decideRetry o r w j = ⟨true, true, j⟩ := by
  have hok : j.errorCode ≠ .ok := by
    intro he
    simp [canRetry, he, isProxyTransferError, isHostTransferError] at h
  have hdata : j.errorCode ≠ .badData := by
    intro he
    simp [canRetry, he, isProxyTransferError, isHostTransferError] at h
  have hblame : j.blameHost = j := if_neg fun hd => hdata hd.1
  simp [decideRetry, decideFailed, hok, hblame, h, hp.2]

theorem canRetry_resolve (h : j.errorCode = .proxyResolve ∨ j.errorCode = .hostResolve) :
    canRetry o j = false := by
  rcases h with h | h <;> simp [canRetry, h, isProxyTransferError, isHostTransferError]

theorem decideRetry_proxy (hp : o.Plain) (he : j.errorCode = .proxyResolve)
    (h : j.numUsedProxies < o.numProxies) : decideRetry o r w j = ⟨true, false, j⟩ := by
  have hblame : j.blameHost = j := by simp [blameHost, he]
  have hretry := canRetry_resolve (o := o) (.inl he)
  simp [decideRetry, decideFailed, hblame, hretry, he, hp.2, isProxyFailure, h]

theorem decideRetry_host (he : j.errorCode = .hostResolve) (h : hostsLeft o w j = true) :
    decideRetry o r w j = ⟨true, false, j⟩ := by
  have hblame : j.blameHost = j := by simp [blameHost, he]
  have hretry := canRetry_resolve (o := o) (.inr he)
  simp [decideRetry, decideFailed, hblame, hretry, he, isProxyFailure, isProxyTransferError,
    isHostFailure, h]

/-- The outcomes can be reached, and the job is tried again forever. -/
def Endless (curl : CurlCode) (due : Bool) (o : Options) (j : JobInfo) : Prop :=
  Within (fun _ => plainOutcome curl due) o j ∧ ¬ Ends (fun _ => plainOutcome curl due) o j

theorem endless {P : Options → JobInfo → Prop} (hlink : ∀ o j, P o j → j.link = [])
    (hstep : ∀ o j, P o j → ∃ next : Options × JobInfo,
      verifyAndFinalize o (plainOutcome curl due) j = .again next.1 next.2 ∧ P next.1 next.2)
    (h : P o j) : Endless curl due o j := by
  have hrun : ∀ n, ∃ o' j',
      run (fun _ => plainOutcome curl due) o j n = .again o' j' ∧ P o' j' := by
    intro n
    induction n with
    | zero => exact ⟨o, j, rfl, h⟩
    | succ n ih =>
      obtain ⟨o₁, job₁, hn, hP⟩ := ih
      obtain ⟨next, hagain, hnext⟩ := hstep o₁ job₁ hP
      exact ⟨next.1, next.2, (run_succ_of_again hn).trans hagain, hnext⟩
  constructor
  · intro n o' j' hn
    obtain ⟨o₁, job₁, hn', hP⟩ := hrun n
    rw [hn] at hn'
    cases hn'
    have hlinks : linkedHosts (j'.transfer (plainOutcome curl due)).link = [] := by
      rw [show j'.transfer (plainOutcome curl due) = j' from rfl, hlink _ _ hP]
      decide
    exact ⟨by simp [hlinks], nofun⟩
  · rintro ⟨⟨n, hn⟩, -⟩
    obtain ⟨o', j', hagain, -⟩ := hrun n
    exact hn n le_rfl o' j' hagain

theorem retries_endless (hp : o.Plain) (h : 256 ≤ o.maxRetries) (hproxy : j.proxy = direct)
    (hcache : j.nocache = false) (hlink : j.link = []) (hretries : j.numRetries < 256) :
    Endless .operationTimedout false o j := by
  let P : Options → JobInfo → Prop := fun o' j => o' = o ∧ j.proxy = direct ∧
    j.nocache = false ∧ j.link = [] ∧ j.numRetries < 256
  refine endless (P := P) (fun _ _ hP => hP.2.2.2.1) ?_ ⟨rfl, hproxy, hcache, hlink, hretries⟩
  rintro o' j ⟨rfl, hproxy, hcache, hlink, hretries⟩
  have hretry : canRetry o' (j.setErrorCode .hostTooSlow) = true := by
    have hnocache : (j.setErrorCode .hostTooSlow).nocache = false := hcache
    have hnum : (j.setErrorCode .hostTooSlow).numRetries < o'.maxRetries := by
      show j.numRetries < _
      omega
    simp [canRetry, hnocache, hnum, isHostTransferError]
  refine ⟨_, verifyAndFinalize_of_decision hp hlink (by simp [classify, plainOutcome, hproxy])
    (decideRetry_sameUrl hp hretry) (handleFailure_sameUrl hretry), rfl, hproxy, rfl, hlink, ?_⟩
  exact Nat.mod_lt _ (by decide)

theorem proxies_endless (hp : o.Plain) (h : 256 ≤ o.numProxies) (hlink : j.link = [])
    (hused : j.numUsedProxies < 256) : Endless .couldntResolveProxy false o j := by
  let P : Options → JobInfo → Prop := fun o' j => o' = o ∧ j.link = [] ∧
    j.numUsedProxies < 256
  refine endless (P := P) (fun _ _ hP => hP.2.1) ?_ ⟨rfl, hlink, hused⟩
  rintro o' j ⟨rfl, hlink, hused⟩
  have hleft : (j.setErrorCode .proxyResolve).numUsedProxies < o'.numProxies := by
    show j.numUsedProxies < _
    omega
  refine ⟨_, verifyAndFinalize_of_decision hp hlink rfl (decideRetry_proxy hp rfl hleft)
    (handleFailure_proxy rfl), rfl, hlink, ?_⟩
  exact Nat.mod_lt _ (by decide)

theorem hosts_endless (hp : o.Plain) {size : Nat} (hchain : chain o w = some size)
    (h : 256 ≤ size) (hprobe : j.probeHosts = true) (hmetalink : j.metalink = w)
    (hlink : j.link = []) (hused : j.usedHosts w < 256) : Endless .couldntResolveHost w o j := by
  let P : Options → JobInfo → Prop := fun o' j => o' = o ∧ j.probeHosts = true ∧
    j.metalink = w ∧ j.link = [] ∧ j.usedHosts w < 256
  refine endless (P := P) (fun _ _ hP => hP.2.2.2.1) ?_ ⟨rfl, hprobe, hmetalink, hlink, hused⟩
  rintro o' j ⟨rfl, hprobe, rfl, hlink, hused⟩
  have hleft : hostsLeft o' j.metalink (j.setErrorCode .hostResolve) = true := by
    have hp' : (j.setErrorCode .hostResolve).probeHosts = true := hprobe
    have hu : (j.setErrorCode .hostResolve).usedHosts j.metalink < size := by
      show j.usedHosts j.metalink < size
      omega
    simp [hostsLeft, hchain, hp', hu]
  refine ⟨_, verifyAndFinalize_of_decision hp hlink rfl (decideRetry_host rfl hleft)
    (handleFailure_host (.inl rfl)), rfl, ?_⟩
  cases hm : j.metalink with
  | true =>
    simp [hm, switchHost, setUrlOptions, setRegularCache, setErrorCode, hprobe,
      hlink, usedHosts, Nat.mod_lt]
  | false =>
    simp [hm, switchHost, setUrlOptions, setRegularCache, setErrorCode, hprobe,
      hlink, usedHosts, Nat.mod_lt, plainOutcome]

/-! ## Exactness -/

/-- Every download with these options ends, whatever is requested and however its transfers
come out. -/
def Options.DownloadsEnd (o : Options) : Prop :=
  ∀ (u : UrlOptions) (req : JobInfo) (outcomes : Nat → Outcome), (∀ n ∈ u.numProxies, n < 256) →
    Within outcomes (start u o req).1 (start u o req).2 →
    Ends outcomes (start u o req).1 (start u o req).2

/-- **Downloads end** exactly where the counters can reach the limits. -/
theorem downloads_end_iff (o : Options) (hp : o.Plain) : o.DownloadsEnd ↔ o.Narrow := by
  constructor
  · intro h
    have hends : ∀ {curl due} w, ¬ Endless curl due o (start { proxy := direct, metalinkDue := w } o
        {}).2 := fun w he => he.2 (h { proxy := direct, metalinkDue := w } {} _ (by simp) he.1)
    refine ⟨?_, ?_, fun n hn => ?_, fun n hn => ?_⟩ <;> by_contra hwide <;>
      have hwide := Nat.le_of_not_lt hwide
    · exact hends false (retries_endless hp hwide rfl rfl rfl (show 0 < 256 by decide))
    · exact hends false (proxies_endless hp hwide rfl (show 1 < 256 by decide))
    · refine hends false (hosts_endless hp (w := false) hn hwide rfl ?_ rfl ?_)
      · simp [start, setUrlOptions, initializeRequest]
      · simp [start, setUrlOptions, initializeRequest, usedHosts]
    have hchain : o.metalinkChain = some n := hn
    refine hends true (hosts_endless hp (w := true) hn hwide rfl ?_ rfl ?_)
    · simp [start, setUrlOptions, initializeRequest, hchain]
    · simp [start, setUrlOptions, initializeRequest, usedHosts]
  · intro ho u req outcomes hu hw
    refine ends_of_narrow hp ?_ hw
    refine { ho with proxies := ?_ }
    show u.numProxies.getD o.numProxies < 256
    cases hn : u.numProxies with
    | none => exact ho.proxies
    | some n => exact hu n hn

/-- Three hosts, a metalink server and two proxies. -/
def smallOptions : Options :=
  { maxRetries := 2, numProxies := 2, hostChain := some 3, metalinkChain := some 1 }

theorem downloads_end_smallOptions : smallOptions.Plain ∧ smallOptions.DownloadsEnd := by
  refine ⟨⟨rfl, rfl⟩, (downloads_end_iff smallOptions ⟨rfl, rfl⟩).2 ?_⟩
  exact ⟨by decide, by decide, by decide, by decide⟩

/-- One host, no proxies, and 256 retries. -/
def manyRetries : Options :=
  { maxRetries := 256, numProxies := 0, hostChain := some 1, metalinkChain := none }

/-- A server that always times out is asked forever. -/
theorem manyRetries_endless : ¬ ∃ n, ∀ k, n ≤ k → ∀ o' j',
      run (fun _ => plainOutcome .operationTimedout false) manyRetries
        (start { proxy := direct } manyRetries {}).2 k ≠ .again o' j' := by
  intro hends
  exact (retries_endless (o := manyRetries) ⟨rfl, rfl⟩ (by decide)
    (j := (start { proxy := direct } manyRetries {}).2) rfl rfl rfl (by decide)).2
    ⟨hends, run_ne_panic ⟨rfl, rfl⟩⟩

end Cvmfs.Network.Download
