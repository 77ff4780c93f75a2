import Cvmfs.Nfs4.Sequencing

/-! # Clients and server agree on sequence numbers

Over whole runs: the number that the server has recorded for an owner follows the
statuses its requests were answered with, so that a client that counts by them never
gets `NFS4ERR_BAD_SEQID`. `Paced` names what this needs; the theorems at the end show
that it does not hold without. -/

namespace Cvmfs.Nfs4

open Lib Table Exchange Compound Option Bool Nat

namespace Exchange

variable {cfg : Config} {x y : Exchange}

/-! ## The invariant -/

/-- The first copy of a request of the owner is in progress. -/
def Busy (x : Exchange) (k : OwnerKey) : Prop :=
  ∃ t copy, x.copies.find? t = some copy ∧ copy.first = true ∧ copy.compound.request.key = k

variable {thread : Nat} {k : OwnerKey}

theorem Busy.of_put {copy} (h : x.Busy k) (hfree : x.copies.find? thread = none)
    (hc : y.copies = x.copies.put thread copy) : y.Busy k := by
  obtain ⟨t, copy', ht, hrest⟩ := h
  exact ⟨t, copy', hc ▸ find?_put_of_none hfree ht, hrest⟩

theorem Busy.of_erase {copy} (h : x.Busy k) (hcopy : x.copies.find? thread = some copy)
    (hk : k ≠ copy.compound.request.key) (hc : y.copies = x.copies.erase thread) : y.Busy k := by
  obtain ⟨t, copy', ht, hf, rfl⟩ := h
  refine ⟨t, copy', ?_, hf, rfl⟩
  rw [hc, find?_erase, if_neg]
  · exact ht
  rintro rfl
  rw [hcopy] at ht
  cases ht
  exact hk rfl

/-- What is known of a request when its owner has sent it. -/
structure Sent (x : Exchange) (k : OwnerKey) (c : Compound) : Prop where
  key : c.request.key = k
  plain : c.Plain
  stateid : ∀ {id}, c.request.stateid? = some id → x.opened.find? id.other = some k

structure Books (x : Exchange) : Prop where
  sent : ∀ {k i c}, x.latest.find? k = some (i, c) → x.Sent k c
  latest : ∀ {k i c}, x.latest.find? k = some (i, c) → i < x.serial
  latestDistinct : ∀ {k k' i c c'}, x.latest.find? k = some (i, c) →
    x.latest.find? k' = some (i, c') → k = k'
  awaited : ∀ {k i c n}, x.latest.find? k = some (i, c) → x.answered.find? i = none →
    x.next.find? k = some n → n = c.request.seqid
  begun : ∀ {k i c}, x.begun.find? k = some (i, c) → x.Sent k c
  begunBefore : ∀ {k i c}, x.begun.find? k = some (i, c) → ∃ m, x.before.find? i = some m
  begunDistinct : ∀ {k k' i c c'}, x.begun.find? k = some (i, c) →
    x.begun.find? k' = some (i, c') → k = k'
  current : ∀ {k i c m}, x.latest.find? k = some (i, c) → x.before.find? i = some m →
    x.begun.find? k = some (i, c)
  serials : ∀ {i m}, x.before.find? i = some m → i < x.serial
  answered : ∀ {i reply}, x.answered.find? i = some reply → ∃ m, x.before.find? i = some m
  copies : ∀ {t copy}, x.copies.find? t = some copy → copy.first = true →
    x.begun.find? copy.compound.request.key = some (copy.serial, copy.compound)
  waiting : ∀ {t copy}, x.copies.find? t = some copy → copy.first = true → copy.silent = false →
    x.answered.find? copy.serial = none ∧
      x.latest.find? copy.compound.request.key = some (copy.serial, copy.compound)
  silent : ∀ {t copy}, x.copies.find? t = some copy → copy.first = true → copy.silent = true →
    x.next.find? copy.compound.request.key = some (inc32 copy.compound.request.seqid) ∧
      ∃ reply, x.answered.find? copy.serial = some reply ∧ seqidAdvances reply.answer.1 = true
  unique : ∀ {t t' copy copy'}, x.copies.find? t = some copy → x.copies.find? t' = some copy' →
    copy.first = true → copy'.first = true →
    copy.compound.request.key = copy'.compound.request.key → t = t'
  opens : ∀ {t p}, x.world.opens.find? t = some p → ∃ copy, x.copies.find? t = some copy ∧
    copy.first = true ∧ copy.compound.request = .open p.args p.creds ∧
    ∀ status, p.target = some (.error status) → lookupFails status = true

/-- The clients' side against the server's. -/
structure Agrees (x : Exchange) : Prop where
  ledger : x.world.server.Ledger x.opened
  next : ∀ {k r}, x.world.server.owners.find? k = some r → ¬x.Busy k →
    x.next.find? k = some (inc32 r.seqid)
  pending : ∀ {t copy r}, x.copies.find? t = some copy → copy.first = true →
    x.world.server.owners.find? copy.compound.request.key = some r →
    copy.compound.request.seqid = inc32 r.seqid
  before : ∀ {t copy}, x.copies.find? t = some copy → copy.first = true →
    ∃ m, x.before.find? copy.serial = some m ∧ (x.recorded copy.compound.request.key = m ∨
      copy.compound.request.key.1 ∈ x.world.server.dropped)
  outcome : ∀ {k i c}, x.begun.find? k = some (i, c) → ¬x.Busy k → ∃ reply m,
    x.answered.find? i = some reply ∧ x.before.find? i = some m ∧
      (x.recorded k = (if seqidAdvances reply.answer.1 then some c.request.seqid else m) ∨
        k.1 ∈ x.world.server.dropped)
  cached : ∀ {k i c r}, x.begun.find? k = some (i, c) → ¬x.Busy k →
    x.world.server.owners.find? k = some r → r.seqid = c.request.seqid →
    r.lastOp = c.request.op

structure Sound (x : Exchange) : Prop extends Books x, Agrees x

/-! ## Steps -/

theorem Sound.resent {copies} (h : x.Sound) (hc : ∀ {t copy}, copy.first = true →
      (copies.find? t = some copy ↔ x.copies.find? t = some copy)) :
    { x with copies := copies }.Sound := by
  have hbusy : ∀ {k}, ¬{ x with copies := copies }.Busy k → ¬x.Busy k := by
    rintro k hnot ⟨t, copy, ht, hf, hk⟩
    exact hnot ⟨t, copy, (hc hf).mpr ht, hf, hk⟩
  exact
    { h with
      sent := fun hl => { h.sent hl with }
      begun := fun hb => { h.begun hb with }
      copies := fun ht hf => h.copies ((hc hf).mp ht) hf
      waiting := fun ht hf => h.waiting ((hc hf).mp ht) hf
      silent := fun ht hf => h.silent ((hc hf).mp ht) hf
      unique := fun ht ht' hf hf' => h.unique ((hc hf).mp ht) ((hc hf').mp ht') hf hf'
      opens := fun hp => by
        obtain ⟨copy, ht, hf, hrest⟩ := h.opens hp
        exact ⟨copy, (hc hf).mpr ht, hf, hrest⟩
      next := fun hr hb => h.next hr (hbusy hb)
      pending := fun ht hf => h.pending ((hc hf).mp ht) hf
      before := fun ht hf => h.before ((hc hf).mp ht) hf
      outcome := fun hb hn => h.outcome hb (hbusy hn)
      cached := fun hb hn => h.cached hb (hbusy hn) }

variable {c : Compound}

theorem mayIssue_spec (h : x.mayIssue c = true) :
    (∀ {i c'}, x.latest.find? c.request.key = some (i, c') → ∃ reply, x.answered.find? i = some reply) ∧
      (∀ {n}, x.next.find? c.request.key = some n → n = c.request.seqid) ∧
      ∀ {id}, c.request.stateid? = some id → x.opened.find? id.other = some c.request.key := by
  rw [mayIssue, and_eq_true, and_eq_true] at h
  obtain ⟨⟨h₁, h₂⟩, h₃⟩ := h
  refine ⟨fun hl => ?_, fun hn => ?_, fun hid => ?_⟩
  · rw [hl] at h₁
    exact isSome_iff_exists.mp h₁
  · rw [hn] at h₂
    exact of_decide_eq_true h₂
  · rw [hid] at h₃
    exact of_decide_eq_true h₃

theorem Sound.issue (h : x.Sound) (hplain : c.Plain) (hmay : x.mayIssue c = true) :
    { x with
      latest := x.latest.put c.request.key (x.serial, c), serial := x.serial + 1 }.Sound := by
  obtain ⟨hlast, hnext, hid⟩ := mayIssue_spec hmay
  exact
    { h with
      sent := fun hl => by
        rcases of_put hl with ⟨rfl, he⟩ | ⟨-, hl⟩
        · cases he
          exact ⟨rfl, hplain, hid⟩
        · exact { h.sent hl with }
      latest := fun hl => by
        rcases of_put hl with ⟨rfl, he⟩ | ⟨-, hl⟩
        · cases he
          exact lt_succ_self _
        · exact (h.latest hl).trans (lt_succ_self _)
      latestDistinct := fun hl hl' => by
        rcases of_put hl with ⟨rfl, he⟩ | ⟨-, hl⟩ <;>
          rcases of_put hl' with ⟨rfl, he'⟩ | ⟨-, hl'⟩
        · rfl
        · cases he
          exact absurd (h.latest hl') (lt_irrefl _)
        · cases he'
          exact absurd (h.latest hl) (lt_irrefl _)
        · exact h.latestDistinct hl hl'
      awaited := fun hl ha hn => by
        rcases of_put hl with ⟨rfl, he⟩ | ⟨-, hl⟩
        · cases he
          exact hnext hn
        · exact h.awaited hl ha hn
      begun := fun hb => { h.begun hb with }
      current := fun hl hm => by
        rcases of_put hl with ⟨rfl, he⟩ | ⟨-, hl⟩
        · cases he
          exact absurd (h.serials hm) (lt_irrefl _)
        · exact h.current hl hm
      serials := fun hm => (h.serials hm).trans (lt_succ_self _)
      waiting := fun {t copy} ht hf hs => by
        obtain ⟨ha, hl⟩ := h.waiting ht hf hs
        refine ⟨ha, (find?_put ..).trans ?_⟩
        split
        · rename_i hk
          rw [hk] at hl
          obtain ⟨reply, hreply⟩ := hlast hl
          rw [ha] at hreply
          cases hreply
        · exact hl }

variable {i : Nat}

theorem Sound.first (h : x.Sound) (hl : x.latest.find? k = some (i, c))
    (hnew : x.before.find? i = none) (hfree : x.copies.find? thread = none) (hidle : ¬x.Busy k) :
    { x with
      begun := x.begun.put c.request.key (i, c)
      before := x.before.put i (x.recorded c.request.key)
      copies := x.copies.put thread { serial := i, compound := c, first := true } }.Sound := by
  have hsent := h.sent hl
  obtain rfl := hsent.key
  have hopen : x.answered.find? i = none := by
    by_contra hne
    obtain ⟨reply, hr⟩ := ne_none_iff_exists'.mp hne
    obtain ⟨m, hm⟩ := h.answered hr
    rw [hnew] at hm
    cases hm
  have hother : ∀ {t copy}, x.copies.find? t = some copy → copy.first = true →
      copy.compound.request.key ≠ c.request.key :=
    fun ht hf hk => hidle ⟨_, _, ht, hf, hk⟩
  have hne : ∀ {y : Exchange} {k'}, y.copies = x.copies.put thread ⟨i, c, true, false⟩ → ¬y.Busy k' →
      k' ≠ c.request.key ∧ ¬x.Busy k' := by
    intro y k' hy hnot
    refine ⟨?_, fun hb => hnot (hb.of_put hfree hy)⟩
    rintro rfl
    exact hnot ⟨thread, _, hy ▸ find?_put_self, rfl, rfl⟩
  have hbefore : ∀ {k' j c'}, x.begun.find? k' = some (j, c') → j ≠ i := by
    rintro k' j c' hb rfl
    obtain ⟨m, hm⟩ := h.begunBefore hb
    rw [hnew] at hm
    cases hm
  exact
    { h with
      sent := fun hl => { h.sent hl with }
      begun := fun hb => by
        rcases of_put hb with ⟨rfl, he⟩ | ⟨-, hb⟩
        · cases he
          exact ⟨rfl, hsent.plain, hsent.stateid⟩
        · exact { h.begun hb with }
      begunBefore := fun hb => by
        rcases of_put hb with ⟨rfl, he⟩ | ⟨-, hb⟩
        · cases he
          exact ⟨_, find?_put_self⟩
        · obtain ⟨m, hm⟩ := h.begunBefore hb
          exact ⟨m, find?_put_of_none hnew hm⟩
      begunDistinct := fun hb hb' => by
        rcases of_put hb with ⟨rfl, he⟩ | ⟨-, hb⟩ <;>
          rcases of_put hb' with ⟨rfl, he'⟩ | ⟨-, hb'⟩
        · rfl
        · cases he
          exact absurd rfl (hbefore hb')
        · cases he'
          exact absurd rfl (hbefore hb)
        · exact h.begunDistinct hb hb'
      current := fun {k' j c' m} hl' hm => by
        rcases of_put hm with ⟨rfl, -⟩ | ⟨hj, hm⟩
        · obtain rfl := h.latestDistinct hl' hl
          rw [hl] at hl'
          cases hl'
          exact find?_put_self
        refine (find?_put_of_ne ?_).trans (h.current hl' hm)
        rintro rfl
        rw [hl] at hl'
        cases hl'
        exact hj rfl
      serials := fun hm => by
        rcases of_put hm with ⟨rfl, -⟩ | ⟨-, hm⟩
        · exact h.latest hl
        · exact h.serials hm
      answered := fun ha => by
        obtain ⟨m, hm⟩ := h.answered ha
        exact ⟨m, find?_put_of_none hnew hm⟩
      copies := fun ht hf => by
        rcases of_put ht with ⟨rfl, rfl⟩ | ⟨-, ht⟩
        · exact find?_put_self
        · exact (find?_put_of_ne (hother ht hf)).trans (h.copies ht hf)
      waiting := fun ht hf hs => by
        rcases of_put ht with ⟨rfl, rfl⟩ | ⟨-, ht⟩
        · exact ⟨hopen, hl⟩
        · exact h.waiting ht hf hs
      silent := fun ht hf hs => by
        rcases of_put ht with ⟨rfl, rfl⟩ | ⟨-, ht⟩
        · cases hs
        · exact h.silent ht hf hs
      unique := fun ht ht' hf hf' hk => by
        rcases of_put ht with ⟨rfl, rfl⟩ | ⟨-, h₁⟩ <;>
          rcases of_put ht' with ⟨rfl, rfl⟩ | ⟨-, h₂⟩
        · rfl
        · exact absurd hk.symm (hother h₂ hf')
        · exact absurd hk (hother h₁ hf)
        · exact h.unique h₁ h₂ hf hf' hk
      opens := fun hp => by
        obtain ⟨copy, ht, hrest⟩ := h.opens hp
        exact ⟨copy, find?_put_of_none hfree ht, hrest⟩
      next := fun hr hb => h.next hr (hne rfl hb).2
      pending := fun ht hf hr => by
        rcases of_put ht with ⟨rfl, rfl⟩ | ⟨-, ht⟩
        · exact (h.awaited hl hopen (h.next hr hidle)).symm
        · exact h.pending ht hf hr
      before := fun ht hf => by
        rcases of_put ht with ⟨rfl, rfl⟩ | ⟨-, ht⟩
        · exact ⟨_, find?_put_self, .inl rfl⟩
        · obtain ⟨m, hm, hrec⟩ := h.before ht hf
          exact ⟨m, find?_put_of_none hnew hm, hrec⟩
      outcome := fun hb hn => by
        obtain ⟨hk, hidle'⟩ := hne rfl hn
        rcases of_put hb with ⟨rfl, -⟩ | ⟨-, hb⟩
        · exact absurd rfl hk
        · obtain ⟨reply, m, ha, hm, hrec⟩ := h.outcome hb hidle'
          exact ⟨reply, m, ha, find?_put_of_none hnew hm, hrec⟩
      cached := fun hb hn => by
        obtain ⟨hk, hidle'⟩ := hne rfl hn
        rcases of_put hb with ⟨rfl, -⟩ | ⟨-, hb⟩
        · exact absurd rfl hk
        · exact h.cached hb hidle' }

variable {w : World}

theorem Sound.server (h : x.Sound) (hw : x.world.server.Forgets w.server)
    (hopens : ∀ {t p}, w.opens.find? t = some p → ∃ copy, x.copies.find? t = some copy ∧
      copy.first = true ∧ copy.compound.request = .open p.args p.creds ∧
      ∀ status, p.target = some (.error status) → lookupFails status = true) :
    { x with world := w }.Sound := by
  have hrec : ∀ {k m}, x.recorded k = m ∨ k.1 ∈ x.world.server.dropped →
      { x with world := w }.recorded k = m ∨ k.1 ∈ w.server.dropped := by
    rintro k m (hm | hd)
    · rcases hw.owners k with hk | ⟨-, hd⟩
      · refine .inl (Eq.trans ?_ hm)
        change (w.server.owners.find? k).map OpenOwner.seqid = _
        rw [hk]
        rfl
      · exact .inr hd
    · exact .inr (hw.dropped hd)
  exact
    { h with
      sent := fun hl => { h.sent hl with }
      begun := fun hb => { h.begun hb with }
      opens := hopens
      ledger := h.ledger.forgets hw
      next := fun hr hb => h.next (hw.row hr) hb
      pending := fun ht hf hr => h.pending ht hf (hw.row hr)
      before := fun ht hf => by
        obtain ⟨m, hm, ho⟩ := h.before ht hf
        exact ⟨m, hm, hrec ho⟩
      outcome := fun hb hn => by
        obtain ⟨reply, m, ha, hm, ho⟩ := h.outcome hb hn
        exact ⟨reply, m, ha, hm, hrec ho⟩
      cached := fun hb hn hr => h.cached hb hn (hw.row hr) }

section

variable {copy : Copy} {reply : Reply} (h : x.Sound)
  (hcopy : x.copies.find? thread = some copy) (hfirst : copy.first = true)
include h hcopy hfirst

theorem Sound.other {t copy'} (hne : t ≠ thread) (ht : x.copies.find? t = some copy')
    (hf : copy'.first = true) :
    copy'.compound.request.key ≠ copy.compound.request.key ∧ copy'.serial ≠ copy.serial := by
  have hkey : copy'.compound.request.key ≠ copy.compound.request.key :=
    fun hk => hne (h.unique ht hcopy hf hfirst hk)
  refine ⟨hkey, fun hs => hkey ?_⟩
  have hb := h.copies ht hf
  rw [hs] at hb
  exact h.begunDistinct hb (h.copies hcopy hfirst)

theorem Sound.finished {a answered next opened}
    (hhandled : x.world.server.Handled cfg copy.compound.request a w.server)
    (hopens : ∀ {t p}, w.opens.find? t = some p → t ≠ thread ∧ x.world.opens.find? t = some p)
    (hsilent : copy.silent = true → seqidAdvances a.1 = true)
    (hreply : seqidAdvances reply.answer.1 = seqidAdvances a.1) (hanswered : ∀ j, answered.find? j =
      if j = copy.serial then some reply else x.answered.find? j)
    (hnext : ∀ k, next.find? k = if k = copy.compound.request.key then
      some (if seqidAdvances a.1 then inc32 copy.compound.request.seqid
        else copy.compound.request.seqid)
      else x.next.find? k) (hgrows : ∀ {o k}, x.opened.find? o = some k → opened.find? o = some k)
    (hledger : w.server.Ledger opened) :
    { x with
      world := w, copies := x.copies.erase thread
      answered := answered, next := next, opened := opened }.Sound := by
  have hbegun := h.copies hcopy hfirst
  obtain ⟨m, hm, hrec⟩ := h.before hcopy hfirst
  have hsent : ∀ {y : Exchange} {k c}, y.opened = opened → x.Sent k c → y.Sent k c :=
    fun hy hs => ⟨hs.key, hs.plain, fun hid => hy ▸ hgrows (hs.stateid hid)⟩
  have hother : ∀ {t copy'}, (x.copies.erase thread).find? t = some copy' → copy'.first = true →
      x.copies.find? t = some copy' ∧ copy'.compound.request.key ≠ copy.compound.request.key ∧
        copy'.serial ≠ copy.serial := by
    intro t copy' ht hf
    obtain ⟨hne, ht⟩ := of_erase ht
    exact ⟨ht, h.other hcopy hfirst hne ht hf⟩
  have hbusy : ∀ {y : Exchange} {k}, y.copies = x.copies.erase thread →
      k ≠ copy.compound.request.key → ¬y.Busy k → ¬x.Busy k :=
    fun hy hk hnot hb => hnot (hb.of_erase hcopy hk hy)
  have hrecorded : ∀ {y : Exchange} {k}, y.world = w → k ≠ copy.compound.request.key →
      y.recorded k = x.recorded k := by
    intro y k hy hk
    rw [recorded, hy, hhandled.owners_other hk]
    rfl
  exact
    { h with
      sent := fun hl => hsent rfl (h.sent hl)
      awaited := fun {k j c n} hl ha hn => by
        rw [hanswered] at ha
        rw [hnext] at hn
        split at ha
        · cases ha
        rename_i hj
        split at hn
        · rename_i hk
          subst hk
          cases hs : copy.silent with
          | true =>
            rw [if_pos (hsilent hs)] at hn
            exact h.awaited hl ha ((h.silent hcopy hfirst hs).1.trans hn)
          | false =>
            have hl' := (h.waiting hcopy hfirst hs).2
            rw [hl] at hl'
            cases hl'
            exact absurd rfl hj
        · exact h.awaited hl ha hn
      begun := fun hb => hsent rfl (h.begun hb)
      answered := fun {j rep} ha => by
        rw [hanswered] at ha
        split at ha
        · rename_i hj
          exact ⟨m, hj ▸ hm⟩
        · exact h.answered ha
      copies := fun ht hf => h.copies (hother ht hf).1 hf
      waiting := fun ht hf hs => by
        obtain ⟨ht, -, hne⟩ := hother ht hf
        obtain ⟨ha, hl⟩ := h.waiting ht hf hs
        exact ⟨(hanswered _).trans ((if_neg hne).trans ha), hl⟩
      silent := fun ht hf hs => by
        obtain ⟨ht, hk, hne⟩ := hother ht hf
        obtain ⟨hn, rep, ha, hadv⟩ := h.silent ht hf hs
        exact ⟨(hnext _).trans ((if_neg hk).trans hn), rep,
          (hanswered _).trans ((if_neg hne).trans ha), hadv⟩
      unique := fun ht ht' hf hf' => h.unique (hother ht hf).1 (hother ht' hf').1 hf hf'
      opens := fun {t p} hp => by
        obtain ⟨hne, hp⟩ := hopens hp
        obtain ⟨copy', ht, hrest⟩ := h.opens hp
        exact ⟨copy', (find?_erase ..).trans ((if_neg hne).trans ht), hrest⟩
      ledger := hledger
      next := fun {k r} hr hb => by
        refine (hnext k).trans ?_
        split
        · rename_i hk
          subst hk
          rcases hhandled.refused_or with ⟨hs, hadv, -⟩ | he
          · rw [hadv, h.pending hcopy hfirst (hs ▸ hr)]
            rfl
          rw [he.owners, find?_put, if_pos rfl] at hr
          cases hr
          rw [he.advances]
          rfl
        · rename_i hk
          refine h.next ?_ (hbusy rfl hk hb)
          rw [← hhandled.owners_other hk]
          exact hr
      pending := fun {t copy' r} ht hf hr => by
        obtain ⟨ht, hk, -⟩ := hother ht hf
        refine h.pending ht hf ?_
        rw [← hhandled.owners_other hk]
        exact hr
      before := fun ht hf => by
        obtain ⟨ht, hk, -⟩ := hother ht hf
        obtain ⟨m', hm', hrec'⟩ := h.before ht hf
        refine ⟨m', hm', ?_⟩
        rw [hrecorded rfl hk]
        rw [hhandled.dropped]
        exact hrec'
      outcome := fun {k j c} hb hn => by
        rw [hanswered, hhandled.dropped]
        by_cases hk : k = copy.compound.request.key
        · subst hk
          rw [hbegun] at hb
          cases hb
          refine ⟨reply, m, if_pos rfl, hm, ?_⟩
          rw [hreply]
          change (w.server.owners.find? _).map OpenOwner.seqid = _ ∨ _
          rcases hhandled.refused_or with ⟨hs, hadv, -⟩ | he
          · rw [hadv, hs]
            exact hrec
          · rw [he.owners, find?_put, if_pos rfl, he.advances]
            exact .inl rfl
        · obtain ⟨rep, m', ha, hm', hrec'⟩ := h.outcome hb (hbusy rfl hk hn)
          have hj : j ≠ copy.serial := by
            rintro rfl
            exact hk (h.begunDistinct hb hbegun)
          refine ⟨rep, m', (if_neg hj).trans ha, hm', ?_⟩
          rw [hrecorded rfl hk]
          exact hrec'
      cached := fun {k j c r} hb hn hr hs => by
        by_cases hk : k = copy.compound.request.key
        · subst hk
          rw [hbegun] at hb
          cases hb
          rcases hhandled.refused_or with ⟨he, -, -⟩ | he
          · exact absurd ((h.pending hcopy hfirst (he ▸ hr)).symm.trans hs.symm) (inc32_ne _)
          · rw [he.owners, find?_put, if_pos rfl] at hr
            cases hr
            rfl
        · refine h.cached hb (hbusy rfl hk hn) ?_ hs
          rw [← hhandled.owners_other hk]
          exact hr }

theorem Sound.expired (hs : copy.silent = false)
    (hadv : seqidAdvances reply.answer.1 = true) :
    { x with
      copies := x.copies.put thread { copy with silent := true }
      answered := x.answered.put copy.serial reply
      next := x.next.put copy.compound.request.key (inc32 copy.compound.request.seqid) }.Sound := by
  have hbegun := h.copies hcopy hfirst
  obtain ⟨hopen, hlatest⟩ := h.waiting hcopy hfirst hs
  have hold : ∀ {t copy'}, (x.copies.put thread { copy with silent := true }).find? t = some copy' →
      ∃ copy₀, x.copies.find? t = some copy₀ ∧ copy₀.serial = copy'.serial ∧
        copy₀.compound = copy'.compound ∧ copy₀.first = copy'.first := by
    intro t copy' ht
    rcases of_put ht with ⟨rfl, rfl⟩ | ⟨-, ht⟩
    · exact ⟨copy, hcopy, rfl, rfl, rfl⟩
    · exact ⟨copy', ht, rfl, rfl, rfl⟩
  have hnew : ∀ {t copy₀}, x.copies.find? t = some copy₀ → ∃ copy',
      (x.copies.put thread { copy with silent := true }).find? t = some copy' ∧
        copy'.compound = copy₀.compound ∧ copy'.first = copy₀.first := by
    intro t copy₀ ht
    rw [find?_put]
    split
    · rename_i he
      subst he
      rw [hcopy] at ht
      cases ht
      exact ⟨_, rfl, rfl, rfl⟩
    · exact ⟨copy₀, ht, rfl, rfl⟩
  have hbusy : ∀ {y : Exchange} {k}, y.copies = x.copies.put thread { copy with silent := true } →
      ¬y.Busy k → k ≠ copy.compound.request.key ∧ ¬x.Busy k := by
    intro y k hy hnot
    refine ⟨?_, ?_⟩
    · rintro rfl
      exact hnot ⟨thread, { copy with silent := true }, hy ▸ find?_put_self, hfirst, rfl⟩
    · rintro ⟨t, copy₀, ht, hf, rfl⟩
      obtain ⟨copy', ht', hc, hf'⟩ := hnew ht
      exact hnot ⟨t, copy', hy ▸ ht', hf'.trans hf, congrArg (·.request.key) hc⟩
  exact
    { h with
      sent := fun hl => { h.sent hl with }
      awaited := fun {k j c n} hl ha hn => by
        rw [find?_put] at ha
        split at ha
        · cases ha
        rename_i hj
        rw [find?_put] at hn
        split at hn
        · rename_i hk
          subst hk
          rw [hlatest] at hl
          cases hl
          exact absurd rfl hj
        · exact h.awaited hl ha hn
      begun := fun hb => { h.begun hb with }
      answered := fun ha => by
        rcases of_put ha with ⟨rfl, -⟩ | ⟨-, ha⟩
        · exact h.begunBefore hbegun
        · exact h.answered ha
      copies := fun ht hf => by
        obtain ⟨copy₀, ht₀, hser, hc, hf₀⟩ := hold ht
        rw [← hser, ← hc]
        exact h.copies ht₀ (hf₀.trans hf)
      waiting := fun ht hf hs' => by
        rcases of_put ht with ⟨rfl, rfl⟩ | ⟨hne, ht⟩
        · cases hs'
        · obtain ⟨ha, hl⟩ := h.waiting ht hf hs'
          exact ⟨(find?_put_of_ne (h.other hcopy hfirst hne ht hf).2).trans ha, hl⟩
      silent := fun ht hf hs' => by
        rcases of_put ht with ⟨rfl, rfl⟩ | ⟨hne, ht⟩
        · exact ⟨find?_put_self, reply, find?_put_self, hadv⟩
        · obtain ⟨hk, hser⟩ := h.other hcopy hfirst hne ht hf
          obtain ⟨hn, rep, ha, hadv'⟩ := h.silent ht hf hs'
          exact ⟨(find?_put_of_ne hk).trans hn, rep, (find?_put_of_ne hser).trans ha, hadv'⟩
      unique := fun ht ht' hf hf' hk => by
        obtain ⟨copy₀, ht₀, -, hc, hf₀⟩ := hold ht
        obtain ⟨copy₁, ht₁, -, hc', hf₁⟩ := hold ht'
        refine h.unique ht₀ ht₁ (hf₀.trans hf) (hf₁.trans hf') ?_
        rw [hc, hc']
        exact hk
      opens := fun hp => by
        obtain ⟨copy₀, ht, hf, hq, hstatus⟩ := h.opens hp
        obtain ⟨copy', ht', hc, hf'⟩ := hnew ht
        exact ⟨copy', ht', hf'.trans hf, (congrArg request hc).trans hq, hstatus⟩
      next := fun hr hb => by
        obtain ⟨hk, hidle⟩ := hbusy rfl hb
        exact (find?_put_of_ne hk).trans (h.next hr hidle)
      pending := fun ht hf hr => by
        obtain ⟨copy₀, ht₀, -, hc, hf₀⟩ := hold ht
        rw [← hc] at hr ⊢
        exact h.pending ht₀ (hf₀.trans hf) hr
      before := fun ht hf => by
        obtain ⟨copy₀, ht₀, hser, hc, hf₀⟩ := hold ht
        rw [← hser, ← hc]
        exact h.before ht₀ (hf₀.trans hf)
      outcome := fun {k j c} hb hn => by
        obtain ⟨hk, hidle⟩ := hbusy rfl hn
        obtain ⟨rep, m, ha, hrest⟩ := h.outcome hb hidle
        have hj : j ≠ copy.serial := by
          rintro rfl
          exact hk (h.begunDistinct hb hbegun)
        exact ⟨rep, m, (find?_put_of_ne hj).trans ha, hrest⟩
      cached := fun hb hn => h.cached hb (hbusy rfl hn).2 }

end

/-! ## Runs -/

/-- The client does not get `NFS4ERR_BAD_SEQID`. -/
def InSequence (r : Option (Nat × Reply)) : Prop :=
  ∀ i reply, r = some (i, reply) → reply.answer.1 ≠ .badSeqid

theorem InSequence.nothing : InSequence none := by
  intro i reply h
  cases h

theorem InSequence.reply {reply} (h : reply.answer.1 ≠ .badSeqid) :
    InSequence (some (i, reply)) := by
  intro i' reply' he
  cases he
  exact h

theorem receive_of_answered {reply reply'} (h : x.answered.find? i = some reply') :
    x.receive i c reply = x := by
  rw [receive, if_pos (contains_eq_true.mpr ⟨_, h⟩)]

theorem receive_of_none {reply} (h : x.answered.find? i = none) :
    x.receive i c reply = { x with
      answered := x.answered.put i reply
      next := x.next.put c.request.key
        (if seqidAdvances reply.answer.1 then inc32 c.request.seqid else c.request.seqid)
      opened := learn x.opened c.request.key reply.answer.2 } := by
  rw [receive, if_neg]
  simp [contains, h]

variable {r : Option (Nat × Reply)}

theorem complete_of_none {copy reply} (hc : x.complete thread copy reply = some (y, r))
    (hs : copy.silent = false) (ha : x.answered.find? copy.serial = none) :
    y = { x with
      copies := x.copies.erase thread
      answered := x.answered.put copy.serial reply
      next := x.next.put copy.compound.request.key
        (if seqidAdvances reply.answer.1 then inc32 copy.compound.request.seqid
          else copy.compound.request.seqid)
      opened := learn x.opened copy.compound.request.key reply.answer.2 } ∧
      r = some (copy.serial, reply) := by
  rw [complete, if_neg (by rw [hs]; exact false_ne_true), deliver,
    receive_of_none (by exact ha)] at hc
  cases hc
  exact ⟨rfl, rfl⟩

section

variable (h : x.Sound)
include h

theorem Sound.complete {copy a reply} (hcopy : x.copies.find? thread = some copy)
    (hfirst : copy.first = true)
    (hhandled : x.world.server.Handled cfg copy.compound.request a w.server)
    (hopens : ∀ {t p}, w.opens.find? t = some p → t ≠ thread ∧ x.world.opens.find? t = some p)
    (hsilent : copy.silent = true → seqidAdvances a.1 = true) (hreply : reply.answer = a)
    (hc : { x with world := w }.complete thread copy reply = some (y, r)) :
    y.Sound ∧ InSequence r := by
  have hsent := h.begun (h.copies hcopy hfirst)
  have hledger : w.server.Ledger x.opened := by
    rcases hhandled.refused_or with ⟨hs, -⟩ | he
    · rw [hs]
      exact h.ledger
    · exact h.ledger.executed hsent.stateid he
  cases hs : copy.silent with
  | true =>
    rw [Exchange.complete, if_pos hs] at hc
    cases hc
    obtain ⟨hn, rep, ha, hadv⟩ := h.silent hcopy hfirst hs
    refine ⟨h.finished hcopy hfirst hhandled hopens hsilent
      (hadv.trans (hsilent hs).symm) (fun j => ?_) (fun k => ?_) id hledger, .nothing⟩
    · split
      · rename_i hj
        rw [hj]
        exact ha
      · rfl
    rw [if_pos (hsilent hs)]
    split
    · rename_i hk
      rw [hk]
      exact hn
    · rfl
  | false =>
    obtain ⟨hopen, -⟩ := h.waiting hcopy hfirst hs
    obtain ⟨rfl, rfl⟩ := complete_of_none hc hs hopen
    subst hreply
    refine ⟨?_, .reply hhandled.ne_badSeqid⟩
    exact h.finished hcopy hfirst hhandled hopens hsilent rfl (fun j => find?_put ..)
      (fun k => find?_put ..) (hhandled.learn_grows hledger) (hhandled.learn_ledger hledger)

/-- What the agreement needs of each step. -/
def Paced (cfg : Config) (x : Exchange) : Action → Prop
  -- `OPEN4_CREATE` and unknown claims are answered without a record
  | .issue c => c.Plain
  -- a request waits for the one before it, which the deadline may have answered
  | .start _ owner =>
    ∀ i c, x.latest.find? owner = some (i, c) → x.before.find? i = none → ¬x.Busy owner
  | .process thread =>
    ∀ copy, x.copies.find? thread = some copy → if copy.first = true then
        copy.compound.Current x.world.server ∧
          -- the deadline has answered with a status that advances the number
          (copy.silent = true → copy.compound.Known cfg x.world.server)
      else
        -- a resend comes after the original was recorded and before the next request
        ¬x.Busy copy.compound.request.key ∧
          x.begun.find? copy.compound.request.key = some (copy.serial, copy.compound) ∧
          x.recorded copy.compound.request.key = some copy.compound.request.seqid
  | .finish thread =>
    x.world.server.nextStateid + 2 < 2 ^ 64 ∧
      ∀ copy, x.copies.find? thread = some copy → copy.silent = true →
        x.world.server.openStates.entries.length < cfg.maxStateids
  | .discard _ => False
  | .expire thread =>
    ∀ copy, x.copies.find? thread = some copy →
      copy.first = true ∨ x.answered.contains copy.serial = true
  | _ => True

theorem Sound.not_process_twice {copy p} (hcopy : x.copies.find? thread = some copy)
    (hp : x.world.opens.find? thread = some p) :
    x.world.exec cfg (copy.compound.event thread) = none := by
  obtain ⟨copy', hcopy', -, hq, -⟩ := h.opens hp
  rw [hcopy] at hcopy'
  cases hcopy'
  rw [event, hq]
  rw [World.exec, if_pos (contains_eq_true.mpr ⟨p, hp⟩)]

theorem Sound.processAgain {copy : Copy} {oa : Option Answer}
    (hidle : ¬x.Busy copy.compound.request.key)
    (hbegun : x.begun.find? copy.compound.request.key = some (copy.serial, copy.compound))
    (hrec : x.recorded copy.compound.request.key = some copy.compound.request.seqid)
    (he : x.world.exec cfg (copy.compound.event thread) = some (w, oa)) :
    w = x.world ∧ (∃ reply, x.answered.find? copy.serial = some reply) ∧
      ∃ a, oa = some a ∧ a.1 ≠ .badSeqid := by
  obtain ⟨reply, m, ha, -, -⟩ := h.outcome hbegun hidle
  obtain ⟨r, hr, hn⟩ := map_eq_some_iff.mp hrec
  obtain ⟨hw, hans⟩ := process_again h.ledger (h.begun hbegun).stateid hr hn
    (h.cached hbegun hidle hr hn) he
  exact ⟨hw, ⟨reply, ha⟩, hans⟩

theorem Sound.finish_handled {copy args creds target}
    (hlt : x.world.server.nextStateid + 2 < 2 ^ 64) (hcopy : x.copies.find? thread = some copy)
    (hp : x.world.opens.find? thread = some ⟨args, creds, some target⟩) :
    copy.first = true ∧ x.world.server.Handled cfg copy.compound.request
      (x.world.server.openFinish cfg args creds target).2
      (x.world.server.openFinish cfg args creds target).1 := by
  obtain ⟨copy', hcopy', hfirst, hq, hfail⟩ := h.opens hp
  rw [hcopy] at hcopy'
  cases hcopy'
  refine ⟨hfirst, ?_⟩
  rw [hq]
  exact Server.openFinish_handled hlt fun status ht => hfail status (congrArg some ht)

theorem Sound.finish_advances {args creds target}
    (hp : x.world.opens.find? thread = some ⟨args, creds, some target⟩)
    (hroom : x.world.server.openStates.entries.length < cfg.maxStateids) :
    seqidAdvances (x.world.server.openFinish cfg args creds target).2.1 = true := by
  obtain ⟨-, -, -, -, hfail⟩ := h.opens hp
  exact Server.openFinish_advances hroom fun status ht => hfail status (congrArg some ht)

omit h in
theorem find?_erase_resend {t copy copy'} (hcopy : x.copies.find? thread = some copy)
    (hfirst : ¬copy.first = true) (hf : copy'.first = true) :
    (x.copies.erase thread).find? t = some copy' ↔ x.copies.find? t = some copy' := by
  rw [find?_erase]
  split
  · rename_i ht
    subst ht
    rw [hcopy]
    refine ⟨by simp, fun hc => ?_⟩
    cases hc
    exact absurd hf hfirst
  · exact Iff.rfl

omit h in
theorem find?_put_resend {t copy copy'}
    (hfree : ∀ old, x.copies.find? thread = some old → ¬old.first = true)
    (hfirst : ¬copy.first = true) (hf : copy'.first = true) :
    (x.copies.put thread copy).find? t = some copy' ↔ x.copies.find? t = some copy' := by
  rw [find?_put]
  split
  · rename_i ht
    subst ht
    refine ⟨fun hc => ?_, fun hc => absurd hf (hfree _ hc)⟩
    cases hc
    exact absurd hf hfirst
  · exact Iff.rfl

theorem Sound.process (hg : x.Paced cfg (.process thread))
    (he : x.exec cfg (.process thread) = some (y, r)) : y.Sound ∧ InSequence r := by
  obtain ⟨copy, w, hcopy, hcase⟩ := of_process he
  have hg := hg copy hcopy
  split at hg
  · rename_i hfirst
    have hsent := h.begun (h.copies hcopy hfirst)
    have hnext := fun r hr => h.pending (r := r) hcopy hfirst hr
    rcases hcase with ⟨a, hexec, hc⟩ | ⟨hexec, rfl, rfl⟩
    · rcases process_next h.ledger hsent.plain hg.1 hsent.stateid hnext hexec with
        ⟨a', ha, hh, hw⟩ | ⟨hnone, -⟩
      · cases ha
        refine h.complete hcopy hfirst hh (fun {t p} hp => ?_) (fun hs => advances_of_known
          h.ledger hsent.plain hg.1 hsent.stateid hnext (hg.2 hs) hexec) rfl hc
        rw [hw] at hp
        refine ⟨?_, hp⟩
        rintro rfl
        -- an `OPEN` in progress has passed its first part
        rw [h.not_process_twice hcopy hp] at hexec
        cases hexec
      · cases hnone
    · rcases process_next h.ledger hsent.plain hg.1 hsent.stateid hnext hexec with
        ⟨a', ha, -⟩ | ⟨-, -, args, creds, hq, rfl⟩
      · cases ha
      refine ⟨h.server (Server.Forgets.refl _) fun {t p} hp => ?_, .nothing⟩
      rcases of_put hp with ⟨rfl, rfl⟩ | ⟨-, hp⟩
      · exact ⟨copy, hcopy, hfirst, hq, by simp⟩
      · exact h.opens hp
  · rename_i hfirst
    rcases hcase with ⟨a, hexec, hc⟩ | ⟨hexec, -⟩
    · obtain ⟨rfl, ⟨reply, hans⟩, a', ha, hne⟩ := h.processAgain hg.1 hg.2.1 hg.2.2 hexec
      cases ha
      have hsound : { x with copies := x.copies.erase thread }.Sound :=
        h.resent (find?_erase_resend hcopy hfirst)
      rw [Exchange.complete] at hc
      split at hc
      · cases hc
        exact ⟨hsound, .nothing⟩
      · rw [deliver, receive_of_answered (by exact hans)] at hc
        cases hc
        exact ⟨hsound, .reply hne⟩
    · obtain ⟨-, -, a', ha, -⟩ := h.processAgain hg.1 hg.2.1 hg.2.2 hexec
      cases ha

theorem Sound.start {owner} (hg : x.Paced cfg (.start thread owner))
    (he : x.exec cfg (.start thread owner) = some (y, r)) : y.Sound := by
  obtain ⟨i, c, hl, hfree, -, ⟨hb, rfl⟩ | ⟨-, rfl⟩⟩ := of_start he
  · exact h.first hl hb hfree (hg i c hl hb)
  · refine h.resent (find?_put_resend (fun old hold => ?_) false_ne_true)
    rw [hfree] at hold
    cases hold

theorem Sound.finish (hg : x.Paced cfg (.finish thread))
    (he : x.exec cfg (.finish thread) = some (y, r)) : y.Sound ∧ InSequence r := by
  obtain ⟨copy, args, creds, target, hcopy, hp, hexec, hc⟩ := of_finish he
  obtain ⟨hfirst, hh⟩ := h.finish_handled hg.1 hcopy hp
  exact h.complete hcopy hfirst hh (fun hp => of_erase hp)
    (fun hs => h.finish_advances hp (hg.2 copy hcopy hs)) rfl hc

theorem Sound.lookup {target} (he : x.exec cfg (.lookup thread target) = some (y, r)) :
    y.Sound := by
  obtain ⟨hends, -, args, creds, hp, rfl⟩ := of_lookup he
  obtain ⟨copy, hcopy, hfirst, hq, -⟩ := h.opens hp
  refine h.server (Server.Forgets.refl _) fun {t p} hp' => ?_
  rcases of_put hp' with ⟨rfl, rfl⟩ | ⟨-, hp'⟩
  · refine ⟨copy, hcopy, hfirst, hq, fun status ht => ?_⟩
    cases target with
    | error status' =>
      cases ht
      exact hends
    | ok obj => cases ht
  · exact h.opens hp'

theorem Sound.expire (hg : x.Paced cfg (.expire thread))
    (he : x.exec cfg (.expire thread) = some (y, r)) : y.Sound ∧ InSequence r := by
  obtain ⟨copy, hcopy, hs, hd⟩ := of_expire he
  cases hf : copy.first with
  | true =>
    rw [deliver, receive_of_none (by exact (h.waiting hcopy hf hs).1)] at hd
    cases hd
    exact ⟨h.expired hcopy hf hs rfl, .reply Status.noConfusion⟩
  | false =>
    have hno : ¬copy.first = true := by
      rw [hf]
      exact false_ne_true
    obtain ⟨reply, hreply⟩ := contains_eq_true.mp ((hg copy hcopy).resolve_left hno)
    rw [deliver, receive_of_answered (by exact hreply)] at hd
    cases hd
    refine ⟨h.resent (find?_put_resend (fun old hold => ?_) hno), .reply Status.noConfusion⟩
    rw [hcopy] at hold
    cases hold
    exact hno

theorem Sound.exec {e} (hg : x.Paced cfg e) (he : x.exec cfg e = some (y, r)) :
    y.Sound ∧ InSequence r := by
  cases e with
  | issue c =>
    obtain ⟨hmay, rfl, rfl⟩ := of_issue he
    exact ⟨h.issue hg hmay, .nothing⟩
  | start thread owner =>
    obtain ⟨i, c, -, -, rfl, -⟩ := of_start he
    exact ⟨h.start hg he, .nothing⟩
  | process thread => exact h.process hg he
  | lookup thread target =>
    obtain ⟨-, rfl, -⟩ := of_lookup he
    exact ⟨h.lookup he, .nothing⟩
  | finish thread => exact h.finish hg he
  | discard owner => exact hg.elim
  | expire thread => exact h.expire hg he
  | world event =>
    obtain ⟨hseq, rfl, w, oa, hexec, rfl⟩ := of_world he
    obtain ⟨hw, hopens⟩ := World.exec_forgets hseq hexec
    exact ⟨h.server hw fun {t p} hp => h.opens (hopens ▸ hp), .nothing⟩

end

end Exchange

theorem Exchange.sound_started {w} (h : Started w) : Sound { world := w } := by
  obtain ⟨g, rfl⟩ := h
  refine ⟨⟨?_, ?_, ?_, ?_, ?_, ?_, ?_, ?_, ?_, ?_, ?_, ?_, ?_, ?_, ?_⟩,
    ⟨⟨?_, ?_, ?_, ?_, ?_, ?_⟩, ?_, ?_, ?_, ?_, ?_⟩⟩ <;> intros <;> contradiction

/-- **Agreement on sequence numbers.** In every run whose steps are paced, the recorded
number of an owner is that of its last request if the status it was answered with
advances it, and the one before otherwise; the client's next number follows it; and no
request is answered with `NFS4ERR_BAD_SEQID`. -/
theorem seqids_agree {cfg : Config} {x : Exchange}
    (h : (exchange cfg).Reach (Paced cfg) x) :
    (∀ k i c reply m, x.begun.find? k = some (i, c) → x.answered.find? i = some reply →
      x.before.find? i = some m → ¬x.Busy k →
      x.recorded k = (if seqidAdvances reply.answer.1 then some c.request.seqid else m) ∨
        k.1 ∈ x.world.server.dropped) ∧
    (∀ k n, x.recorded k = some n → ¬x.Busy k → x.next.find? k = some (inc32 n)) ∧
    ∀ e y i reply, x.Paced cfg e → x.exec cfg e = some (y, some (i, reply)) →
      reply.answer.1 ≠ .badSeqid := by
  have hs : x.Sound := by
    refine System.Reach.invariant (P := Sound) ?_ ?_ h
    · rintro _ ⟨w, hw, rfl⟩
      exact sound_started hw
    · rintro x e y hs hg ⟨r, he⟩
      exact (hs.exec hg he).1
  refine ⟨fun k i c reply m hb ha hm hidle => ?_, fun k n hn hidle => ?_,
    fun e y i reply hg he => (hs.exec hg he).2 i reply rfl⟩
  · obtain ⟨reply', m', ha', hm', hrec⟩ := hs.outcome hb hidle
    rw [ha] at ha'
    rw [hm] at hm'
    cases ha'
    cases hm'
    exact hrec
  · obtain ⟨r, hr, rfl⟩ := map_eq_some_iff.mp hn
    exact hs.next hr hidle

/-! ## Runs that lose step -/

variable {x : Exchange}

theorem exchange_exec {cfg} {guard : Exchange → Action → Prop} {y e r}
    (h : (exchange cfg).Reach guard x) (hg : guard x e) (he : x.exec cfg e = some (y, r)) :
    (exchange cfg).Reach guard y :=
  h.step hg ⟨r, he⟩

def sampleKey : OwnerKey := (⟨7, 1⟩, [1])

/-- A compound of the owner that ends with `OPEN`. -/
def openCompound (seqid : Nat) (create : Bool) : Compound where
  request := .open { sampleOpen ⟨7, 1⟩ with seqid := seqid, create := create } ⟨0, 0, []⟩
  fh := some ⟨.object, 1, 1, 0⟩
  last := true

theorem openCompound_plain (seqid : Nat) : (openCompound seqid false).Plain :=
  ⟨Bool.noConfusion, fun _ => Server.Claim.noConfusion⟩

theorem openCompound_current (s : Server) (seqid : Nat) : (openCompound seqid false).Current s := by
  intro id st hid
  cases hid

theorem not_busy {k} (h : x.copies.entries = []) : ¬x.Busy k := by
  rintro ⟨t, copy, ht, -⟩
  have := find?_eq_some.mp ht
  rw [h] at this
  cases this

theorem seqids_agree_open : ∃ x, (exchange plainConfig).Reach (Paced plainConfig) x ∧
      x.recorded sampleKey = some 1 ∧ x.next.find? sampleKey = some 2 := by
  have h₀ : (exchange plainConfig).Reach (Paced plainConfig)
      { world := { generation := 1 } } := .init ⟨_, ⟨1, rfl⟩, rfl⟩
  have h₁ := exchange_exec (e := .world (.setclientid [1] [65] false 0)) h₀ trivial rfl
  have h₂ := exchange_exec (e := .world (.setclientidConfirm ⟨7, 1⟩ (2 ^ 33))) h₁ trivial rfl
  have h₃ := exchange_exec (e := .issue (openCompound 1 false)) h₂ (openCompound_plain 1) rfl
  have h₄ := exchange_exec (e := .start 0 sampleKey) h₃ (fun _ _ _ _ => not_busy rfl) rfl
  have h₅ := exchange_exec (e := .expire 0) h₄ (fun copy hc => by
    cases hc
    exact .inl rfl) rfl
  have h₆ := exchange_exec (e := .process 0) h₅ (fun copy hc => by
    cases hc
    exact ⟨openCompound_current _ 1, fun _ => ⟨rfl, rfl⟩⟩) rfl
  have h₇ := exchange_exec (e := .lookup 0 (.ok sampleFile)) h₆ trivial rfl
  have h₈ := exchange_exec (e := .finish 0) h₇ ⟨by decide, fun copy hc _ => by decide⟩ rfl
  exact ⟨_, h₈, rfl, (seqids_agree h₈).2.1 sampleKey 1 rfl (not_busy rfl)⟩

def Exchange.after (cfg : Config) (x : Exchange) (e : Action) : Option Exchange :=
  (x.exec cfg e).map Prod.fst

/-- A client registers and opens a file with sequence number 1. -/
def firstOpen : List Action :=
  [.world (.setclientid [1] [65] false 0), .world (.setclientidConfirm ⟨7, 1⟩ (2 ^ 33)),
    .issue (openCompound 1 false), .start 0 sampleKey, .process 0, .lookup 0 (.ok sampleFile),
    .finish 0]

theorem reach_firstOpen (es : List Action)
    (h : (firstOpen ++ es).foldlM (after plainConfig) { world := { generation := 1 } } = some x) :
    (exchange plainConfig).Reach System.anyStep x := by
  refine System.Reach.follow (fun x e y hy => ?_) (.init ⟨_, ⟨1, rfl⟩, rfl⟩) h
  obtain ⟨r, hr, rfl⟩ := map_eq_some_iff.mp hy
  exact ⟨r.2, hr⟩

/-- `OPEN` with `OPEN4_CREATE` is answered with `NFS4ERR_ROFS` and not recorded: the
next request has a bad sequence number. -/
theorem create_keeps_seqid : ∃ x reply, (exchange plainConfig).Reach System.anyStep x ∧
      x.begun.find? sampleKey = some (1, openCompound 2 true) ∧
      x.before.find? 1 = some (some 1) ∧ x.answered.find? 1 = some reply ∧
      seqidAdvances reply.answer.1 = true ∧ ¬x.Busy sampleKey ∧
      x.recorded sampleKey = some 1 ∧ x.world.server.checkClient plainConfig sampleKey.1 = .ok ∧
      ∃ y z rep, [.issue (openCompound 3 false), .start 0 sampleKey].foldlM
          (after plainConfig) x = some y ∧
        y.exec plainConfig (.process 0) = some (z, some (2, rep)) ∧ rep.answer.1 = .badSeqid := by
  refine ⟨_, _, reach_firstOpen [.issue (openCompound 2 true), .start 0 sampleKey,
    .process 0] rfl, rfl, rfl, rfl, rfl, not_busy rfl, rfl, rfl, _, _, _, rfl, rfl, rfl⟩

/-- An `OPEN` that the deadline discards is answered with `NFS4ERR_DELAY` and not
recorded. -/
theorem discarded_open_keeps_seqid : ∃ x reply, (exchange plainConfig).Reach System.anyStep x ∧
      x.begun.find? sampleKey = some (1, openCompound 2 false) ∧
      x.before.find? 1 = some (some 1) ∧ x.answered.find? 1 = some reply ∧
      seqidAdvances reply.answer.1 = true ∧ ¬x.Busy sampleKey ∧ x.recorded sampleKey = some 1 := by
  refine ⟨_, _, reach_firstOpen [.issue (openCompound 2 false), .discard sampleKey] rfl,
    rfl, rfl, rfl, rfl, not_busy rfl, rfl⟩

end Cvmfs.Nfs4
