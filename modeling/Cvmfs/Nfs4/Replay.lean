import Cvmfs.Nfs4.Agreement

/-! # Requests that are sent again

A request may be sent any number of times. Where the server recognises the copies,
its state is one of a run in which nothing was sent twice, and all copies get the
same reply. `Repeats` names where it does: it does not recognise a copy of an `OPEN`
that is still looking up its file, copies of `OPEN_CONFIRM` and `OPEN_DOWNGRADE` fail
on the stateid that the original has advanced, and a replayed `OPEN` leaves the
current file handle at the directory. -/

namespace Cvmfs.Nfs4

open Lib Table System Option Exchange Server Compound Bool

/-! ## The reply of a copy -/

variable {cfg : Config} {w w' : World} {c : Compound} {thread : Nat} {oa : Option Answer}
  {opened : Table Other OwnerKey} {r : OpenOwner}

namespace Compound

/-- The checks before that of the sequence number still pass. -/
def Repeatable (cfg : Config) (s : Server) (c : Compound) : Prop :=
  match c.request with
  | .open args _ => s.checkClient cfg args.clientid = .ok
  | .openConfirm _ id _ | .openDowngrade _ id _ _ => ∃ st, s.findOpenState cfg id true = .ok st
  | .close .. => True

theorem process_no_handle (hplain : c.Plain) (hfh : c.fh.isSome = false)
    (h : w.exec cfg (c.event thread) = some (w', oa)) : oa = some (.nofilehandle, .empty) := by
  obtain ⟨q, fh, last⟩ := c
  cases q with
  | «open» args creds =>
    rw [event, World.exec] at h
    rw [hfh] at h
    split at h
    · cases h
    have hans : w.server.openBegin cfg args false = some (.nofilehandle, .empty) := by
      rw [openBegin]
      split
      · rfl
      split
      · rename_i n hclaim
        exact absurd hclaim (hplain.2 n)
      · rfl
    rw [hans] at h
    cases h
    rfl
  | openConfirm owner stateid n | openDowngrade owner stateid n shareAccess
  | close owner stateid n =>
    rw [event, World.exec] at h
    rw [hfh] at h
    cases h
    rfl

end Compound

namespace Server

variable {s : Server} {k : OwnerKey}

theorem sequenced_repeat {stateid op st process} (hf : s.findOpenState cfg stateid true = .ok st)
    (hk : st.owner = k) (hr : s.owners.find? k = some r) (hop : r.lastOp = op) :
    s.sequenced cfg stateid r.seqid op true process = (s, r.lastStatus, r.lastBody) := by
  rw [sequenced, if_neg (by decide), hf]
  dsimp only
  rw [hk, checkSeqid_again hr hop]

theorem openBegin_repeat {args} (hplain : Plain args true)
    (hc : s.checkClient cfg args.clientid = .ok) (hr : s.owners.find? args.key = some r)
    (hn : r.seqid = args.seqid) (hop : r.lastOp = .open) :
    s.openBegin cfg args true = some (r.lastStatus, r.lastBody) := by
  rw [openBegin, if_neg fun h => Bool.noConfusion (hplain.1 h)]
  split
  · rename_i n hclaim
    exact absurd hclaim (hplain.2 n)
  · rw [if_neg (by decide), hc, ← hn, checkSeqid_again hr hop]

theorem Ledger.opClose_repeat {stateid} (h : Ledger s opened)
    (ho : opened.find? stateid.other = some k) (hr : s.owners.find? k = some r)
    (hop : r.lastOp = .close) (hb : r.lastBody.other? = some stateid.other)
    (hboot : stateid.other.boot = cfg.boot) (hgone : s.openStates.find? stateid.other = none) :
    s.opClose cfg stateid r.seqid true = (s, r.lastStatus, r.lastBody) := by
  have hfind : s.findOpenState cfg stateid true = .error .badStateid := by
    rw [findOpenState, if_neg (not_not.mpr hboot), hgone]
  have hreply : s.closedReply stateid.other r.seqid = some (r.lastStatus, r.lastBody) := by
    rw [closedReply]
    cases he : s.owners.entries.find? fun e =>
        decide (e.2.lastOp = .close ∧ e.2.seqid = r.seqid ∧
          e.2.lastBody.other? = some stateid.other) with
    | none =>
      have := List.find?_eq_none.mp he _ (find?_eq_some.mp hr)
      exact absurd (decide_eq_true ⟨hop, rfl, hb⟩) this
    | some e =>
      -- a record with this body is that of the owner of the stateid
      have hp := List.find?_some he
      rw [decide_eq_true_eq] at hp
      have hre := find?_of_mem (List.mem_of_find?_eq_some he)
      have hk := h.closed hre hp.1 hp.2.2
      rw [ho] at hk
      cases hk
      rw [hr] at hre
      cases hre
      rfl
  have hreplay : s.replayedClose cfg stateid r.seqid true = some (r.lastStatus, r.lastBody) := by
    unfold replayedClose
    rw [hfind]
    exact hreply
  rw [opClose, hreplay]

end Server

namespace Compound

theorem process_repeat (hl : w.server.Ledger opened) (hplain : c.Plain)
    (hid : ∀ {id}, c.request.stateid? = some id → opened.find? id.other = some c.request.key)
    (hfh : c.fh.isSome = true) (hr : w.server.owners.find? c.request.key = some r)
    (hn : r.seqid = c.request.seqid) (hop : r.lastOp = c.request.op)
    (hclose : ∀ {id}, c.request.op = .close → c.request.stateid? = some id →
      r.lastBody.other? = some id.other ∧ id.other.boot = cfg.boot ∧
        w.server.openStates.find? id.other = none)
    (hrep : c.Repeatable cfg w.server) (h : w.exec cfg (c.event thread) = some (w', oa)) :
    oa = some (r.lastStatus, r.lastBody) := by
  obtain ⟨q, fh, last⟩ := c
  cases q with
  | «open» args creds =>
    have hplain : Server.Plain args fh.isSome := hplain
    rw [hfh] at hplain
    rw [event, World.exec] at h
    rw [hfh, openBegin_repeat hplain hrep hr hn hop] at h
    split at h <;> cases h
    rfl
  | openConfirm owner stateid n =>
    obtain ⟨st, hf⟩ := hrep
    have hk := hl.owned (findOpenState_eq_ok hf) (hid rfl)
    subst hn
    have hop : r.lastOp = .openConfirm := hop
    rw [event, World.exec] at h
    rw [hfh, opOpenConfirm, sequenced_repeat hf hk hr hop] at h
    cases h
    rfl
  | openDowngrade owner stateid n shareAccess =>
    obtain ⟨st, hf⟩ := hrep
    have hk := hl.owned (findOpenState_eq_ok hf) (hid rfl)
    subst hn
    have hop : r.lastOp = .openDowngrade := hop
    rw [event, World.exec] at h
    rw [hfh, opOpenDowngrade, sequenced_repeat hf hk hr hop] at h
    cases h
    rfl
  | close owner stateid n =>
    obtain ⟨hb, hboot, hgone⟩ := hclose rfl rfl
    subst hn
    rw [event, World.exec] at h
    dsimp only at h
    rw [hfh, hl.opClose_repeat (hid rfl) hr hop hb hboot hgone] at h
    cases h
    rfl

end Compound

/-! ## The cache of replies -/

namespace Exchange

variable {x y : Exchange}

/-- What is kept so that copies are recognised. -/
structure Remembers (cfg : Config) (x : Exchange) : Prop where
  loud : ∀ {t copy}, x.copies.find? t = some copy → copy.silent = false
  handle : ∀ {t p copy}, x.world.opens.find? t = some p → x.copies.find? t = some copy →
    copy.compound.fh.isSome = true
  gone : ∀ {k r o}, x.world.server.owners.find? k = some r → r.lastOp = .close →
    r.lastBody.other? = some o → o.boot = cfg.boot ∧ x.world.server.openStates.find? o = none
  reply : ∀ {k i c r}, x.begun.find? k = some (i, c) → ¬x.Busy k →
    x.world.server.owners.find? k = some r → r.seqid = c.request.seqid →
    c.fh.isSome = true ∧
    (∃ fh, x.answered.find? i = some (c.reply (r.lastStatus, r.lastBody) fh) ∧
      (c.request.op = .open ∨ fh = c.fh)) ∧
    (c.request.op = .close → ∃ id, c.request.stateid? = some id ∧ r.lastBody.other? = some id.other)

theorem Remembers.started (h : Started w) : Remembers cfg { world := w } := by
  obtain ⟨g, rfl⟩ := h
  refine ⟨?_, ?_, ?_, ?_⟩ <;> intros <;> contradiction

theorem Remembers.resent {copies} (h : x.Remembers cfg) (hs : x.Sound)
    (hc : ∀ {t copy}, copy.first = true →
      (copies.find? t = some copy ↔ x.copies.find? t = some copy))
    (hloud : ∀ {t copy}, copies.find? t = some copy → copy.silent = false) :
    Remembers cfg { x with copies := copies } where
  loud := hloud
  handle hp ht := by
    obtain ⟨copy', ht', hf, -⟩ := hs.opens hp
    have := (hc hf).mpr ht'
    rw [show copies.find? _ = _ from ht] at this
    cases this
    exact h.handle hp ht'
  gone := h.gone
  reply hb hn := by
    refine h.reply hb fun ⟨t, copy, ht, hf, hk⟩ => hn ⟨t, copy, (hc hf).mpr ht, hf, hk⟩

theorem Remembers.first {i c} (h : x.Remembers cfg) (hs : x.Sound)
    (hfree : x.copies.find? thread = none) :
    Remembers cfg { x with
      begun := x.begun.put c.request.key (i, c)
      before := x.before.put i (x.recorded c.request.key)
      copies := x.copies.put thread { serial := i, compound := c, first := true } } where
  loud ht := by
    rcases of_put ht with ⟨rfl, rfl⟩ | ⟨-, ht⟩
    · rfl
    · exact h.loud ht
  handle hp ht := by
    rcases of_put ht with ⟨rfl, rfl⟩ | ⟨-, ht⟩
    · obtain ⟨copy', ht', -⟩ := hs.opens hp
      rw [hfree] at ht'
      cases ht'
    · exact h.handle hp ht
  gone := h.gone
  reply hb hn := by
    rcases of_put hb with ⟨rfl, -⟩ | ⟨-, hb⟩
    · exact absurd ⟨thread, _, find?_put_self, rfl, rfl⟩ hn
    · exact h.reply hb fun hb' => hn (hb'.of_put hfree rfl)

theorem Remembers.server (h : x.Remembers cfg) (hw : x.world.server.Forgets w.server)
    (hopens : ∀ {t p copy}, w.opens.find? t = some p → x.copies.find? t = some copy →
      copy.compound.fh.isSome = true) :
    Remembers cfg { x with world := w } := by
  refine ⟨h.loud, hopens, fun {k r o} hr hop hb => ?_, fun hb hn hr => h.reply hb hn (hw.row hr)⟩
  obtain ⟨hboot, hgone⟩ := h.gone (hw.row hr) hop hb
  refine ⟨hboot, ?_⟩
  by_contra hne
  obtain ⟨st, hst⟩ := ne_none_iff_exists'.mp hne
  have := (hw.opens hst).1
  rw [hgone] at this
  cases this

variable {a : Answer} {r : Option (Nat × Reply)}

theorem Remembers.complete {copy fh} (h : x.Remembers cfg) (hs : x.Sound)
    (hcopy : x.copies.find? thread = some copy) (hfirst : copy.first = true)
    (hhandled : x.world.server.Handled cfg copy.compound.request a w.server)
    (hopens : ∀ {t p}, w.opens.find? t = some p → x.world.opens.find? t = some p)
    (hhandle : seqidAdvances a.1 = true → copy.compound.fh.isSome = true)
    (hfh : copy.compound.request.op = .open ∨ fh = copy.compound.fh)
    (hc : { x with world := w }.complete thread copy (copy.compound.reply a fh) = some (y, r)) :
    y.Remembers cfg ∧ r = some (copy.serial, copy.compound.reply a fh) ∧ ∀ j, y.answered.find? j =
        if j = copy.serial then some (copy.compound.reply a fh) else x.answered.find? j := by
  have hsilent := h.loud hcopy
  have hbegun := hs.copies hcopy hfirst
  obtain ⟨rfl, rfl⟩ := complete_of_none hc hsilent (hs.waiting hcopy hfirst hsilent).1
  refine ⟨⟨fun ht => h.loud (of_erase ht).2,
    fun hp ht => h.handle (hopens hp) (of_erase ht).2, fun {k r o} hr hop hb => ?_,
    fun {k i c r} hb hn hr hseq => ?_⟩, rfl, fun j => find?_put ..⟩
  · rcases hhandled.refused_or with ⟨he, -⟩ | he
    · rw [he] at hr ⊢
      exact h.gone hr hop hb
    rw [he.owners] at hr
    rcases of_put hr with ⟨rfl, rfl⟩ | ⟨-, hr⟩
    · obtain ⟨id, -, ho, hnone, hboot⟩ := he.closed hop
      rw [show a.2.other? = some o from hb] at ho
      cases ho
      exact ⟨hboot, hnone⟩
    obtain ⟨hboot, hgone⟩ := h.gone hr hop hb
    refine ⟨hboot, ?_⟩
    -- stateids given out later have other numbers
    by_contra hne
    obtain ⟨st, hst⟩ := ne_none_iff_exists'.mp hne
    rcases he.opens hst with ⟨st₀, hst₀, -⟩ | ⟨-, hge, -⟩
    · rw [hgone] at hst₀
      cases hst₀
    · exact absurd (hs.ledger.openedNumbers (hs.ledger.closed hr hop hb)) (Nat.not_lt.mpr hge)
  by_cases hk : k = copy.compound.request.key
  · subst hk
    rw [hbegun] at hb
    cases hb
    rcases hhandled.refused_or with ⟨he, -⟩ | he
    · rw [he] at hr
      exact absurd ((hs.pending hcopy hfirst hr).symm.trans hseq.symm) (inc32_ne _)
    rw [he.owners, find?_put, if_pos rfl] at hr
    cases hr
    refine ⟨hhandle he.advances, ⟨fh, find?_put_self, hfh⟩, fun hop => ?_⟩
    obtain ⟨id, hid, ho, -⟩ := he.closed hop
    exact ⟨id, hid, ho⟩
  · have hidle : ¬x.Busy k := fun hb' => hn (hb'.of_erase hcopy hk rfl)
    rw [hhandled.owners_other hk] at hr
    obtain ⟨hhas, ⟨fh', hans, hop⟩, hclose⟩ := h.reply hb hidle hr hseq
    refine ⟨hhas, ⟨fh', (find?_put ..).trans ((if_neg ?_).trans hans), hop⟩, hclose⟩
    rintro rfl
    exact hk (hs.begunDistinct hb hbegun)

/-! ## Runs without copies -/

/-- The state without the copies that were sent again. -/
def withoutResends (x : Exchange) : Exchange :=
  { x with copies := x.copies.select fun _ copy => copy.first }

/-- Nothing is started a second time. -/
def Once (x : Exchange) : Action → Prop
  | .start _ owner => ∀ i c, x.latest.find? owner = some (i, c) → x.before.find? i = none
  | _ => True

/-- Where the server recognises a copy of a request. -/
def Repeats (cfg : Config) (x : Exchange) : Action → Prop
  | .process thread =>
    ∀ copy, x.copies.find? thread = some copy → copy.first = false →
      copy.compound.Repeatable cfg x.world.server ∧
        -- the replay of a successful `OPEN` does not set the current file handle
        (copy.compound.request.op = .open → copy.compound.last = true ∨
          ∀ reply, x.answered.find? copy.serial = some reply → reply.answer.1 ≠ .ok)
  | .expire _ => False
  | _ => True

theorem find?_withoutResends {copy} (h : x.copies.find? thread = some copy) (hf : copy.first = true) :
    x.withoutResends.copies.find? thread = some copy := by
  change (x.copies.select _).find? thread = _
  rw [find?_select, h]
  simp [hf]

theorem receive_withoutResends (i : Nat) (c : Compound) (reply : Reply) :
    (x.receive i c reply).withoutResends = x.withoutResends.receive i c reply := by
  have hans : x.withoutResends.answered = x.answered := rfl
  rw [receive, receive, hans]
  split <;> rfl

theorem complete_withoutResends {copy reply} (h : x.complete thread copy reply = some (y, r)) :
    x.withoutResends.complete thread copy reply = some (y.withoutResends, r) := by
  have herase : { x with copies := x.copies.erase thread }.withoutResends =
      { x.withoutResends with copies := x.withoutResends.copies.erase thread } := by
    simp only [withoutResends, select_erase]
  rw [complete] at h ⊢
  rw [← herase]
  split at h
  · rename_i hs
    cases h
    rw [if_pos hs]
  rename_i hs
  rw [deliver] at h
  cases h
  rw [if_neg hs, deliver, ← receive_withoutResends]

/-! A step of the first copy does not depend on the others. -/

section

variable {copy : Copy} (hcopy : x.copies.find? thread = some copy)
include hcopy

theorem exec_process (hw : x.world.exec cfg (copy.compound.event thread) = some (w, some a)) :
    x.exec cfg (.process thread) = { x with world := w }.complete thread copy
      (copy.compound.reply a copy.compound.fh) := by
  rw [exec, hcopy]
  dsimp only
  rw [hw]

theorem exec_process_open (hw : x.world.exec cfg (copy.compound.event thread) = some (w, none)) :
    x.exec cfg (.process thread) = some ({ x with world := w }, none) := by
  rw [exec, hcopy]
  dsimp only
  rw [hw]

theorem exec_finish (hw : x.world.exec cfg (.openFinish thread) = some (w, some a)) :
    x.exec cfg (.finish thread) = { x with world := w }.complete thread copy
      (copy.compound.reply a (x.targetOf thread copy.compound)) := by
  rw [exec, hcopy, hw]

end

theorem once_start {owner} (he : x.exec cfg (.start thread owner) = some (y, r)) :
    y.withoutResends = x.withoutResends ∨ (x.withoutResends.Once (.start thread owner) ∧
      x.withoutResends.exec cfg (.start thread owner) = some (y.withoutResends, r)) := by
  obtain ⟨i, c, hl, hfree, rfl, ⟨hb, rfl⟩ | ⟨-, rfl⟩⟩ := of_start he
  · have hl' : x.withoutResends.latest.find? owner = some (i, c) := hl
    have hfree' : x.withoutResends.copies.contains thread = false := by
      change (x.copies.select _).contains thread = false
      rw [contains, find?_select, hfree]
      rfl
    have hcon : x.withoutResends.before.contains i = false := by
      change x.before.contains i = false
      rw [contains, hb]
      rfl
    refine .inr ⟨fun i' c' hi => ?_, ?_⟩
    · rw [hl'] at hi
      cases hi
      exact hb
    rw [exec, hl']
    dsimp only
    rw [hfree', start, hcon]
    simp only [withoutResends]
    rw [select_put_of_true rfl]
    rfl
  · left
    simp only [withoutResends]
    rw [select_put_of_false rfl hfree]

/-- A step is one of a run without copies, or such a run does not see it. -/
theorem Sound.once {e} (h : x.Sound) (hg : x.Paced cfg e) (hg' : x.Repeats cfg e)
    (he : x.exec cfg e = some (y, r)) :
    y.withoutResends = x.withoutResends ∨ (x.withoutResends.Once e ∧
      x.withoutResends.exec cfg e = some (y.withoutResends, r)) := by
  cases e with
  | issue c =>
    obtain ⟨hmay, rfl, rfl⟩ := of_issue he
    refine .inr ⟨trivial, ?_⟩
    rw [Exchange.exec, if_pos (show x.withoutResends.mayIssue c = true from hmay)]
    rfl
  | start thread owner => exact once_start he
  | process thread =>
    obtain ⟨copy, w, hcopy, hcase⟩ := of_process he
    have hg := hg copy hcopy
    split at hg
    · rename_i hfirst
      refine .inr ⟨trivial, ?_⟩
      rcases hcase with ⟨a, hw, hc⟩ | ⟨hw, rfl, rfl⟩
      · rw [exec_process (find?_withoutResends hcopy hfirst) hw]
        exact complete_withoutResends hc
      · rw [exec_process_open (find?_withoutResends hcopy hfirst) hw]
        rfl
    rename_i hfirst
    rcases hcase with ⟨a, hw, hc⟩ | ⟨hw, -⟩
    · obtain ⟨rfl, ⟨reply, hans⟩, -⟩ := h.processAgain hg.1 hg.2.1 hg.2.2 hw
      left
      have herase : { x with copies := x.copies.erase thread }.withoutResends =
          x.withoutResends := by
        simp only [withoutResends]
        rw [select_erase_of_false hcopy (eq_false_iff.mpr hfirst)]
      rw [Exchange.complete] at hc
      split at hc
      · cases hc
        exact herase
      · rw [deliver, receive_of_answered (by exact hans)] at hc
        cases hc
        exact herase
    · obtain ⟨-, -, a', ha, -⟩ := h.processAgain hg.1 hg.2.1 hg.2.2 hw
      cases ha
  | lookup thread target =>
    refine .inr ⟨trivial, ?_⟩
    obtain ⟨hends, rfl, args, creds, hp, rfl⟩ := of_lookup he
    rw [Exchange.exec, if_pos hends, World.exec,
      show x.withoutResends.world.opens.find? thread = _ from hp]
    rfl
  | finish thread =>
    refine .inr ⟨trivial, ?_⟩
    obtain ⟨copy, args, creds, target, hcopy, hp, hw, hc⟩ := of_finish he
    obtain ⟨copy', hcopy', hfirst, -⟩ := h.opens hp
    rw [hcopy] at hcopy'
    cases hcopy'
    rw [exec_finish (find?_withoutResends hcopy hfirst) hw]
    exact complete_withoutResends hc
  | discard owner => exact hg.elim
  | expire thread => exact hg'.elim
  | world event =>
    refine .inr ⟨trivial, ?_⟩
    obtain ⟨hseq, rfl, w, oa, hw, rfl⟩ := of_world he
    rw [Exchange.exec, hseq, show x.withoutResends.world.exec cfg event = _ from hw]
    rfl

/-! ## Every copy gets the same reply -/

structure Extends (x y : Exchange) (r : Option (Nat × Reply)) : Prop where
  old : ∀ {i reply}, x.answered.find? i = some reply → y.answered.find? i = some reply
  new : ∀ {i reply}, r = some (i, reply) → y.answered.find? i = some reply

theorem Extends.silent (h : y.answered = x.answered) : Extends x y none :=
  ⟨fun hi => h ▸ hi, fun hr => by cases hr⟩

theorem Extends.added {i reply}
    (h : ∀ j, y.answered.find? j = if j = i then some reply else x.answered.find? j)
    (hi : x.answered.find? i = none) : Extends x y (some (i, reply)) := by
  refine ⟨fun {j rep} hj => ?_, fun {j rep} hj => ?_⟩
  · rw [h, if_neg]
    · exact hj
    · rintro rfl
      rw [hi] at hj
      cases hj
  · cases hj
    rw [h, if_pos rfl]

theorem Remembers.again {copy} (h : x.Remembers cfg) (hs : x.Sound)
    (hcopy : x.copies.find? thread = some copy) (hfirst : ¬copy.first = true)
    (hidle : ¬x.Busy copy.compound.request.key)
    (hbegun : x.begun.find? copy.compound.request.key = some (copy.serial, copy.compound))
    (hrec : x.recorded copy.compound.request.key = some copy.compound.request.seqid)
    (hg : x.Repeats cfg (.process thread))
    (hw : x.world.exec cfg (copy.compound.event thread) = some (w, some a)) :
    x.answered.find? copy.serial = some (copy.compound.reply a copy.compound.fh) := by
  obtain ⟨r, hr, hn⟩ := map_eq_some_iff.mp hrec
  obtain ⟨hrep, hlast⟩ := hg copy hcopy (eq_false_iff.mpr hfirst)
  obtain ⟨hfh, ⟨fh, hans, hop⟩, hclose⟩ := h.reply hbegun hidle hr hn
  have hsent := hs.begun hbegun
  have hlastOp := hs.cached hbegun hidle hr hn
  have ha := process_repeat hs.ledger hsent.plain hsent.stateid hfh hr hn hlastOp
    (fun {id} hc hid => by
      obtain ⟨id', hid', hb⟩ := hclose hc
      rw [hid] at hid'
      cases hid'
      exact ⟨hb, h.gone hr (hlastOp.trans hc) hb⟩) hrep hw
  cases ha
  rw [hans]
  rcases hop with hop | rfl
  · have hnone : (copy.compound.last || decide (r.lastStatus ≠ .ok)) = true := by
      rcases hlast hop with hl | hst
      · rw [hl, Bool.true_or]
      · rw [Bool.or_eq_true, decide_eq_true_eq]
        exact .inr (hst _ hans)
    simp only [Compound.reply, hnone, if_true]
  · rfl

theorem Remembers.process (h : x.Remembers cfg) (hs : x.Sound) (hg : x.Paced cfg (.process thread))
    (hg' : x.Repeats cfg (.process thread)) (he : x.exec cfg (.process thread) = some (y, r)) :
    y.Remembers cfg ∧ Extends x y r := by
  obtain ⟨copy, w, hcopy, hcase⟩ := of_process he
  have hg := hg copy hcopy
  split at hg
  · rename_i hfirst
    have hsent := hs.begun (hs.copies hcopy hfirst)
    have hnext := fun r hr => hs.pending (r := r) hcopy hfirst hr
    rcases hcase with ⟨a, hw, hc⟩ | ⟨hw, rfl, rfl⟩
    · rcases process_next hs.ledger hsent.plain hg.1 hsent.stateid hnext hw with
        ⟨a', ha, hh, hopens⟩ | ⟨hnone, -⟩
      · cases ha
        have hhandle : seqidAdvances a.1 = true → copy.compound.fh.isSome = true := by
          intro hadv
          by_contra hno
          cases process_no_handle hsent.plain (eq_false_iff.mpr hno) hw
          cases hadv
        obtain ⟨hy, rfl, hans⟩ := h.complete hs hcopy hfirst hh (fun hp => hopens ▸ hp) hhandle
          (.inr rfl) hc
        exact ⟨hy, .added hans (hs.waiting hcopy hfirst (h.loud hcopy)).1⟩
      · cases hnone
    rcases process_next hs.ledger hsent.plain hg.1 hsent.stateid hnext hw with
      ⟨a', ha, -⟩ | ⟨-, -, args, creds, hq, rfl⟩
    · cases ha
    refine ⟨h.server (Forgets.refl _) fun {t p copy'} hp ht => ?_, .silent rfl⟩
    rcases of_put hp with ⟨rfl, rfl⟩ | ⟨-, hp⟩
    · rw [hcopy] at ht
      cases ht
      by_contra hno
      cases process_no_handle hsent.plain (eq_false_iff.mpr hno) hw
    · exact h.handle hp ht
  · rename_i hfirst
    rcases hcase with ⟨a, hw, hc⟩ | ⟨hw, -⟩
    · have hans := h.again hs hcopy hfirst hg.1 hg.2.1 hg.2.2 hg' hw
      obtain ⟨rfl, -, -⟩ := hs.processAgain hg.1 hg.2.1 hg.2.2 hw
      rw [Exchange.complete, if_neg (by rw [h.loud hcopy]; exact false_ne_true), deliver,
        receive_of_answered (by exact hans)] at hc
      cases hc
      refine ⟨h.resent hs (find?_erase_resend hcopy hfirst) fun ht => h.loud (of_erase ht).2,
        id, fun hr => ?_⟩
      cases hr
      exact hans
    · obtain ⟨-, -, a', ha, -⟩ := hs.processAgain hg.1 hg.2.1 hg.2.2 hw
      cases ha

theorem Remembers.exec {e} (h : x.Remembers cfg) (hs : x.Sound) (hg : x.Paced cfg e)
    (hg' : x.Repeats cfg e) (he : x.exec cfg e = some (y, r)) :
    y.Remembers cfg ∧ Extends x y r := by
  cases e with
  | issue c =>
    obtain ⟨-, rfl, rfl⟩ := of_issue he
    exact ⟨{ h with }, .silent rfl⟩
  | start thread owner =>
    obtain ⟨i, c, hl, hfree, rfl, ⟨hb, rfl⟩ | ⟨-, rfl⟩⟩ := of_start he
    · exact ⟨h.first hs hfree, .silent rfl⟩
    refine ⟨h.resent hs (find?_put_resend (fun old hold => ?_) false_ne_true)
      (fun {t copy} ht => ?_), .silent rfl⟩
    · rw [hfree] at hold
      cases hold
    · rcases of_put ht with ⟨rfl, rfl⟩ | ⟨-, ht⟩
      · rfl
      · exact h.loud ht
  | process thread => exact h.process hs hg hg' he
  | lookup thread target =>
    obtain ⟨-, rfl, args, creds, hp, rfl⟩ := of_lookup he
    refine ⟨h.server (Forgets.refl _) fun {t p copy} hp' ht => ?_, .silent rfl⟩
    rcases of_put hp' with ⟨rfl, rfl⟩ | ⟨-, hp'⟩
    · exact h.handle hp ht
    · exact h.handle hp' ht
  | finish thread =>
    obtain ⟨copy, args, creds, target, hcopy, hp, -, hc⟩ := of_finish he
    obtain ⟨copy', hcopy', -, hq, -⟩ := hs.opens hp
    rw [hcopy] at hcopy'
    cases hcopy'
    obtain ⟨hfirst, hh⟩ := hs.finish_handled hg.1 hcopy hp
    obtain ⟨hy, rfl, hans⟩ := h.complete hs hcopy hfirst hh (fun hp => (of_erase hp).2)
      (fun _ => h.handle hp hcopy) (.inl (by rw [hq]; rfl)) hc
    exact ⟨hy, .added hans (hs.waiting hcopy hfirst (h.loud hcopy)).1⟩
  | discard owner => exact hg.elim
  | expire thread => exact hg'.elim
  | world event =>
    obtain ⟨hseq, rfl, w, oa, hexec, rfl⟩ := of_world he
    obtain ⟨hw, hopens⟩ := World.exec_forgets hseq hexec
    exact ⟨h.server hw fun hp ht => h.handle (hopens ▸ hp) ht, .silent rfl⟩

end Exchange

/-! ## Runs -/

/-- Clients and server with all replies that were given, under the numbers of the
requests. -/
structure Dialogue where
  state : Exchange
  replies : List (Nat × Reply) := []

def dialogue (cfg : Config) : System Dialogue Action where
  init d := (exchange cfg).init d.state ∧ d.replies = []
  step d e d' := ∃ r, d.state.exec cfg e = some (d'.state, r) ∧ d'.replies = r.toList ++ d.replies

/-- Steps that are paced and repeat a request only where it is recognised. -/
def Dialogue.Orderly (cfg : Config) (d : Dialogue) (e : Action) : Prop :=
  d.state.Paced cfg e ∧ d.state.Repeats cfg e

/-- The invariant of orderly runs. -/
structure Dialogue.Faithful (cfg : Config) (d : Dialogue) : Prop where
  sound : d.state.Sound
  remembers : d.state.Remembers cfg
  once : (exchange cfg).Reach Once d.state.withoutResends
  replies : ∀ {i reply}, (i, reply) ∈ d.replies → d.state.answered.find? i = some reply

variable {d : Dialogue} {e : Action}

theorem Dialogue.Faithful.step {d'} (h : d.Faithful cfg) (hg : d.Orderly cfg e)
    (hs : (dialogue cfg).step d e d') : d'.Faithful cfg := by
  obtain ⟨r, he, hr⟩ := hs
  obtain ⟨hrem, hext⟩ := h.remembers.exec h.sound hg.1 hg.2 he
  refine ⟨(h.sound.exec hg.1 he).1, hrem, ?_, fun {i reply} hi => ?_⟩
  · rcases h.sound.once hg.1 hg.2 he with hsame | ⟨honce, hexec⟩
    · rw [hsame]
      exact h.once
    · exact h.once.step honce ⟨r, hexec⟩
  · rw [hr] at hi
    rcases List.mem_append.mp hi with hi | hi
    · exact hext.new (mem_toList.mp hi)
    · exact hext.old (h.replies hi)

variable {guard : Dialogue → Action → Prop}

theorem dialogue_exec {y r} (h : (dialogue cfg).Reach guard d)
    (hg : guard d e) (he : d.state.exec cfg e = some (y, r)) :
    (dialogue cfg).Reach guard ⟨y, r.toList ++ d.replies⟩ :=
  h.step hg ⟨r, he, rfl⟩

theorem not_busy_all {x : Exchange} {k : OwnerKey}
    (h : ∀ e ∈ x.copies.entries, e.2.first = false) : ¬x.Busy k := by
  rintro ⟨t, copy, ht, hf, -⟩
  have := h _ (find?_eq_some.mp ht)
  rw [hf] at this
  cases this

def Dialogue.after (cfg : Config) (d : Dialogue) (e : Action) : Option Dialogue :=
  (d.state.exec cfg e).map fun r => ⟨r.1, r.2.toList ++ d.replies⟩

theorem dialogue_after {d'} (h : (dialogue cfg).Reach guard d)
    (hg : guard d e) (he : d.after cfg e = some d') : (dialogue cfg).Reach guard d' := by
  obtain ⟨r, hr, rfl⟩ := map_eq_some_iff.mp he
  exact h.step hg ⟨r.2, hr, rfl⟩

def sampleDialogue (es : List Action) : Dialogue :=
  (es.foldlM (Dialogue.after plainConfig) { state := { world := { generation := 1 } } }).getD
    { state := { world := { generation := 1 } } }

def sampleResent : Dialogue := sampleDialogue (firstOpen ++ [.start 1 sampleKey])

theorem reach_dialogue (es : List Action)
    (h : es.foldlM (Dialogue.after plainConfig) { state := { world := { generation := 1 } } } =
      some d) :
    (dialogue plainConfig).Reach anyStep d := by
  refine Reach.follow (fun d e d' hd => ?_) (.init ⟨⟨_, ⟨1, rfl⟩, rfl⟩, rfl⟩) h
  obtain ⟨r, hr, rfl⟩ := map_eq_some_iff.mp hd
  exact ⟨r.2, hr, rfl⟩

/-- The operations after a replayed `OPEN` work on the directory. -/
theorem replayed_open_keeps_directory : ∃ d reply reply', (dialogue plainConfig).Reach anyStep d ∧
      d.replies = [(0, reply'), (0, reply)] ∧ reply.fh = some sampleFile.1 ∧
      reply'.fh = some ⟨.object, 1, 1, 0⟩ ∧ reply.answer = reply'.answer := by
  refine ⟨_, _, _, reach_dialogue
    [.world (.setclientid [1] [65] false 0), .world (.setclientidConfirm ⟨7, 1⟩ (2 ^ 33)),
      .issue { openCompound 1 false with last := false }, .start 0 sampleKey, .process 0,
      .lookup 0 (.ok sampleFile), .finish 0, .start 1 sampleKey, .process 1] rfl, rfl, ?_, ?_, ?_⟩
  · rfl
  · rfl
  · rfl

/-- A second `OPEN_CONFIRM` fails on the stateid that the first one has advanced. -/
theorem resent_confirm_fails : ∃ d reply reply', (dialogue plainConfig).Reach anyStep d ∧
      (1, reply) ∈ d.replies ∧ (1, reply') ∈ d.replies ∧ reply.answer.1 = .ok ∧
      reply'.answer.1 = .oldStateid :=
  ⟨_, _, _, reach_dialogue
    (firstOpen ++ [.issue ⟨.openConfirm sampleKey ⟨1, 7, 1⟩ 2, some sampleFile.1, true⟩,
      .start 0 sampleKey, .process 0, .start 0 sampleKey, .process 0]) rfl,
    List.mem_cons_of_mem _ (.head _), .head _, rfl, rfl⟩

end Cvmfs.Nfs4
