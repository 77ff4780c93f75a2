import Cvmfs.Quota.Server

/-! # What a clean-up does

`DoCleanup` walks through the rows in the order of their access. The walk is
described by the rows that it keeps: the blocked ones and those behind the last
evicted one. The gauge is the sum of their sizes at any time, and the batched
`DELETE` at the end removes exactly the others. -/

namespace Cvmfs.Quota

open Lib Table Option Pass

/-- No two rows have the same access sequence number. -/
def Distinct (t : Table Hash Entry) : Prop :=
  ∀ h h' e e', t.find? h = some e → t.find? h' = some e' → e.acseq = e'.acseq → h = h'

/-- The row is behind the last evicted one. -/
def Behind (maxAcseq : Option AcSeq) (e : Entry) : Prop := ∀ a, maxAcseq = some a → a < e.acseq

instance (maxAcseq : Option AcSeq) (e : Entry) : Decidable (Behind maxAcseq e) :=
  match maxAcseq with
  | none => .isTrue fun _ h => by cases h
  | some a => decidable_of_iff (a < e.acseq) ⟨fun h b hb => some.inj hb ▸ h, fun h => h a rfl⟩

@[simp] theorem behind_none (e : Entry) : Behind none e := fun _ h => by cases h

@[simp] theorem behind_some (a : AcSeq) (e : Entry) : Behind (some a) e ↔ a < e.acseq :=
  ⟨fun h => h a rfl, fun h _ hb => some.inj hb ▸ h⟩

/-- The row can still be evicted. -/
def Evictable (maxAcseq : Option AcSeq) (e : Entry) : Prop := e.flag ≠ .blocked ∧ Behind maxAcseq e

instance (maxAcseq : Option AcSeq) (e : Entry) : Decidable (Evictable maxAcseq e) :=
  inferInstanceAs (Decidable (_ ∧ _))

/-- The row is not evicted so far. -/
def Kept (maxAcseq : Option AcSeq) (e : Entry) : Prop := e.flag = .blocked ∨ Behind maxAcseq e

instance (maxAcseq : Option AcSeq) (e : Entry) : Decidable (Kept maxAcseq e) :=
  inferInstanceAs (Decidable (_ ∨ _))

/-- The candidates that are left of a batch: the first evictable rows. -/
structure Batch (p : Pass) (cs : List EvictCandidate) : Prop where
  sorted : cs.Pairwise fun c d => c.acseq < d.acseq
  live : ∀ {c}, c ∈ cs → ∃ e, p.table.find? c.hash = some e ∧ e.size = c.size ∧
    e.acseq = c.acseq ∧ Evictable p.maxAcseq e
  first : ∀ {h e}, p.table.find? h = some e → Evictable p.maxAcseq e →
    (∃ c ∈ cs, c.hash = h) ∨ ∀ c ∈ cs, c.acseq < e.acseq

theorem mem_candidates {t : Table Hash Entry} {maxAcseq : Option AcSeq} {c : EvictCandidate} :
    c ∈ (t.entries.filter fun e =>
        decide (e.2.flag ≠ .blocked) && maxAcseq.all fun a => decide (a < e.2.acseq)).map
          (fun e => (⟨e.1, e.2.size, e.2.acseq⟩ : EvictCandidate)) ↔
      ∃ e, t.find? c.hash = some e ∧ e.size = c.size ∧ e.acseq = c.acseq ∧
        Evictable maxAcseq e := by
  have hall : ∀ e : Entry, (maxAcseq.all fun a => decide (a < e.acseq)) = true ↔
      Behind maxAcseq e := by
    intro e
    cases maxAcseq <;> simp
  simp only [List.mem_map, List.mem_filter, Bool.and_eq_true, decide_eq_true_eq, hall]
  constructor
  · rintro ⟨⟨h, e⟩, ⟨hmem, hev⟩, rfl⟩
    exact ⟨e, find?_of_mem hmem, rfl, rfl, hev⟩
  rintro ⟨e, hfind, hsize, hacseq, hev⟩
  refine ⟨(c.hash, e), ⟨find?_eq_some.mp hfind, hev⟩, ?_⟩
  cases c
  simp_all

theorem lruCandidates_batch {p : Pass} (hd : Distinct p.table) :
    Batch p (lruCandidates p.table p.maxAcseq) := by
  have hmem := fun {c} => @mem_candidates p.table p.maxAcseq c
  rw [lruCandidates]
  generalize hl : ((p.table.entries.filter fun e =>
    decide (e.2.flag ≠ .blocked) && p.maxAcseq.all fun a => decide (a < e.2.acseq)).map
      fun e => (⟨e.1, e.2.size, e.2.acseq⟩ : EvictCandidate)) = l at hmem
  have hnd : (l.map EvictCandidate.hash).Nodup := by
    rw [← hl, List.map_map]
    exact p.table.nodup.sublist (List.filter_sublist.map Prod.fst)
  have hstrict : (l.insertionSort fun c d => c.acseq ≤ d.acseq).Pairwise
      fun c d => c.acseq < d.acseq := by
    have hle : (l.insertionSort fun c d => c.acseq ≤ d.acseq).Pairwise
        fun c d => c.acseq ≤ d.acseq := List.pairwise_insertionSort _ l
    have hnd' : (l.insertionSort fun c d => c.acseq ≤ d.acseq).Pairwise
        fun c d => c.hash ≠ d.hash := by
      rw [← List.pairwise_map (f := EvictCandidate.hash) (R := (· ≠ ·))]
      exact ((List.perm_insertionSort _ l).map _).nodup_iff.mpr hnd
    refine (hle.and hnd').imp_of_mem fun {c d} hc hdm ⟨hcd, hne⟩ => lt_of_le_of_ne hcd ?_
    intro heq
    obtain ⟨e, he, -, hea, -⟩ := hmem.mp ((List.mem_insertionSort _).mp hc)
    obtain ⟨e', he', -, hea', -⟩ := hmem.mp ((List.mem_insertionSort _).mp hdm)
    exact hne (hd _ _ _ _ he he' (hea.trans (heq.trans hea'.symm)))
  refine ⟨hstrict.sublist (List.take_sublist _ _), fun {c} hc => ?_, fun {h e} he hev => ?_⟩
  · exact hmem.mp ((List.mem_insertionSort _).mp (List.mem_of_mem_take hc))
  have hin : (⟨h, e.size, e.acseq⟩ : EvictCandidate) ∈
      l.insertionSort fun c d => c.acseq ≤ d.acseq :=
    (List.mem_insertionSort _).mpr (hmem.mpr ⟨e, he, rfl, rfl, hev⟩)
  rw [← List.take_append_drop kEvictBatchSize
    (l.insertionSort fun c d => c.acseq ≤ d.acseq)] at hin hstrict
  rcases List.mem_append.mp hin with hin | hin
  · exact .inl ⟨_, hin, rfl⟩
  · exact .inr fun c hc => (List.pairwise_append.mp hstrict).2.2 c hc _ hin

/-! ## The walk -/

/-- The weight of a row in the gauge. -/
def keptSize (maxAcseq : Option AcSeq) (_ : Hash) (e : Entry) : Nat :=
  if Kept maxAcseq e then e.size else 0

/-- The number of rows that can still be evicted. -/
def Pass.count (p : Pass) : Nat :=
  p.table.sum fun _ e => if Evictable p.maxAcseq e then 1 else 0

/-- What holds in each state of a clean-up that started with the rows `t₀`. -/
structure Pass.Running (t₀ : Table Hash Entry) (pinnedChunks : Table Hash Nat) (p : Pass) :
    Prop where
  same : ∀ h, (p.table.find? h).map (fun e => (e.size, e.acseq)) =
    (t₀.find? h).map fun e => (e.size, e.acseq)
  flags : ∀ {h e e₀}, p.table.find? h = some e → t₀.find? h = some e₀ →
    e.flag = e₀.flag ∨ (e.flag = .blocked ∧ pinnedChunks.contains h = true)
  gauge : p.gauge = p.table.sum (keptSize p.maxAcseq)
  bound : p.gauge < 2 ^ 64
  trash : ∀ {h}, h ∈ p.trash → pinnedChunks.contains h = false ∧
    ∃ e, p.table.find? h = some e ∧ ¬Kept p.maxAcseq e
  noneOpen : p.lruOrderedOpen = []

namespace Pass

variable {t₀ : Table Hash Entry} {pinnedChunks : Table Hash Nat} {p : Pass}

variable {x : Hash} {e : Entry}

theorem Running.old (h : Running t₀ pinnedChunks p) (he : p.table.find? x = some e) :
    ∃ e₀, t₀.find? x = some e₀ ∧ e.size = e₀.size ∧ e.acseq = e₀.acseq := by
  have hs := h.same x
  rw [he, map_some] at hs
  obtain ⟨e₀, he₀, hb⟩ := map_eq_some_iff.mp hs.symm
  simp only [Prod.mk.injEq] at hb
  exact ⟨e₀, he₀, hb.1.symm, hb.2.symm⟩

theorem Running.distinct (h : Running t₀ pinnedChunks p) (hd : Distinct t₀) : Distinct p.table := by
  intro x x' e e' he he' ha
  obtain ⟨e₀, he₀, -, ha₀⟩ := h.old he
  obtain ⟨e₀', he₀', -, ha₀'⟩ := h.old he'
  exact hd _ _ _ _ he₀ he₀' (ha₀.symm.trans (ha.trans ha₀'))

variable {c : EvictCandidate} {cs : List EvictCandidate}

theorem Running.skip (h : Running t₀ pinnedChunks p) (hb : Batch p (c :: cs))
    (hc : pinnedChunks.contains c.hash = true) :
    Running t₀ pinnedChunks { p with table := skipEviction p.table c.hash } ∧
      Batch { p with table := skipEviction p.table c.hash } cs ∧
      ({ p with table := skipEviction p.table c.hash } : Pass).count + 1 = p.count := by
  obtain ⟨ec, hec, hsize, hacseq, hev⟩ := hb.live (.head _)
  have hfind : ∀ x, (skipEviction p.table c.hash).find? x =
      if x = c.hash then some { ec with flag := .blocked } else p.table.find? x := by
    intro x
    rw [skipEviction, find?_adjust, hec]
    rfl
  refine ⟨⟨fun x => ?_, fun {x e e₀} he he₀ => ?_, ?_, h.bound, fun {x} hx => ?_, h.noneOpen⟩,
    ⟨(List.pairwise_cons.mp hb.sorted).2, fun {d} hd => ?_, fun {x e} he hx => ?_⟩, ?_⟩
  · rw [← h.same, hfind]
    split
    · rename_i hx
      rw [hx, hec]
      rfl
    · rfl
  · change (skipEviction p.table c.hash).find? x = some e at he
    rw [hfind] at he
    split at he
    · rename_i hx
      cases he
      exact .inr ⟨rfl, hx ▸ hc⟩
    · exact h.flags he he₀
  · change p.gauge = (skipEviction p.table c.hash).sum (keptSize p.maxAcseq)
    have hadj := sum_adjust (keptSize p.maxAcseq) hec
      fun e => ({ e with flag := .blocked } : Entry)
    have hk : keptSize p.maxAcseq c.hash ec = ec.size := if_pos (.inr hev.2)
    have hk' : keptSize p.maxAcseq c.hash { ec with flag := .blocked } = ec.size :=
      if_pos (.inl rfl)
    rw [hk, hk'] at hadj
    rw [h.gauge, skipEviction]
    omega
  · obtain ⟨hnp, e, he, hk⟩ := h.trash hx
    refine ⟨hnp, e, ?_, hk⟩
    change (skipEviction p.table c.hash).find? x = some e
    rw [hfind, if_neg, he]
    rintro rfl
    rw [hnp] at hc
    cases hc
  · obtain ⟨e, he, hes, hea, heev⟩ := hb.live (.tail _ hd)
    refine ⟨e, ?_, hes, hea, heev⟩
    change (skipEviction p.table c.hash).find? d.hash = some e
    rw [hfind, if_neg, he]
    intro hdc
    rw [hdc, hec] at he
    cases he
    have hlt := (List.pairwise_cons.mp hb.sorted).1 d hd
    rw [← hacseq, ← hea] at hlt
    exact lt_irrefl _ hlt
  · change (skipEviction p.table c.hash).find? x = some e at he
    rw [hfind] at he
    split at he
    · cases he
      exact absurd rfl hx.1
    rename_i hxc
    rcases hb.first he hx with ⟨d, hd, rfl⟩ | hall
    · rcases List.mem_cons.mp hd with rfl | hd
      · exact absurd rfl hxc
      · exact .inl ⟨d, hd, rfl⟩
    · exact .inr fun d hd => hall d (.tail _ hd)
  · have hadj := sum_adjust (fun _ e => if Evictable p.maxAcseq e then 1 else 0) hec
      fun e => ({ e with flag := .blocked } : Entry)
    simp only [if_pos hev] at hadj
    rw [if_neg (fun hx : Evictable p.maxAcseq _ => hx.1 rfl)] at hadj
    change (p.table.adjust c.hash _).sum (fun _ e => if Evictable p.maxAcseq e then 1 else 0) + 1 =
      p.table.sum fun _ e => if Evictable p.maxAcseq e then 1 else 0
    omega

theorem Batch.kept_iff (hb : Batch p (c :: cs)) (he : p.table.find? x = some e) :
    (x ≠ c.hash → ((Kept (some c.acseq) e ↔ Kept p.maxAcseq e) ∧
      (Evictable (some c.acseq) e ↔ Evictable p.maxAcseq e))) ∧
      (x = c.hash → ¬Kept (some c.acseq) e ∧ Kept p.maxAcseq e ∧ Evictable p.maxAcseq e ∧
        e.size = c.size) := by
  obtain ⟨ec, hec, hsize, hacseq, hev⟩ := hb.live (.head _)
  constructor
  · intro hx
    -- a row that can be evicted comes after the first candidate
    have hlt : Evictable p.maxAcseq e → c.acseq < e.acseq := by
      intro hx'
      rcases hb.first he hx' with ⟨d, hdm, rfl⟩ | hall
      · obtain ⟨ed, hed, -, heda, -⟩ := hb.live hdm
        rw [he] at hed
        cases hed
        rcases List.mem_cons.mp hdm with rfl | hdm
        · exact absurd rfl hx
        · exact heda ▸ (List.pairwise_cons.mp hb.sorted).1 d hdm
      · exact hall c (.head _)
    have hback : c.acseq < e.acseq → Behind p.maxAcseq e := fun h a ha =>
      (hacseq ▸ hev.2 a ha).trans h
    constructor
    · constructor
      · rintro (hbl | hlt')
        · exact .inl hbl
        · exact .inr (hback ((behind_some _ _).mp hlt'))
      rintro (hbl | hbeh)
      · exact .inl hbl
      · by_cases hbl : e.flag = .blocked
        · exact .inl hbl
        · exact .inr ((behind_some _ _).mpr (hlt ⟨hbl, hbeh⟩))
    · constructor
      · rintro ⟨hbl, hlt'⟩
        exact ⟨hbl, hback ((behind_some _ _).mp hlt')⟩
      · intro hx'
        exact ⟨hx'.1, (behind_some _ _).mpr (hlt hx')⟩
  · rintro rfl
    rw [hec] at he
    cases he
    refine ⟨?_, .inr hev.2, hev, hsize⟩
    rintro (hbl | hlt)
    · exact hev.1 hbl
    · rw [behind_some, hacseq] at hlt
      exact lt_irrefl _ hlt

theorem Running.evict (h : Running t₀ pinnedChunks p) (hb : Batch p (c :: cs))
    (hc : pinnedChunks.contains c.hash = false) :
    Running t₀ pinnedChunks (p.evict c) ∧ Batch (p.evict c) cs ∧
      (p.evict c).count + 1 = p.count := by
  obtain ⟨ec, hec, hsize, hacseq, hev⟩ := hb.live (.head _)
  have hk := fun {x e} => Batch.kept_iff hb (x := x) (e := e)
  obtain ⟨hck, hck', hcev, -⟩ := (hk hec).2 rfl
  have hsum := sum_reweigh (w := keptSize p.maxAcseq) (u := keptSize (some c.acseq)) hec
    fun x e he hx => by
      rw [keptSize, keptSize]
      exact if_congr ((hk he).1 hx).1 rfl rfl
  have hw : keptSize p.maxAcseq c.hash ec = ec.size := if_pos hck'
  have hw' : keptSize (some c.acseq) c.hash ec = 0 := if_neg hck
  rw [hw, hw', Nat.zero_add, ← h.gauge, hsize] at hsum
  have hsub : sub64 p.gauge c.size = p.gauge - c.size := sub64_of_le h.bound (by omega)
  refine ⟨⟨h.same, h.flags, ?_, ?_, fun {x} hx => ?_, h.noneOpen⟩,
    ⟨(List.pairwise_cons.mp hb.sorted).2, fun {d} hdm => ?_, fun {x e} he hx => ?_⟩, ?_⟩
  · change sub64 p.gauge c.size = p.table.sum (keptSize (some c.acseq))
    omega
  · change sub64 p.gauge c.size < 2 ^ 64
    have := h.bound
    omega
  · rcases List.mem_append.mp hx with hx | hx
    · obtain ⟨hnp, e, he, hke⟩ := h.trash hx
      refine ⟨hnp, e, he, fun hke' => hke ?_⟩
      by_cases hxc : x = c.hash
      · exact absurd hke' ((hk he).2 hxc).1
      · exact ((hk he).1 hxc).1.mp hke'
    · rw [List.mem_singleton] at hx
      subst hx
      exact ⟨hc, ec, hec, hck⟩
  · obtain ⟨e, he, hes, hea, heev⟩ := hb.live (.tail _ hdm)
    have hlt := (List.pairwise_cons.mp hb.sorted).1 d hdm
    exact ⟨e, he, hes, hea, heev.1, (behind_some _ _).mpr (hea ▸ hlt)⟩
  · have hxc : x ≠ c.hash := by
      intro hxc
      exact ((hk he).2 hxc).1 (.inr hx.2)
    rcases hb.first he (((hk he).1 hxc).2.mp hx) with ⟨d, hdm, rfl⟩ | hall
    · rcases List.mem_cons.mp hdm with rfl | hdm
      · exact absurd rfl hxc
      · exact .inl ⟨d, hdm, rfl⟩
    · exact .inr fun d hdm => hall d (.tail _ hdm)
  have hcount := sum_reweigh (w := fun _ e => if Evictable p.maxAcseq e then 1 else 0)
    (u := fun _ e => if Evictable (some c.acseq) e then 1 else 0) hec
    fun x e he hx => if_congr ((hk he).1 hx).2 rfl rfl
  simp only [if_pos hcev] at hcount
  rw [if_neg (fun hx : Evictable (some c.acseq) ec => hck (.inr hx.2))] at hcount
  rw [count, count]
  change p.table.sum (fun _ e => if Evictable (some c.acseq) e then 1 else 0) + 1 = _
  omega

/-- No open file that is not pinned is among the rows. -/
def OpenPinned (ctx : CleanupContext) (isOpen : Hash → Bool) (t₀ : Table Hash Entry) : Prop :=
  ∀ {h e}, t₀.find? h = some e → ctx.cleanupUnusedFirst = true → isOpen h = true →
    ctx.pinnedChunks.contains h = true

theorem evictBatch_running {ctx isOpen} (hopen : OpenPinned ctx isOpen t₀)
    (h : Running t₀ ctx.pinnedChunks p) (hb : Batch p cs) :
    Running t₀ ctx.pinnedChunks (evictBatch ctx isOpen cs p) ∧
      (evictBatch ctx isOpen cs p).count ≤ p.count ∧
      (cs ≠ [] → (evictBatch ctx isOpen cs p).count < p.count) := by
  induction cs generalizing p with
  | nil => exact ⟨h, Nat.le_refl _, fun hne => absurd rfl hne⟩
  | cons c cs ih =>
    obtain ⟨ec, hec, -⟩ := hb.live (.head _)
    obtain ⟨e₀, he₀, -⟩ := h.old hec
    rw [evictBatch]
    by_cases hc : ctx.pinnedChunks.contains c.hash = true
    · rw [if_pos hc]
      obtain ⟨h', hb', hcount⟩ := h.skip hb hc
      obtain ⟨hr, hle, -⟩ := ih h' hb'
      exact ⟨hr, by omega, fun _ => by omega⟩
    have hno : ¬(ctx.cleanupUnusedFirst && isOpen c.hash) = true := by
      intro ho
      rw [Bool.and_eq_true] at ho
      exact hc (hopen he₀ ho.1 ho.2)
    rw [if_neg hc, if_neg hno]
    obtain ⟨h', hb', hcount⟩ := h.evict hb (by simpa using hc)
    split
    · exact ⟨h', by omega, fun _ => by omega⟩
    · obtain ⟨hr, hle, -⟩ := ih h' hb'
      exact ⟨hr, by omega, fun _ => by omega⟩

theorem evictLoop_running (ctx : CleanupContext) {isOpen : Nat → Hash → Bool}
    (hd : Distinct t₀) (hopen : ∀ k, OpenPinned ctx (isOpen k) t₀) {fuel k : Nat}
    (h : Running t₀ ctx.pinnedChunks p) (hfuel : p.count < fuel) :
    Running t₀ ctx.pinnedChunks (evictLoop ctx isOpen fuel k p) ∧
      ((evictLoop ctx isOpen fuel k p).gauge ≤ ctx.leaveSize ∨
        (evictLoop ctx isOpen fuel k p).count = 0) := by
  induction fuel generalizing k p with
  | zero => omega
  | succ fuel ih =>
    have hb := lruCandidates_batch (h.distinct hd)
    rw [evictLoop]
    cases hcs : lruCandidates p.table p.maxAcseq with
    | nil =>
      refine ⟨h, .inr ?_⟩
      rw [hcs] at hb
      rw [count, sum_congr (u := fun _ _ => 0) fun x e he => if_neg fun hx => ?_]
      · simp [sum]
      rcases hb.first he hx with ⟨c, hc, -⟩ | hall
      · cases hc
      obtain ⟨h₁, h₂⟩ := hx
      have hin := (mem_candidates (c := ⟨x, e.size, e.acseq⟩)).mpr ⟨e, he, rfl, rfl, h₁, h₂⟩
      have hnil : lruCandidates p.table p.maxAcseq ≠ [] := by
        rw [lruCandidates]
        intro hnil
        rw [List.take_eq_nil_iff] at hnil
        rcases hnil with hz | hnil
        · cases hz
        · have := (List.mem_insertionSort (fun c d : EvictCandidate => c.acseq ≤ d.acseq)).mpr hin
          rw [hnil] at this
          cases this
      exact hnil hcs
    | cons c cs =>
      rw [hcs] at hb
      obtain ⟨hr, -, hlt⟩ := evictBatch_running (hopen k) h hb
      have hlt := hlt (List.cons_ne_nil c cs)
      dsimp only
      split
      · exact ih hr (by omega)
      · exact ⟨hr, .inl (by omega)⟩

/-! ## After the walk -/

theorem removeBatch_find (p : Pass) (x : Hash) :
    p.removeBatch.table.find? x = ((p.table.find? x).filter fun e => Kept p.maxAcseq e).map
      fun e => if p.maxAcseq ≠ none ∧ e.flag = .blocked then { e with flag := .pinned } else e := by
  rw [removeBatch]
  cases hm : p.maxAcseq with
  | none =>
    cases hx : p.table.find? x <;> simp [Kept, Option.filter]
  | some a =>
    simp only [find?_mapValues, find?_select, behind_some, Kept, ne_eq, reduceCtorEq,
      not_false_eq_true, true_and, or_comm]

theorem Running.removeBatch_sum (h : Running t₀ pinnedChunks p) :
    p.removeBatch.table.sum (fun _ e => e.size) = p.gauge := by
  rw [h.gauge, removeBatch]
  cases hm : p.maxAcseq with
  | none =>
    refine sum_congr fun x e _ => ?_
    have hk : Kept none e := .inr (behind_none e)
    rw [keptSize, if_pos hk]
  | some a =>
    rw [sum_mapValues, sum_select]
    refine sum_congr fun x e _ => ?_
    have hsize : (if e.flag = .blocked then { e with flag := .pinned } else e : Entry).size =
        e.size := by split <;> rfl
    rw [hsize, keptSize]
    refine if_congr ?_ rfl rfl
    rw [decide_eq_true_eq, Kept, behind_some, or_comm]

theorem not_evictable_of_count (hc : p.count = 0) (he : p.table.find? x = some e) :
    ¬Evictable p.maxAcseq e := by
  intro hx
  rw [count, ← sum_erase _ he, if_pos hx] at hc
  omega

theorem Running.start {s : State} (hg : s.gauge = s.cacheCatalog.sum fun _ e => e.size)
    (hb : s.gauge < 2 ^ 64) :
    Running s.cacheCatalog s.pinnedChunks { table := s.cacheCatalog, gauge := s.gauge } := by
  refine ⟨fun _ => rfl, fun he he₀ => ?_, ?_, hb, fun hx => ?_, rfl⟩
  · rw [he] at he₀
    cases he₀
    exact .inl rfl
  · refine hg.trans (sum_congr fun x e _ => ?_)
    have hk : Kept none e := .inr (behind_none e)
    rw [keptSize, if_pos hk]
  · cases hx

theorem Running.sum_eq (h : Running t₀ pinnedChunks p) (w : Hash → Nat → Nat) :
    (p.table.sum fun x e => w x e.size) = t₀.sum fun x e => w x e.size := by
  have hplain : ∀ t : Table Hash Entry, (t.sum fun x e => w x e.size) =
      (t.mapValues fun _ e => { e with flag := .unpinned }).sum fun x e => w x e.size := fun t => by
    rw [sum_mapValues]
  rw [hplain p.table, hplain t₀]
  refine sum_eq_of_find?_eq _ fun x => ?_
  rw [find?_mapValues, find?_mapValues]
  have hs := h.same x
  cases hx : p.table.find? x with
  | none =>
    rw [hx, map_none, eq_comm, map_eq_none_iff] at hs
    rw [hs]
  | some e =>
    obtain ⟨e₀, he₀, hsize, hacseq⟩ := h.old hx
    rw [he₀, map_some, map_some, hsize, hacseq]

theorem count_le (p : Pass) : p.count ≤ p.table.entries.length := by
  have hle := List.sum_le_card_nsmul
    (p.table.entries.map fun e => if Evictable p.maxAcseq e.2 then 1 else 0) 1 fun n hn => by
      obtain ⟨e, -, rfl⟩ := List.mem_map.mp hn
      split <;> omega
  rw [List.length_map, nsmul_one] at hle
  exact hle

end Pass

namespace State

def total (s : State) : Nat := s.cacheCatalog.sum fun _ e => e.size

/-- The sizes of the rows of pinned files. -/
def pinnedRows (s : State) : Nat :=
  s.cacheCatalog.sum fun h e => if s.pinnedChunks.contains h then e.size else 0

/-- No open file that is reported belongs to an unpinned row. -/
def OpenPinned (s : State) (isOpen : Hash → Bool) : Prop :=
  ∀ h e, s.cacheCatalog.find? h = some e → s.cleanupUnusedFirst = true → isOpen h = true →
    s.pinnedChunks.contains h = true

/-- The state before and after a clean-up. -/
structure CleanedUp (s s' : State) : Prop where
  frame : s' = { s with
    cacheCatalog := s'.cacheCatalog, gauge := s'.gauge, trash := s'.trash }
  rows : ∀ {h e'}, s'.cacheCatalog.find? h = some e' → ∃ e, s.cacheCatalog.find? h = some e ∧
    e'.size = e.size ∧ e'.acseq = e.acseq ∧
    (e'.flag = e.flag ∨
      (e'.flag ≠ .unpinned ∧ (s.pinnedChunks.contains h = true ∨ e.flag = .blocked)))
  gauge : s'.gauge = s'.total
  total : s'.total ≤ s.total
  trash : ∃ new, s'.trash = s.trash ++ new ∧ ∀ h ∈ new, s.pinnedChunks.contains h = false ∧
    (∃ e, s.cacheCatalog.find? h = some e) ∧ s'.cacheCatalog.find? h = none

theorem CleanedUp.refl {s} (hg : s.gauge = s.total) : CleanedUp s s :=
  ⟨rfl, fun he => ⟨_, he, rfl, rfl, .inl rfl⟩, hg, Nat.le_refl _,
    [], (List.append_nil _).symm, fun _ h => by cases h⟩

theorem doCleanup_spec {s : State} {leaveSize : Nat} {isOpen : Nat → Hash → Bool}
    (hg : s.gauge = s.total) (hb : s.total < 2 ^ 64) (hd : Distinct s.cacheCatalog)
    (hopen : ∀ k, s.OpenPinned (isOpen k)) : CleanedUp s (s.doCleanup leaveSize isOpen).1 ∧
      ((∀ h e, s.cacheCatalog.find? h = some e → e.flag = .blocked →
          s.pinnedChunks.contains h = true) → s.pinnedRows ≤ leaveSize →
        (s.doCleanup leaveSize isOpen).2 = true) := by
  by_cases hle : s.gauge ≤ leaveSize
  · have hdo : s.doCleanup leaveSize isOpen = (s, true) := if_pos hle
    rw [hdo]
    exact ⟨CleanedUp.refl hg, fun _ _ => rfl⟩
  have hrun := Running.start hg (hg ▸ hb)
  have hfuel := Nat.lt_succ_of_le (count_le { table := s.cacheCatalog, gauge := s.gauge })
  obtain ⟨hp, hend⟩ := evictLoop_running (k := 0)
    ⟨leaveSize, s.pinnedChunks, s.cleanupUnusedFirst⟩ hd
    (fun k {h e} he hc ho => hopen k h e he hc ho) hrun hfuel
  generalize hpass : evictLoop ⟨leaveSize, s.pinnedChunks, s.cleanupUnusedFirst⟩ isOpen
    (s.cacheCatalog.entries.length + 1) 0 { table := s.cacheCatalog, gauge := s.gauge } = p
    at hp hend
  -- the second pass has nothing to do
  have hdo : s.doCleanup leaveSize isOpen =
      ({ s with
          cacheCatalog := p.removeBatch.table, gauge := p.gauge, trash := s.trash ++ p.trash },
        decide (p.gauge ≤ leaveSize)) := by
    rw [doCleanup, if_neg hle]
    simp only [hpass, hp.noneOpen, evictOpen]
    rw [removeBatch]
    cases p.maxAcseq <;> rfl
  have hsum : p.removeBatch.table.sum (fun _ e => e.size) = p.gauge := hp.removeBatch_sum
  rw [hdo]
  refine ⟨⟨rfl, fun {x e'} he' => ?_, ?_, ?_, p.trash, rfl, fun x hx => ?_⟩, fun hbl hpin => ?_⟩
  · change p.removeBatch.table.find? x = some e' at he'
    rw [removeBatch_find] at he'
    obtain ⟨e, hfil, rfl⟩ := map_eq_some_iff.mp he'
    obtain ⟨he, hk⟩ := filter_eq_some_iff.mp hfil
    obtain ⟨e₀, he₀, hsize, hacseq⟩ := hp.old he
    have hflag := hp.flags he he₀
    refine ⟨e₀, he₀, ?_, ?_, ?_⟩
    · split <;> exact hsize
    · split <;> exact hacseq
    split
    · rename_i hblk
      refine .inr ⟨nofun, ?_⟩
      rcases hflag with hf | ⟨-, hpc⟩
      · exact .inr (hf ▸ hblk.2)
      · exact .inl hpc
    · rcases hflag with hf | ⟨hf, hpc⟩
      · exact .inl hf
      · exact .inr ⟨by rw [hf]; nofun, .inl hpc⟩
  · exact hsum.symm
  · change p.removeBatch.table.sum (fun _ e => e.size) ≤ s.total
    rw [hsum, hp.gauge]
    have hsame : p.table.sum (fun _ e => e.size) = s.total := hp.sum_eq fun _ n => n
    rw [← hsame]
    refine sum_le_sum fun x e _ => ?_
    rw [keptSize]
    split <;> omega
  · obtain ⟨hnp, e, he, hk⟩ := hp.trash hx
    obtain ⟨e₀, he₀, -⟩ := hp.old he
    refine ⟨hnp, ⟨e₀, he₀⟩, ?_⟩
    change p.removeBatch.table.find? x = none
    rw [removeBatch_find, he]
    simp [hk]
  rw [decide_eq_true_eq]
  rcases hend with hend | hend
  · exact hend
  -- what is left is blocked and so pinned
  refine le_trans ?_ hpin
  rw [hp.gauge, pinnedRows, ← hp.sum_eq fun x n => if s.pinnedChunks.contains x then n else 0]
  refine sum_le_sum fun x e he => ?_
  obtain ⟨e₀, he₀, -⟩ := hp.old he
  rw [keptSize]
  split
  · rename_i hk
    have hblk : e.flag = .blocked := by
      by_contra hnb
      exact not_evictable_of_count hend he ⟨hnb, hk.resolve_left hnb⟩
    rw [if_pos]
    rcases hp.flags he he₀ with hf | ⟨-, hpc⟩
    · exact hbl x e₀ he₀ (hf ▸ hblk)
    · exact hpc
  · exact Nat.zero_le _

end State

end Cvmfs.Quota
