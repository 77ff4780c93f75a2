import Cvmfs.Gc.Preserved

/-! # The three passes of a collection

The invariant of `Cvmfs.Gc.Visits`, instantiated for the trunk, the tags and
the sweep, and chained through the phases of `Collect`. `Progress` says for each
phase what the finished passes have left behind; it holds in every state that
any interleaving reaches.
-/

namespace Cvmfs.Gc

open List

variable {H : Type} [DecidableEq H] {cfg : Configuration H}

/-! ## Marking -/

/-- What the mark passes keep: the filter only grows, with hashes that some
preserved revision needs, and nothing is removed. -/
structure MarkOk (cfg : Configuration H) (filter₀ : List H) (k : Marks H) : Prop where
  live : ∀ x ∈ k.hashFilter, cfg.IsLive x
  kept : ∀ x ∈ filter₀, x ∈ k.hashFilter
  requests : k.deleteRequests = []
  removals : k.removals = []

/-- The listener of a pass whose jobs belong to preserved revisions. -/
def markAudit {m : Mode} (A : Provenance cfg.env m) (filter₀ : List H)
    (hA : ∀ K j, A.Origin K j → ∃ r, cfg.Keeps r ∧ cfg.repository.InTree r j.hash) :
    Audit A (preserveDataObjects (H := H)) where
  Handled k x := x ∈ k.hashFilter
  Good := MarkOk cfg filter₀
  handled_visit k x := by simp [preserveDataObjects, Marks.fill]
  handled_mono x h := by simp [preserveDataObjects, Marks.fill, h]
  handled_note h := h
  good_note h := { h with }
  good_visit {K j c k x} ho hf hx h := by
    obtain ⟨r, hr, ht⟩ := hA K j ho
    have hlive : cfg.IsLive x := by
      refine ⟨r, hr, j.hash, ht, ?_⟩
      rcases mem_cons.mp hx with rfl | hx
      · exact .inl rfl
      · exact .inr ⟨c, hf, hx⟩
    refine { h with live := ?_, kept := fun y hy => .tail _ (h.kept y hy) }
    exact forall_mem_cons.mpr ⟨hlive, h.live⟩

omit [DecidableEq H] in
theorem keeps_of_trunk {K : H → Prop} {j} (h : cfg.trunkProvenance.Origin K j) :
    ∃ r, cfg.Keeps r ∧ cfg.repository.InTree r j.hash := by
  rcases h with ht | ⟨-, d, r, hr, htr⟩
  · exact ⟨j.hash, .inl ⟨_, ht.onTrunk⟩, .refl⟩
  · exact ⟨r, .inl ⟨d, hr⟩, htr.to_reflTransGen⟩

def trunkAudit (cfg : Configuration H) : Audit cfg.trunkProvenance (preserveDataObjects (H := H)) :=
  markAudit cfg.trunkProvenance [] fun _ _ => keeps_of_trunk

abbrev tagsProvenance (cfg : Configuration H) (tags : List H) :
    Provenance cfg.env (cfg.mode .tags) :=
  cfg.listProvenance .tags rfl rfl tags

def tagsAudit (cfg : Configuration H) {tags : List H} (htags : cfg.repository.history = .ok tags)
    (filter₀ : List H) : Audit (tagsProvenance cfg tags) (preserveDataObjects (H := H)) :=
  markAudit (tagsProvenance cfg tags) filter₀ fun _ _ ⟨r, hr, ht⟩ =>
    ⟨r, .inr ⟨tags, htags, hr⟩, ht⟩

/-- The catalogs in `done` are marked: they are closed under nesting and the
filter has them and their objects. The trunk is among them. -/
structure Marked (cfg : Configuration H) (done filter : List H) : Prop where
  live : ∀ x ∈ filter, cfg.IsLive x
  nested : ∀ h ∈ done, ∀ c, cfg.repository.fetch h = .ok c → ∀ n ∈ c.nested, n ∈ done
  filled : ∀ h ∈ done, ∀ c, cfg.repository.fetch h = .ok c → ∀ x ∈ h :: c.objects, x ∈ filter
  loaded : ∀ h ∈ done, cfg.repository.fetch h ≠ .failed
  trunk : ∀ d h, cfg.OnTrunk d h → h ∈ done

omit [DecidableEq H] in
theorem mem_references_of_nested {m : Mode} {j : Job H} {c : Catalog H} {n : H}
    (h : n ∈ c.nested) : n ∈ references m j c :=
  mem_references.mpr (.inl h)

variable {p : Pool H (Marks H)}

theorem marked_of_trunk (h : Visits (trunkAudit cfg) [] p)
    (hhead : ∀ x, cfg.repository.head = some x → p.shared.Known x)
    (hjoin : p.join = some true) : Marked cfg p.shared.done p.shared.client.hashFilter where
  live := h.client.live
  nested x hx c hc n hn := by
    obtain hx | ⟨j, -, -, -, hall⟩ := h.closed hjoin hx
    · cases hx
    · exact (hall c hc).2 n (mem_references_of_nested hn)
  filled x hx c hc := by
    obtain hx | ⟨j, -, -, -, hall⟩ := h.closed hjoin hx
    · cases hx
    · exact (hall c hc).1
  loaded x hx := by
    obtain hx | ⟨j, -, -, hload, -⟩ := h.closed hjoin hx
    · cases hx
    · exact hload
  trunk d x hx := by
    induction hx with
    | head hh => exact (Pool.known_of_join hjoin _).mp (hhead _ hh)
    | @previous d x c p' ht hf hp hhit ih =>
      obtain hx | ⟨j, rfl, ho, -, hall⟩ := h.closed hjoin ih
      · cases hx
      rcases ho with htj | ⟨-, d', r, -, htr⟩
      · refine (hall c hf).2 p' (mem_references.mpr (.inr ⟨htj.level, fun hb => ?_, hp⟩))
        -- The job is at the least depth, so it hits no threshold either.
        apply hhit
        rcases isBelowPruningThresholds_true hb with hb | hb
        · exact .inl (Nat.le_trans hb (htj.least d ht))
        · exact .inr hb
      · exact absurd htr ht.not_nested

theorem Marked.tags {done₀ filter₀ tags : List H}
    {htags : cfg.repository.history = .ok tags} (hm : Marked cfg done₀ filter₀)
    (h : Visits (tagsAudit cfg htags filter₀) done₀ p)
    (hdone₀ : ∀ x ∈ done₀, p.shared.Known x) (hjoin : p.join = some true) :
    Marked cfg p.shared.done p.shared.client.hashFilter where
  live := h.client.live
  nested x hx c hc n hn := by
    obtain hx | ⟨j, -, -, -, hall⟩ := h.closed hjoin hx
    · exact (Pool.known_of_join hjoin n).mp (hdone₀ n (hm.nested x hx c hc n hn))
    · exact (hall c hc).2 n (mem_references_of_nested hn)
  filled x hx c hc := by
    obtain hx | ⟨j, -, -, -, hall⟩ := h.closed hjoin hx
    · exact fun y hy => h.client.kept y (hm.filled x hx c hc y hy)
    · exact (hall c hc).1
  loaded x hx := by
    obtain hx | ⟨j, -, -, hload, -⟩ := h.closed hjoin hx
    · exact hm.loaded x hx
    · exact hload
  trunk d x hx := (Pool.known_of_join hjoin x).mp (hdone₀ x (hm.trunk d x hx))

omit [DecidableEq H] in
theorem Marked.inTree {done filter} (hm : Marked cfg done filter) {r h} (hr : r ∈ done)
    (ht : cfg.repository.InTree r h) : h ∈ done := by
  induction ht with
  | refl => exact hr
  | tail _ hn ih =>
    obtain ⟨c, hf, hn⟩ := hn
    exact hm.nested _ ih c hf _ hn

/-! ## Sweeping -/

/-- What the sweep keeps: the filter is left alone, and each request is new, not
in the filter and from a tree to be swept. -/
structure SweepOk (cfg : Configuration H) (filter toSweep : List H) (k : Marks H) : Prop where
  hashFilter : k.hashFilter = filter
  nodup : k.deleteRequests.Nodup
  source : ∀ x ∈ k.deleteRequests, x ∉ filter ∧ ∃ r ∈ toSweep, cfg.repository.Contains r x
  removals : k.removals = if cfg.dryRun then [] else k.deleteRequests

/-- A hash is settled when one with its digest is preserved or requested. -/
def Settled (digest : H → Nat) (k : Marks H) (x : H) : Prop :=
  digest x ∈ k.hashFilter.map digest ∨ digest x ∈ k.deleteRequests.map digest

variable {digest : H → Nat} (dryRun : Bool)

omit [DecidableEq H] in
theorem Settled.of_mem {k : Marks H} {x : H} (h : x ∈ k.hashFilter) : Settled digest k x :=
  .inl (mem_map_of_mem h)

omit [DecidableEq H] in
theorem Settled.requested {k : Marks H} {x : H} (h : Settled digest k x)
    (hdigest : Function.Injective digest) (hx : x ∉ k.hashFilter) : x ∈ k.deleteRequests :=
  (mem_map_of_injective hdigest).mp
    (h.resolve_left fun hin => hx ((mem_map_of_injective hdigest).mp hin))

omit [DecidableEq H] in
theorem checkAndSweep_hashFilter (k : Marks H) (x : H) :
    (k.checkAndSweep digest dryRun x).hashFilter = k.hashFilter := by
  unfold Marks.checkAndSweep Marks.sweep
  repeat' split
  all_goals rfl

omit [DecidableEq H] in
theorem checkAndSweep_requests (k : Marks H) (x : H) :
    (Settled digest k x ∧ k.checkAndSweep digest dryRun x = k) ∨
    (¬ Settled digest k x ∧
      (k.checkAndSweep digest dryRun x).deleteRequests = k.deleteRequests ++ [x] ∧
      (k.checkAndSweep digest dryRun x).removals =
        if dryRun then k.removals else k.removals ++ [x]) := by
  unfold Settled Marks.checkAndSweep Marks.sweep
  by_cases hf : digest x ∈ k.hashFilter.map digest
  · exact .inl ⟨.inl hf, if_pos hf⟩
  by_cases hd : digest x ∈ k.deleteRequests.map digest
  · exact .inl ⟨.inr hd, by rw [if_neg hf, if_pos hd]⟩
  · refine .inr ⟨by tauto, ?_⟩
    rw [if_neg hf, if_neg hd]
    cases dryRun <;> exact ⟨rfl, rfl⟩

omit [DecidableEq H] in
theorem settled_checkAndSweep (k : Marks H) (x y : H) :
    Settled digest (k.checkAndSweep digest dryRun x) y ↔
      Settled digest k y ∨ digest y = digest x := by
  rcases checkAndSweep_requests dryRun k x with ⟨hs, heq⟩ | ⟨-, hreq, -⟩
  · rw [heq]
    refine ⟨.inl, fun h => h.elim id fun h => ?_⟩
    rw [Settled, h]
    exact hs
  · simp only [Settled, checkAndSweep_hashFilter, hreq, map_append, mem_append, map_singleton,
      mem_singleton]
    tauto

omit [DecidableEq H] in
theorem SweepOk.checkAndSweep {filter toSweep k x} (h : SweepOk cfg filter toSweep k)
    (hx : ∃ r ∈ toSweep, cfg.repository.Contains r x) :
    SweepOk cfg filter toSweep (k.checkAndSweep cfg.repository.digest cfg.dryRun x) := by
  rcases checkAndSweep_requests cfg.dryRun k x with ⟨-, heq⟩ | ⟨hns, hreq, hrem⟩
  · rwa [heq]
  have hnew : x ∉ k.hashFilter ∧ x ∉ k.deleteRequests :=
    ⟨fun hin => hns (.of_mem hin), fun hin => hns (.inr (mem_map_of_mem hin))⟩
  refine ⟨by rw [checkAndSweep_hashFilter, h.hashFilter], ?_, ?_, ?_⟩
  · rw [hreq, nodup_append]
    refine ⟨h.nodup, by simp, fun a ha b hb => ?_⟩
    rw [mem_singleton.mp hb]
    exact fun heq => hnew.2 (heq ▸ ha)
  · intro y hy
    rw [hreq] at hy
    rcases mem_append.mp hy with hy | hy
    · exact h.source y hy
    · rw [mem_singleton.mp hy, ← h.hashFilter]
      exact ⟨hnew.1, hx⟩
  · rw [hrem, hreq, h.removals]
    split <;> simp

abbrev sweepProvenance (cfg : Configuration H) (toSweep : List H) :
    Provenance cfg.env (cfg.mode (.sweep toSweep)) :=
  cfg.listProvenance (.sweep toSweep) rfl rfl toSweep

def sweepAudit (cfg : Configuration H) (filter toSweep : List H) :
    Audit (sweepProvenance cfg toSweep)
      (sweepDataObjects cfg.repository.digest cfg.dryRun) where
  Handled := Settled cfg.repository.digest
  Good := SweepOk cfg filter toSweep
  handled_visit k x := (settled_checkAndSweep _ k x x).mpr (.inr rfl)
  handled_mono x h := (settled_checkAndSweep _ _ x _).mpr (.inl h)
  handled_note h := h
  good_note h := h
  good_visit {_ j c _ x} ho hf hx h := by
    obtain ⟨r, hr, ht⟩ := ho
    refine h.checkAndSweep ⟨r, hr, j.hash, ht, ?_⟩
    rcases mem_append.mp hx with hx | hx
    · exact .inr ⟨c, hf, hx⟩
    · exact .inl (mem_singleton.mp hx)

/-- Everything in the trees of the list is settled, as far as it is stored. -/
def Complete (cfg : Configuration H) (toSweep : List H) (k : Marks H) : Prop :=
  ∀ r ∈ toSweep, ∀ h, cfg.repository.InTree r h → cfg.repository.fetch h ≠ .failed ∧
    ∀ c, cfg.repository.fetch h = .ok c → ∀ x ∈ h :: c.objects,
      Settled cfg.repository.digest k x

theorem complete_of_sweep {done₀ filter toSweep : List H}
    (hm : Marked cfg done₀ filter) (h : Visits (sweepAudit cfg filter toSweep) done₀ p)
    (hdone₀ : ∀ x ∈ done₀, p.shared.Known x) (hstart : ∀ r ∈ toSweep, p.shared.Known r)
    (hjoin : p.join = some true) : Complete cfg toSweep p.shared.client := by
  have hknown := Pool.known_of_join hjoin
  intro r hr g ht
  have hg : g ∈ p.shared.done := by
    induction ht with
    | refl => exact (hknown r).mp (hstart r hr)
    | @tail a b _ hn ih =>
      obtain ⟨ca, hca, hn⟩ := hn
      obtain ha | ⟨j, -, -, -, hall⟩ := h.closed hjoin ih
      · exact (hknown b).mp (hdone₀ b (hm.nested a ha ca hca b hn))
      · exact (hall ca hca).2 b (mem_references_of_nested hn)
  obtain hg | ⟨j, -, -, hload, hall⟩ := h.closed hjoin hg
  · refine ⟨hm.loaded g hg, fun c hc x hx => ?_⟩
    exact .of_mem (h.client.hashFilter ▸ hm.filled g hg c hc x hx)
  · refine ⟨hload, fun c hc x hx => (hall c hc).1 x ?_⟩
    simp only [sweepDataObjects, mem_append, mem_cons] at hx ⊢
    tauto

omit [DecidableEq H] in
theorem complete_of_done {done₀ filter toSweep k} (hm : Marked cfg done₀ filter)
    (hk : k.hashFilter = filter) (hdone : ∀ r ∈ toSweep, r ∈ done₀) : Complete cfg toSweep k := by
  intro r hr g ht
  have hg := hm.inTree (hdone r hr) ht
  exact ⟨hm.loaded g hg, fun c hc x hx => .of_mem (hk ▸ hm.filled g hg c hc x hx)⟩

end Cvmfs.Gc
