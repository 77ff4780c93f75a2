import Cvmfs.Gc.Exactness

/-! # An interrupted collection can be resumed

Whatever has been requested so far, what is condemned and has not been requested
hangs on a reflog entry by catalogs that have not been requested either. So the
next collection finds it again, wherever the run was interrupted and whichever
of the fetches have failed.
-/

namespace Cvmfs.Gc

open Relation ReflTransGen

variable {H : Type} [DecidableEq H] {cfg : Configuration H} {s : State H}

/-- The tree of `r` has `x` in the storage: a data object, a chunk, or a catalog
that is not missing. -/
def Repository.Stores (R : Repository H) (r x : H) : Prop :=
  ∃ h, R.InTree r h ∧ (x = h ∧ R.fetch h ≠ .notFound ∨ ∃ c, R.fetch h = .ok c ∧ x ∈ c.objects)

/-- An entry of the reflog leads to `x` by catalogs none of which is requested. -/
def StillReachable (cfg : Configuration H) (s : State H) (x : H) : Prop :=
  ∃ r ∈ s.reflog, ∃ h,
    ReflTransGen (fun a b => a ∉ s.marks.removals ∧ cfg.repository.Nests a b) r h ∧
      h ∉ s.marks.removals ∧ (x = h ∨ ∃ c, cfg.repository.fetch h = .ok c ∧ x ∈ c.objects)

omit [DecidableEq H] in
theorem Ordered.cleared {R : Repository H} {filter requests : List H} {y : H}
    (h : Ordered R filter requests) (hy : y ∈ requests) : Cleared R filter y requests := by
  obtain ⟨before, after, heq⟩ := List.append_of_mem hy
  have hbefore : ∀ x ∈ before, x ∈ requests := fun x hx => by simp [heq, hx]
  intro c hc
  obtain ⟨hobj, hbelow⟩ := h before y after heq c hc
  exact ⟨fun o ho hof => hbefore o (hobj o ho hof),
    fun d hd hs hdf => hbefore d (hbelow d hd hs hdf)⟩

variable {r x : H}

omit [DecidableEq H] in
/-- As long as no entry has left the reflog, the order of the requests alone
keeps the rest reachable. -/
theorem stillReachable_of_ordered {filter : List H} (hreflog : s.reflog = cfg.repository.reflog)
    (hord : Ordered cfg.repository filter s.marks.removals)
    (hfilter : ∀ h c, cfg.repository.fetch h = .ok c → h ∈ filter → ∀ x ∈ c.objects, x ∈ filter)
    (hr : r ∈ cfg.repository.reflog) (hx : cfg.repository.Stores r x) (hxf : x ∉ filter)
    (hxr : x ∉ s.marks.removals) : StillReachable cfg s x := by
  obtain ⟨h, ht, hx⟩ := hx
  obtain ⟨hstored, hhf, hhr⟩ : cfg.repository.fetch h ≠ .notFound ∧ h ∉ filter ∧
      h ∉ s.marks.removals := by
    rcases hx with ⟨rfl, hs⟩ | ⟨c, hc, hobj⟩
    · exact ⟨hs, hxf, hxr⟩
    · refine ⟨by simp [hc], fun hf => hxf (hfilter h c hc hf x hobj), fun hin => hxr ?_⟩
      exact ((hord.cleared hin) c hc).1 x hobj hxf
  refine ⟨r, hreflog ▸ hr, h, ?_, hhr, hx.imp And.left id⟩
  clear hr
  -- Along the path from its end: a requested catalog would have `h` requested before it.
  induction ht using head_induction_on with
  | refl => exact .refl
  | head hn hrest ih =>
    refine .head ⟨fun hin => hhr ?_, hn⟩ ih
    obtain ⟨c, hc, hmem⟩ := hn
    exact ((hord.cleared hin) c hc).2 h (.head' ⟨c, hc, hmem⟩ hrest) hstored hhf

omit [DecidableEq H] in
theorem SweepOk.ordered_removals {filter toSweep k} (h : SweepOk cfg filter toSweep k)
    (hord : Ordered cfg.repository filter k.deleteRequests) :
    Ordered cfg.repository filter k.removals := by
  rw [h.removals]
  split
  · exact ordered_nil
  · exact hord

section

variable {done filter toSweep} (h : MarkingDone cfg done filter toSweep)
include h

omit [DecidableEq H] in
theorem MarkingDone.objects_mem :
    ∀ g c, cfg.repository.fetch g = .ok c → g ∈ filter → ∀ x ∈ c.objects, x ∈ filter := by
  intro g c hc hg x hx
  obtain ⟨r, hkeep, ht⟩ := h.inTree_of_mem hg hc
  exact h.mem_filter hkeep ht hc (.tail _ hx)

omit [DecidableEq H] in
theorem MarkingDone.stored_mem
    (hrf : r ∈ filter) (hx : cfg.repository.Stores r x) : x ∈ filter := by
  obtain ⟨g, ht, hx⟩ := hx
  by_cases hr : ∃ c, cfg.repository.fetch r = .ok c
  · obtain ⟨c, hc⟩ := hr
    obtain ⟨r', hkeep, ht'⟩ := h.inTree_of_mem hrf hc
    have htg : cfg.repository.InTree r' g := trans ht' ht
    rcases hx with ⟨rfl, hs⟩ | ⟨cg, hcg, hobj⟩
    · cases hf : cfg.repository.fetch x with
      | ok cx => exact h.mem_filter hkeep htg hf (by simp)
      | notFound => exact absurd hf hs
      | failed => exact absurd hf (h.marked.loaded x (h.marked.inTree (h.mem_of_keeps hkeep) htg))
    · exact h.mem_filter hkeep htg hcg (.tail _ hobj)
  -- The tree of a catalog that is not loaded is the catalog alone.
  have hgr : g = r := by
    rcases cases_head ht with heq | ⟨b, ⟨c, hc, -⟩, -⟩
    · exact heq.symm
    · exact absurd ⟨c, hc⟩ hr
  subst hgr
  rcases hx with ⟨rfl, -⟩ | ⟨c, hc, -⟩
  · exact hrf
  · exact absurd ⟨c, hc⟩ hr

end

variable {ok : Bool}

omit [DecidableEq H] in
/-- A swept tree has nothing left, and the other entries of the reflog lead only
to what is preserved. -/
theorem AfterSweep.nothing_left {done filter toSweep} (h : AfterSweep cfg s ok toSweep done filter)
    (hdigest : Function.Injective cfg.repository.digest) (hdry : cfg.dryRun = false)
    (hcomplete : Complete cfg toSweep s.marks)
    (hr : r ∈ cfg.repository.reflog) (hx : cfg.repository.Stores r x) (hxf : x ∉ filter) :
    x ∈ s.marks.removals := by
  have hrem : s.marks.removals = s.marks.deleteRequests := by
    simpa [hdry] using h.sweepOk.removals
  have hsweep : r ∈ toSweep :=
    (h.marking.mem_toSweep hdigest).mpr ⟨hr, fun hrf => hxf (h.marking.stored_mem hrf hx)⟩
  obtain ⟨g, ht, hx⟩ := hx
  obtain ⟨hload, hall⟩ := hcomplete r hsweep g ht
  have hsettled : Settled cfg.repository.digest s.marks x := by
    rcases hx with ⟨rfl, hs⟩ | ⟨c, hc, hobj⟩
    · cases hf : cfg.repository.fetch x with
      | ok c => exact hall c hf x (by simp)
      | notFound => exact absurd hf hs
      | failed => exact absurd hf hload
    · exact hall c hc x (.tail _ hobj)
  rw [hrem]
  exact hsettled.requested hdigest (h.sweepOk.hashFilter ▸ hxf)

omit [DecidableEq H] in
theorem stillReachable_of_nil (hreflog : s.reflog = cfg.repository.reflog)
    (hrem : s.marks.removals = []) (hr : r ∈ cfg.repository.reflog)
    (hx : cfg.repository.Stores r x) : StillReachable cfg s x := by
  obtain ⟨h, ht, hx⟩ := hx
  refine ⟨r, hreflog ▸ hr, h, mono (fun a b hab => ⟨by simp [hrem], hab⟩) _ _ ht,
    by simp [hrem], hx.imp And.left id⟩

section

variable {done filter toSweep} (h : AfterSweep cfg s ok toSweep done filter)
  (hdigest : Function.Injective cfg.repository.digest)
include h hdigest

omit [DecidableEq H] in
theorem AfterSweep.resumable
    (hr : r ∈ cfg.repository.reflog) (hx : cfg.repository.Stores r x) (hxf : x ∉ s.marks.hashFilter)
    (hxr : x ∉ s.marks.removals) : StillReachable cfg s x := by
  rw [h.sweepOk.hashFilter] at hxf
  rcases h.reflog with hreflog | ⟨hdry, hcomplete⟩
  · exact stillReachable_of_ordered hreflog (h.sweepOk.ordered_removals (h.ordered hdigest))
      h.marking.objects_mem hr hx hxf hxr
  · exact absurd (h.nothing_left hdigest hdry hcomplete hr hx hxf) hxr

omit [DecidableEq H] in
theorem AfterSweep.ordered_marks : Ordered cfg.repository s.marks.hashFilter s.marks.removals := by
  rw [h.sweepOk.hashFilter]
  exact h.sweepOk.ordered_removals (h.ordered hdigest)

end

/-- The chunk `13` of the catalog `3` has the digest of the file `11`. -/
def sameDigest : Configuration Nat :=
  { sampleConfig 0 0 with
    repository := { sample with digest := fun x => if x = 13 then 11 else x } }

end Cvmfs.Gc
