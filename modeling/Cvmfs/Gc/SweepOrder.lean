import Cvmfs.Gc.DepthFirst
import Cvmfs.Gc.Passes

/-! # The order of the removals

The sweep requests a catalog after the objects it references, because the
listener visits the catalog last, and after the catalogs below it, because the
pass is depth-first. The requests form a list, so *before* means earlier in the
list, and the property is kept by every request that is appended.
-/

namespace Cvmfs.Gc

open Relation List

variable {H : Type} [DecidableEq H] {cfg : Configuration H}

/-- What is condemned with the catalog `y` is in the list `before`: the objects
it references and the stored catalogs below it that are not in the filter. -/
def Cleared (R : Repository H) (filter : List H) (y : H) (before : List H) : Prop :=
  ∀ c, R.fetch y = .ok c → (∀ o ∈ c.objects, o ∉ filter → o ∈ before) ∧
    ∀ d, TransGen R.Nests y d → R.fetch d ≠ .notFound → d ∉ filter → d ∈ before

/-- Each request comes after everything that is condemned with it. -/
def Ordered (R : Repository H) (filter requests : List H) : Prop :=
  ∀ before y after, requests = before ++ y :: after → Cleared R filter y before

omit [DecidableEq H] in
theorem ordered_nil {R : Repository H} {filter : List H} : Ordered R filter [] := by
  intro before y after h
  simp at h

omit [DecidableEq H] in
theorem Ordered.concat {R : Repository H} {filter requests : List H} {x : H}
    (h : Ordered R filter requests) (hx : Cleared R filter x requests) :
    Ordered R filter (requests ++ [x]) := by
  intro before y after heq
  rcases eq_nil_or_concat after with rfl | ⟨after', z, rfl⟩
  · obtain ⟨hb, hy⟩ := append_inj' heq rfl
    cases hy
    exact hb ▸ hx
  · have hassoc : requests ++ [x] = (before ++ y :: after') ++ [z] := by simpa using heq
    obtain ⟨hb, -⟩ := append_inj' hassoc rfl
    exact h before y after' hb

section Sweep

variable {done₀ filter toSweep : List H} {sh sh' : Shared H (Marks H)} {ts : List (Task H)}

section

variable (hm : Marked cfg done₀ filter)
include hm

section

variable (h : Visits (sweepAudit cfg filter toSweep) done₀ ⟨sh, ts⟩)
include h

omit [DecidableEq H] in
theorem settled_of_done {d} (hd : d ∈ sh.done)
    (hs : cfg.repository.fetch d ≠ .notFound) :
    Settled cfg.repository.digest sh.client d := by
  rcases h.done d hd with hd | ⟨j, rfl, -, hload, hall⟩
  · cases hf : cfg.repository.fetch d with
    | ok c => exact .of_mem (h.client.hashFilter ▸ hm.filled d hd c hf d (by simp))
    | notFound => exact absurd hf hs
    | failed => exact absurd hf (hm.loaded d hd)
  · cases hf : cfg.repository.fetch j.hash with
    | ok c => exact hall c hf j.hash (by simp [sweepDataObjects])
    | notFound => exact absurd hf hs
    | failed => exact absurd hf hload

section

variable (hd : DepthFirst cfg.env sh ts)
include hd

omit h in
omit hm in
theorem DepthFirst.below_done {h d}
    (hn : NestedDone cfg.env sh.done h) (hb : TransGen cfg.repository.Nests h d) : d ∈ sh.done := by
  induction hb with
  | single hnest =>
    obtain ⟨c, hf, hmem⟩ := hnest
    exact hn c hf _ hmem
  | tail _ hnest ih =>
    obtain ⟨c, hf, hmem⟩ := hnest
    exact hd.closed _ ih c hf _ hmem

variable (hdigest : Function.Injective cfg.repository.digest)
include hdigest

theorem cleared_of_calling {j x rest} (ht : .calling j (x :: rest) ∈ ts) :
    Cleared cfg.repository filter x sh.client.deleteRequests := by
  obtain ⟨-, c, seen, hf, hvisits, hseen⟩ := h.threads _ ht
  have hrequested : ∀ y, Settled cfg.repository.digest sh.client y → y ∉ filter →
      y ∈ sh.client.deleteRequests :=
    fun y hy hyf => hy.requested hdigest (h.client.hashFilter ▸ hyf)
  intro c' hf'
  change c.objects ++ [j.hash] = seen ++ x :: rest at hvisits
  rcases eq_nil_or_concat rest with rfl | ⟨rest', z, rfl⟩
  · obtain ⟨rfl, hx⟩ := append_inj' hvisits rfl
    cases hx
    obtain rfl : c = c' := by
      have heq := hf.symm.trans hf'
      cases heq
      rfl
    have hnest : NestedDone cfg.env sh.done j.hash :=
      hd.passed j (.inr (mem_flatMap.mpr ⟨_, ht, by simp [Task.passed]⟩))
    refine ⟨fun o ho hof => hrequested o (hseen o ho) hof, fun d hb hs hdf => ?_⟩
    exact hrequested d (settled_of_done hm h (hd.below_done hnest hb) hs) hdf
  · -- An object is no catalog, so nothing is condemned with it.
    have hassoc : c.objects ++ [j.hash] = (seen ++ x :: rest') ++ [z] := by simpa using hvisits
    obtain ⟨hobj, -⟩ := append_inj' hassoc rfl
    exact absurd hf' (cfg.repository.object_not_catalog j.hash c x hf (by simp [hobj]) c')

theorem Ordered.advance {t t'}
    (ht : t ∈ ts) (ho : Ordered cfg.repository filter sh.client.deleteRequests)
    (hadv : sh.advance cfg.env (cfg.mode (.sweep toSweep))
      (sweepDataObjects cfg.repository.digest cfg.dryRun) t = some (sh', t')) :
    Ordered cfg.repository filter sh'.client.deleteRequests := by
  cases t with
  | idle | popPre | prepare | report | enter =>
    simp only [Shared.advance] at hadv
    repeat' split at hadv
    all_goals cases hadv
    all_goals exact ho
  | link j c =>
    have hok := h.threads _ ht
    simp only [Shared.advance] at hadv
    split at hadv
    · cases hadv
    case h_2 hpush =>
      cases hadv
      rw [(Pushes.pushReferences rfl hok.1 hok.2 hpush).1.client]
      exact ho
  | calling j rest =>
    cases rest with
    | nil =>
      simp only [Shared.advance] at hadv
      split at hadv <;> cases hadv <;> exact ho
    | cons x rest =>
      cases hadv
      change Ordered _ _
        (sh.client.checkAndSweep cfg.repository.digest cfg.dryRun x).deleteRequests
      obtain ⟨-, heq⟩ | ⟨-, hreq, -⟩ : Settled cfg.repository.digest _ _ ∧ _ ∨ _ :=
        checkAndSweep_requests cfg.dryRun sh.client x
      · rwa [heq]
      · rw [hreq]
        exact ho.concat (cleared_of_calling hm h hd hdigest ht)
  | finalize j =>
    obtain ⟨-, -, -, -, -, hclient, -⟩ := finalizeJob_spec (e := cfg.env) sh j
    cases hadv
    change Ordered _ _ (sh.finalizeJob cfg.env j).client.deleteRequests
    rwa [hclient]
  | wake ps =>
    cases ps with
    | nil => cases hadv; exact ho
    | cons p ps =>
      obtain ⟨-, -, -, -, -, hclient⟩ := onChildFinished_spec sh p
      cases hadv
      rwa [hclient]
  | stopped => cases hadv

end

end

end

end Sweep

end Cvmfs.Gc
