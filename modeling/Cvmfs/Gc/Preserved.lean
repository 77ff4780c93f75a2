import Cvmfs.Gc.Visits

/-! # Preserved revisions and garbage

What the collector is for, in terms of the repository alone. The *trunk* is the
chain of revisions that starts at the head and goes on to the predecessor of a
revision as long as that revision hits no threshold; the trunk and the tagged
revisions are preserved. *Garbage* is what the tree of some other reflog entry
contains and no preserved tree does.

The second half gives the three passes their provenance and their listeners the
facts they keep, in the terms of `Cvmfs.Gc.Visits`.
-/

namespace Cvmfs.Gc

open Relation Option

variable {H : Type}

namespace Repository

/-- The catalog `b` is a nested catalog of `a`. -/
def Nests (R : Repository H) (a b : H) : Prop := ∃ c, R.fetch a = .ok c ∧ b ∈ c.nested

/-- The catalog `h` belongs to the tree of the catalog `r`. -/
def InTree (R : Repository H) : H → H → Prop := ReflTransGen R.Nests

/-- The tree of `r` has the hash `x`, as a catalog, a data object or a chunk. -/
def Contains (R : Repository H) (r x : H) : Prop :=
  ∃ h, R.InTree r h ∧ (x = h ∨ ∃ c, R.fetch h = .ok c ∧ x ∈ c.objects)

end Repository

/-- Depth and age are the two thresholds of a revision. -/
def HitsThreshold (depth : Nat) (timestamp : Int) (c : Catalog H) (d : Nat) : Prop :=
  depth ≤ d ∨ (c.lastModified : Int) < timestamp

/-- `Trunk R depth timestamp d h`: the revision `d` steps behind the head is `h`
and none in between hits a threshold. -/
inductive Trunk (R : Repository H) (depth : Nat) (timestamp : Int) : Nat → H → Prop
  | head {h} : R.head = some h → Trunk R depth timestamp 0 h
  | previous {d h c p} : Trunk R depth timestamp d h → R.fetch h = .ok c →
      c.previous = some p → ¬ HitsThreshold depth timestamp c d →
      Trunk R depth timestamp (d + 1) p

def Preserved (R : Repository H) (depth : Nat) (timestamp : Int) (r : H) : Prop :=
  (∃ d, Trunk R depth timestamp d r) ∨ ∃ tags, R.history = .ok tags ∧ r ∈ tags

def Live (R : Repository H) (depth : Nat) (timestamp : Int) (x : H) : Prop :=
  ∃ r, Preserved R depth timestamp r ∧ R.Contains r x

/-- **Garbage**: reachable from a reflog entry that is not preserved, and from
no preserved revision. -/
def Garbage (R : Repository H) (depth : Nat) (timestamp : Int) (x : H) : Prop :=
  (∃ r ∈ R.reflog, ¬ Preserved R depth timestamp r ∧ R.Contains r x) ∧ ¬ Live R depth timestamp x

variable {R : Repository H} {depth : Nat} {timestamp : Int}

variable {r h : H} {c : Catalog H}

theorem Repository.InTree.nested {n} (hr : R.InTree r h) (hf : R.fetch h = .ok c)
    (hn : n ∈ c.nested) : R.InTree r n :=
  ReflTransGen.tail hr ⟨c, hf, hn⟩

theorem Repository.InTree.contains {x} (hr : R.InTree r h) (hx : R.Contains h x) :
    R.Contains r x := by
  obtain ⟨g, hg, hx⟩ := hx
  exact ⟨g, ReflTransGen.trans hr hg, hx⟩

variable {d : Nat}

section

variable (ht : Trunk R depth timestamp d h)
include ht

theorem Trunk.unique {h'} (ht' : Trunk R depth timestamp d h') : h = h' := by
  induction ht generalizing h' with
  | head hh =>
    cases ht' with
    | head hh' => rw [hh] at hh'; exact some.inj hh'
  | previous _ hf hp _ ih =>
    cases ht' with
    | previous ht₀ hf' hp' _ =>
      have heq := ih ht₀
      subst heq
      rw [hf] at hf'
      cases hf'
      rw [hp] at hp'
      exact some.inj hp'

theorem Trunk.ancestor : Ancestor R.fetch R.head h := by
  induction ht with
  | head hh => exact .head hh
  | previous _ hf hp _ ih => exact .previous ih hf hp

theorem Trunk.not_nested : ¬ TransGen R.Nests r h := by
  intro htr
  obtain ⟨a, -, c, hf, hn⟩ := TransGen.tail'_iff.mp htr
  exact R.ancestor_not_nested a c h hf hn ht.ancestor

end

/-! ## Provenance -/

/-- The threshold that the comparison of the code works with. -/
def cutTimestamp (timestamp : Int) : Int :=
  if timestamp < 0 then timestamp else timestamp % 2 ^ 32

theorem cutTimestamp_of_lt (h : timestamp < 2 ^ 32) : cutTimestamp timestamp = timestamp := by
  unfold cutTimestamp
  split <;> omega

theorem isBelowPruningThresholds_false {m j} (h : isBelowPruningThresholds m j c = some false) :
    ¬ HitsThreshold m.historyDepth (cutTimestamp m.timestampThreshold) c j.historyDepth := by
  obtain ⟨_, h⟩ := ite_none_left_eq_some.1 h
  simp only [some.injEq, Bool.or_eq_false_iff, decide_eq_false_iff_not] at h
  simp only [HitsThreshold, cutTimestamp, if_neg ‹_›]
  omega

theorem isBelowPruningThresholds_true {m j} (h : isBelowPruningThresholds m j c = some true) :
    HitsThreshold m.historyDepth (cutTimestamp m.timestampThreshold) c j.historyDepth := by
  obtain ⟨_, h⟩ := ite_none_left_eq_some.1 h
  simp only [some.injEq, Bool.or_eq_true, decide_eq_true_eq] at h
  simp only [HitsThreshold, cutTimestamp, if_neg ‹_›]
  omega

namespace Configuration

variable (cfg : Configuration H)

/-- The trunk as the code walks it. -/
abbrev OnTrunk (d : Nat) (h : H) : Prop :=
  Trunk cfg.repository cfg.keepHistoryDepth (cutTimestamp cfg.keepHistoryTimestamp) d h

abbrev Keeps (r : H) : Prop :=
  Preserved cfg.repository cfg.keepHistoryDepth (cutTimestamp cfg.keepHistoryTimestamp) r

abbrev IsLive (x : H) : Prop :=
  Live cfg.repository cfg.keepHistoryDepth (cutTimestamp cfg.keepHistoryTimestamp) x

/-- A root job of the first pass sits on the trunk, at the least depth at which
its catalog occurs there, and everything up to that depth is known. -/
structure TrunkJob (K : H → Prop) (j : Job H) : Prop where
  level : j.treeLevel = 0
  onTrunk : cfg.OnTrunk j.historyDepth j.hash
  least : ∀ d, cfg.OnTrunk d j.hash → j.historyDepth ≤ d
  known : ∀ d h, d ≤ j.historyDepth → cfg.OnTrunk d h → K h

def BelowTrunk (j : Job H) : Prop :=
  0 < j.treeLevel ∧ ∃ d r, cfg.OnTrunk d r ∧ TransGen cfg.repository.Nests r j.hash

theorem TrunkJob.previous {cfg : Configuration H} {K : H → Prop} {j : Job H} {c : Catalog H} {p : H}
    (i : Nat) (ht : cfg.TrunkJob K j) (hf : cfg.repository.fetch j.hash = .ok c)
    (hp : c.previous = some p)
    (hb : isBelowPruningThresholds (cfg.mode .trunk) j c = some false) (hK : ¬ K p) :
    cfg.TrunkJob (fun h => K h ∨ h = p) ⟨i, p, 0, j.historyDepth + 1⟩ := by
  have hnext : cfg.OnTrunk (j.historyDepth + 1) p :=
    .previous ht.onTrunk hf hp (isBelowPruningThresholds_false hb)
  refine ⟨rfl, hnext, fun d hd => ?_, fun d h hd ht' => ?_⟩
  · by_contra hlt
    exact hK (ht.known d p (by simp only at hlt; omega) hd)
  rcases Nat.lt_or_ge j.historyDepth d with hlt | hle
  · have heq : d = j.historyDepth + 1 := by simp only at hd; omega
    subst heq
    exact .inr (ht'.unique hnext)
  · exact .inl (ht.known d h hle ht')

def trunkProvenance : Provenance cfg.env (cfg.mode .trunk) where
  Origin K j := cfg.TrunkJob K j ∨ cfg.BelowTrunk j
  mono hK h := h.imp (fun ht => { ht with known := fun d x hd hx => hK x (ht.known d x hd hx) }) id
  nested i h hf hn := by
    refine .inr ⟨Nat.succ_pos _, ?_⟩
    rcases h with ht | ⟨-, d, r, hr, htr⟩
    · exact ⟨_, _, ht.onTrunk, .single ⟨_, hf, hn⟩⟩
    · exact ⟨d, r, hr, .tail htr ⟨_, hf, hn⟩⟩
  previous i h hf hl hp hb hK := by
    rcases h with ht | ⟨hpos, -⟩
    · exact .inl (ht.previous i hf hp hb hK)
    · omega

/-- `TraverseList` visits the trees of its list and no previous revision. -/
def listProvenance (phase : Phase H) (hdepth : (cfg.mode phase).historyDepth = 0)
    (hts : (cfg.mode phase).timestampThreshold = 0) (list : List H) :
    Provenance cfg.env (cfg.mode phase) where
  Origin _ j := ∃ r ∈ list, cfg.repository.InTree r j.hash
  mono _ h := h
  nested _ h hf hn := by
    obtain ⟨r, hr, ht⟩ := h
    exact ⟨r, hr, ht.nested hf hn⟩
  previous _ _ _ _ _ hb _ := by
    simp [isBelowPruningThresholds, hdepth, hts] at hb

end Configuration

end Cvmfs.Gc
