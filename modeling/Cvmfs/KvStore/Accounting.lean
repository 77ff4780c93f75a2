import Cvmfs.KvStore.MemoryKvStore
import Mathlib.Data.List.Nodup
import Mathlib.Data.List.Perm.Basic

/-!
# The accounting of the key-value store

A run in which every overwriting commit gets its memory keeps the counters, the blocks and the
contents exact. Otherwise `DoCommit` returns with the entry in place and its memory freed.
-/

namespace Cvmfs.KvStore

open Lib MemoryKvStore Function List Nat

variable {Id : Type}

/-! ## Blocks -/

/-- The blocks in use. -/
def live (blocks : List (Block Id)) : List (Block Id) := blocks.filter fun b => !b.free

theorem live_append (x y : List (Block Id)) : live (x ++ y) = live x ++ live y :=
  filter_append ..

variable {b c : Block Id}

theorem live_free {l} (h : b.free = true) : live (b :: l) = live l := by
  simp [live, h]

theorem live_used {l} (h : ¬ b.free = true) : live (b :: l) = b :: live l := by
  simp [live, h]

/-- The blocks of a heap lie behind each other. -/
def Sorted (blocks : List (Block Id)) : Prop := blocks.Pairwise fun a b => a.stop ≤ b.address

variable {blocks : List (Block Id)}

theorem Sorted.apart (h : Sorted blocks) : ((live blocks).map Block.address).Nodup := by
  refine pairwise_map.mpr ((h.sublist filter_sublist).imp fun hab => ?_)
  simp only [Block.stop] at hab
  omega

theorem live_markFree (blocks : List (Block Id)) (a : Nat) :
    live (blocks.map (Block.markFree a)) = (live blocks).filter fun b => b.address ≠ a := by
  induction blocks with
  | nil => rfl
  | cons b blocks ih =>
    by_cases ha : b.address = a <;> cases hf : b.free <;> simp_all [live, Block.markFree]

theorem markFree_place (a : Nat) (b : Block Id) :
    (b.markFree a).address = b.address ∧ (b.markFree a).stop = b.stop := by
  unfold Block.markFree
  split <;> exact ⟨rfl, rfl⟩

theorem Sorted.markFree (h : Sorted blocks) (a : Nat) : Sorted (blocks.map (Block.markFree a)) :=
  pairwise_map.mpr (h.imp fun hab => by simpa only [markFree_place] using hab)

/-! ## The invariant -/

/-- The blocks `l` are the memory of the entries and hold the `last` bytes of their ids. -/
structure Backed (l : List (Block Id)) (entries : List (MemoryBuffer Id))
    (last : Id → List UInt8) : Prop where
  ids : (entries.map MemoryBuffer.id).Nodup
  names : (l.map Block.id).Nodup
  apart : (l.map Block.address).Nodup
  sizes : ∀ m ∈ entries, m.size = (last m.id).length ∧ (m.address = none ↔ m.size = 0)
  placed : ∀ m ∈ entries, ∀ a, m.address = some a →
    ∃ b ∈ l, b.id = m.id ∧ b.address = a ∧ b.content = last m.id
  owned : ∀ b ∈ l, ∃ m ∈ entries, m.id = b.id ∧ m.address = some b.address

variable {l : List (Block Id)} {entries : List (MemoryBuffer Id)} {last : Id → List UInt8}
variable {m n : MemoryBuffer Id}

theorem Backed.entry_unique (h : Backed l entries last) (hm : m ∈ entries) (hn : n ∈ entries)
    (hid : m.id = n.id) : m = n :=
  inj_on_of_nodup_map h.ids hm hn hid

theorem Backed.block_unique (h : Backed l entries last) (hb : b ∈ l)
    (hc : c ∈ l) (ha : b.address = c.address) : b = c :=
  inj_on_of_nodup_map h.apart hb hc ha

/-- Counters, entries and blocks agree, and a heap is in order below its gauge. -/
structure Sound (s : MemoryKvStore Id) (last : Id → List UInt8) : Prop
    extends Backed (live s.blocks) s.entries last where
  used : s.usedBytes = (s.entries.map MemoryBuffer.size).sum
  small : s.usedBytes < 2 ^ 63
  count : s.entryCount = s.entries.length
  bound : s.entryCount ≤ s.maxEntries.toNat
  heap : s.allocator ≠ .mallocLibc → Sorted s.blocks ∧ ∀ b ∈ s.blocks, b.stop ≤ s.gauge

variable {s t : MemoryKvStore Id}

theorem release_spec (ht : s.release m = some t) :
    t = { s with
      blocks := t.blocks
      usedBytes := (s.usedBytes + 2 ^ 64 - m.size) % 2 ^ 64
      entryCount := (s.entryCount + 2 ^ 32 - 1) % 2 ^ 32 } ∧
    live t.blocks = (live s.blocks).filter (fun b => m.address ≠ some b.address) ∧
    ∃ a, t.blocks = s.blocks ∨ t.blocks = s.blocks.map (Block.markFree a) := by
  obtain ⟨u, hu, rfl⟩ := Option.map_eq_some_iff.mp ht
  unfold doFree at hu
  split at hu
  · rename_i ha
    cases hu
    exact ⟨rfl, by simp [ha], 0, .inl rfl⟩
  rename_i a ha
  split at hu
  · cases hu
  cases hu
  refine ⟨rfl, ?_, a, .inr rfl⟩
  simp only [live_markFree, ha, ne_eq, Option.some.injEq, eq_comm]

/-- A block at an address that libc gives, or at the gauge, which is at its end then. -/
def Fresh (s : MemoryKvStore Id) (b : Block Id) (gauge : Nat) : Prop :=
  s.allocator = .mallocLibc ∧ s.block? b.address = none ∨
    s.allocator ≠ .mallocLibc ∧ b.address = s.gauge ∧ gauge = b.stop

theorem doMalloc_spec {id : Id} {content malloc a}
    (h : s.doMalloc id content malloc = some (a, t)) :
    ∃ b : Option (Block Id), (a = none ↔ content = []) ∧ a = b.map Block.address ∧
      ∃ g, t = { s with blocks := s.blocks ++ b.toList, gauge := g } ∧
      (b = none → g = s.gauge) ∧
      ∀ c ∈ b, c.id = id ∧ c.content = content ∧ c.free = false ∧ Fresh s c g := by
  unfold doMalloc at h
  split at h
  · cases h
    exact ⟨none, by simpa⟩
  rename_i hne
  split at h
  · rename_i hlibc
    split at h
    · cases h
    split at h
    · cases h
      exact ⟨some _, by simp [hne], rfl, _, rfl, nofun, fun _ hc =>
        Option.mem_some.mp hc ▸ ⟨rfl, rfl, rfl, .inl ⟨hlibc, ‹_›⟩⟩⟩
    · cases h
  rename_i hheap
  dsimp only at h
  split at h
  · cases h
  cases h
  refine ⟨some _, by simp [hne], rfl, _, rfl, nofun, fun _ hc =>
    Option.mem_some.mp hc ▸ ⟨rfl, rfl, rfl, .inr ⟨by simp [hheap], rfl, ?_⟩⟩⟩
  simp only [Block.stop]
  omega

theorem Sound.fresh (h : Sound s last) {g} (hb : Fresh s b g) :
    b.address ∉ (live s.blocks).map Block.address := by
  intro hmem
  obtain ⟨c, hc, he⟩ := mem_map.mp hmem
  have hc := mem_filter.mp hc
  obtain ⟨-, hnone⟩ | ⟨hheap, hgauge, -⟩ := hb
  · exact find?_eq_none.mp hnone c hc.1 (by simpa using ⟨by simpa using hc.2, he⟩)
  · have := (h.heap hheap).2 c hc.1
    simp only [Block.stop] at this
    omega

variable [DecidableEq Id]

theorem mem_of_find {id : Id} (h : s.find id = some m) : m ∈ s.entries ∧ m.id = id :=
  ⟨mem_of_find?_eq_some h, by simpa using find?_some h⟩

/-! ## Blocks and entries -/

theorem Backed.release (h : Backed l entries last) (hm : m ∈ entries) :
    Backed (l.filter fun b => m.address ≠ some b.address)
      (entries.filter fun n => n.id ≠ m.id) last where
  ids := h.ids.sublist (filter_sublist.map _)
  names := h.names.sublist (filter_sublist.map _)
  apart := h.apart.sublist (filter_sublist.map _)
  sizes := fun n hn => h.sizes n (mem_of_mem_filter hn)
  placed := by grind [h.placed, h.block_unique]
  owned := by grind [h.owned, h.entry_unique]

/-- An entry up to the place of its memory. -/
def MemoryBuffer.core (m : MemoryBuffer Id) : MemoryBuffer Id := { m with address := none }

theorem core_onBlockMove (b : Block Id) (m : MemoryBuffer Id) :
    (onBlockMove b m).core = m.core := by
  unfold onBlockMove
  split <;> rfl

theorem id_onBlockMove (b : Block Id) (m : MemoryBuffer Id) : (onBlockMove b m).id = m.id := by
  have h := congrArg MemoryBuffer.id (core_onBlockMove b m)
  exact h

theorem Backed.move {x y : List (Block Id)} (h : Backed (x ++ b :: y) entries last)
    (hc : c.id = b.id ∧ c.content = b.content) (ha : ((x ++ c :: y).map Block.address).Nodup) :
    Backed (x ++ c :: y) (entries.map (onBlockMove c)) last := by
  have hb : b ∈ x ++ b :: y := by simp
  have hne : ∀ d ∈ x ++ y, d.id ≠ b.id := by
    have := h.names
    grind
  have hset : ∀ m ∈ entries, m.id = b.id → m.address = some b.address := by
    grind [h.owned b hb, h.entry_unique]
  exact {
    ids := by simpa [comp_def, id_onBlockMove] using h.ids
    names := by simpa [hc.1] using h.names
    apart := ha
    sizes := forall_mem_map.mpr fun m hm => by grind [h.sizes m hm, onBlockMove]
    placed := forall_mem_map.mpr fun m hm => by grind [h.placed m hm, onBlockMove]
    owned := fun d hd => by
      by_cases hdc : d = c
      · obtain ⟨n, hn, hid, -⟩ := h.owned b hb
        exact ⟨_, mem_map_of_mem hn, by grind [onBlockMove]⟩
      · obtain ⟨n, hn, hid, ha⟩ := h.owned d (by grind)
        exact ⟨_, mem_map_of_mem hn, by grind [onBlockMove]⟩ }

variable {content : List UInt8}

theorem Backed.add (h : Backed l entries last) (hm : ∀ n ∈ entries, n.id ≠ m.id)
    (hsize : m.size = content.length) (hnone : m.address = none ↔ m.size = 0)
    {b : Option (Block Id)} (hb : m.address = b.map Block.address)
    (hnew : ∀ c ∈ b, c.id = m.id ∧ c.content = content ∧ c.address ∉ l.map Block.address) :
    Backed (l ++ b.toList) (entries ++ [m]) (update last m.id content) where
  ids := by
    have := h.ids
    grind
  names := by
    have hl := h.names
    have := h.owned
    cases b <;> grind
  apart := by
    have := h.apart
    cases b <;> grind
  sizes := by grind [h.sizes, update_apply]
  placed := by cases b <;> grind [h.placed, update_apply]
  owned := by grind [h.owned]

theorem perm_cons_filter {l : List (MemoryBuffer Id)} (h : (l.map MemoryBuffer.id).Nodup)
    (hm : m ∈ l) : l.Perm (m :: l.filter fun n => n.id ≠ m.id) := by
  induction l with
  | nil => cases hm
  | cons n l ih =>
    obtain ⟨hn, hl⟩ := nodup_cons.mp h
    obtain rfl | hm := mem_cons.mp hm
    · rw [filter_cons_of_neg (by simp), filter_eq_self.mpr]
      grind
    · rw [filter_cons_of_pos (by grind)]
      exact ((ih hl hm).cons n).trans (.swap _ _ _)

theorem Backed.touch (h : Backed l entries last) (hm : m ∈ entries)
    (hn : n.id = m.id ∧ n.size = m.size ∧ n.address = m.address) :
    Backed l (entries.filter (fun x => x.id ≠ n.id) ++ [n]) last where
  ids := by
    have := h.ids
    grind
  names := h.names
  apart := h.apart
  sizes := by grind [h.sizes]
  placed := by grind [h.placed]
  owned := by grind [h.owned, h.entry_unique]

/-- The compaction keeps every block with its owner. `front` are the blocks it has passed. -/
theorem squeeze_spec {cur : Block Id} {rest} (front : List (Block Id))
    (hs : Sorted (front ++ cur :: rest)) (h : Backed (live (front ++ cur :: rest)) entries last) :
    Sorted (front ++ (squeeze cur rest entries).1) ∧
    (∀ b ∈ front ++ (squeeze cur rest entries).1, b.stop ≤ (squeeze cur rest entries).2.1) ∧
    Backed (live (front ++ (squeeze cur rest entries).1)) (squeeze cur rest entries).2.2 last ∧
    (squeeze cur rest entries).2.2.map MemoryBuffer.core = entries.map MemoryBuffer.core := by
  fun_induction squeeze cur rest entries generalizing front with
  | case1 cur entries hfree =>
    have h : Backed (live front) entries last := by simpa [live, hfree] using h
    obtain ⟨hs, -, hcur⟩ := pairwise_append.mp hs
    simpa using ⟨hs, fun b hb => hcur b hb cur (by simp), h⟩
  | case2 cur entries hfree =>
    refine ⟨hs, fun b hb => ?_, h, rfl⟩
    have := (pairwise_append.mp hs).2.2 b
    grind [Block.stop]
  | case3 cur next rest entries hfree hnext ih =>
    refine ih front ?_ ?_
    · simp only [Sorted, pairwise_append, pairwise_cons] at hs ⊢
      grind [Block.stop]
    · rw [live_append, live_free hfree, live_free hnext] at h
      rwa [live_append, live_free (by exact hfree)]
  | case4 cur next rest entries hfree hnext moved r ih =>
    have hs' : Sorted (front ++ [moved] ++ { cur with address := moved.stop } :: rest) := by
      simp only [Sorted, pairwise_append, pairwise_cons] at hs ⊢
      grind [Block.stop]
    have hlive : live (front ++ [moved] ++ { cur with address := moved.stop } :: rest) =
        live front ++ moved :: live rest := by
      simp [live, hfree, hnext, moved]
    rw [live_append, live_free hfree, live_used hnext] at h
    have h' := ih (front ++ [moved]) hs' (hlive ▸ h.move ⟨rfl, rfl⟩ (hlive ▸ hs'.apart))
    simpa [map_map, comp_def, core_onBlockMove] using h'
  | case5 cur next rest entries hfree r ih =>
    simpa using ih (front ++ [cur]) (by simpa using hs) (by simpa using h)

/-! ## Operations -/

theorem Sound.compactMemory (h : Sound s last) : Sound s.compactMemory last ∧
    s.compactMemory.entries.map MemoryBuffer.core = s.entries.map MemoryBuffer.core ∧
    s.compactMemory.usedBytes = s.usedBytes ∧ s.compactMemory.entryCount = s.entryCount := by
  unfold MemoryKvStore.compactMemory
  split
  · exact ⟨h, rfl, rfl, rfl⟩
  rename_i hheap
  split
  · unfold compact
    split
    · exact ⟨h, rfl, rfl, rfl⟩
    rename_i b bs hblocks
    have hs := (h.heap (by simp [hheap])).1
    have hb := h.toBacked
    rw [hblocks] at hs hb
    obtain ⟨hs, hgauge, hb, hcore⟩ := squeeze_spec [] hs hb
    have hsizes := congrArg (map MemoryBuffer.size) hcore
    have hlen := congrArg length hcore
    simp only [map_map, length_map] at hsizes hlen
    exact ⟨{ h with
      toBacked := hb
      used := h.used.trans (congrArg sum hsizes.symm)
      count := h.count.trans hlen.symm
      heap := fun _ => ⟨hs, hgauge⟩ }, hcore, rfl, rfl⟩
  · exact ⟨h, rfl, rfl, rfl⟩

theorem Sound.touch (h : Sound s last) (hm : m ∈ s.entries)
    (hn : n.id = m.id ∧ n.size = m.size ∧ n.address = m.address) : Sound (s.touch n) last := by
  have hperm := perm_cons_filter h.ids hm
  have hsum := (hperm.map MemoryBuffer.size).sum_nat
  have hlen := hperm.length_eq
  exact { h with
    toBacked := h.toBacked.touch hm hn
    used := by simp [MemoryKvStore.touch, h.used, hsum, hn.1, hn.2.1, add_comm]
    count := by simp [MemoryKvStore.touch, h.count, hlen, hn.1] }

theorem Sound.release (h : Sound s last) (hm : m ∈ s.entries) (ht : s.release m = some t) :
    Sound { t with entries := s.entries.filter fun n => n.id ≠ m.id } last := by
  obtain ⟨he, hlive, a, hblocks⟩ := release_spec ht
  have hperm := perm_cons_filter h.ids hm
  have hsum := (hperm.map MemoryBuffer.size).sum_nat
  have hlen := hperm.length_eq
  simp only [map_cons, sum_cons, length_cons] at hsum hlen
  have hback := h.toBacked.release hm
  obtain ⟨-, hused, hsmall, hcount, hbound, hheap⟩ := h
  have hmax := s.maxEntries.toNat_lt
  rw [he]
  constructor
  case toBacked => exact hlive ▸ hback
  case used | small | count | bound => simp only; omega
  case heap =>
    intro hne
    obtain ⟨hs, hg⟩ := hheap hne
    obtain hb | hb := hblocks
    · exact hb ▸ ⟨hs, hg⟩
    · simp only [hb]
      exact ⟨hs.markFree a, forall_mem_map.mpr fun b hb => by
        simpa only [markFree_place] using hg b hb⟩

theorem Sound.add {malloc} (h : Sound { s with entries := entries } last)
    (hnew : ∀ n ∈ entries, n.id ≠ m.id) (hsize : m.size = content.length)
    (ht : s.doMalloc m.id content malloc = some (m.address, t))
    (hroom : s.entryCount < s.maxEntries.toNat) (hsmall : s.usedBytes + m.size < 2 ^ 63) :
    Sound { t with
      entries := entries ++ [m]
      entryCount := s.entryCount + 1
      usedBytes := s.usedBytes + m.size } (update last m.id content) := by
  obtain ⟨b, hnone, hb, g, rfl, hg, hc⟩ := doMalloc_spec ht
  have hlive : live (s.blocks ++ b.toList) = live s.blocks ++ b.toList := by
    cases b with
    | none => simp [live]
    | some c => simp [live, hc c rfl]
  have hused := h.used
  have hcount := h.count
  exact {
    toBacked := hlive ▸ h.toBacked.add hnew hsize (by simp [hnone, hsize]) hb fun c hcb =>
      ⟨(hc c hcb).1, (hc c hcb).2.1, h.fresh (hc c hcb).2.2.2⟩
    used := by simp_all
    small := hsmall
    count := by simp_all
    bound := hroom
    heap := fun hheap => by
      obtain ⟨hs, hbelow⟩ := h.heap hheap
      cases b with
      | none => simpa [hg rfl] using ⟨hs, hbelow⟩
      | some c =>
        obtain ⟨hlibc, -⟩ | ⟨-, haddr, rfl⟩ := (hc c rfl).2.2.2
        · exact absurd hlibc hheap
        · refine ⟨pairwise_append.mpr ⟨hs, by simp, ?_⟩, ?_⟩ <;> grind [Block.stop] }

theorem Sound.read (h : Sound s last) {id : Id} (hm : s.find id = some m) (size offset : Nat) :
    s.read id size offset = .ok (((last id).drop offset).take size) := by
  obtain ⟨hmem, rfl⟩ := mem_of_find hm
  obtain ⟨hsize, hnone⟩ := h.sizes m hmem
  simp only [MemoryKvStore.read, hm]
  split
  · rw [drop_eq_nil_of_le (by omega), take_nil]
  split
  · rename_i ha
    rw [length_eq_zero_iff.mp (hsize.symm.trans (hnone.mp ha))]
    simp
  rename_i a ha
  obtain ⟨b, hb, -, hba, hc⟩ := h.placed m hmem a ha
  have hlive := mem_filter.mp hb
  cases hf : s.block? a with
  | none =>
    exact absurd (find?_eq_none.mp hf b hlive.1) (by simpa [hba] using hlive.2)
  | some c =>
    have hcp := find?_some hf
    simp only [Bool.and_eq_true, decide_eq_true_eq] at hcp
    have hcl : c ∈ live s.blocks := mem_filter.mpr ⟨mem_of_find?_eq_some hf, hcp.1⟩
    cases h.block_unique hcl hb (hcp.2.trans hba.symm)
    simp only [hc, hsize]
    rw [← length_drop, min_comm, ← take_eq_take_min]

variable {o : Object Id}

theorem place_failed {refcount malloc status}
    (ht : s.place o refcount malloc = some (status, t)) (hne : status ≠ .ok) :
    t = s ∧ (s.entryCount = s.maxEntries.toNat ∨ s.doMalloc o.id o.content malloc = none) := by
  unfold place at ht
  split at ht
  · cases ht
    exact ⟨rfl, .inl ‹_›⟩
  split at ht
  · cases ht
    exact ⟨rfl, .inr ‹_›⟩
  split at ht
  · cases ht
    exact absurd rfl hne
  · cases ht

theorem Sound.place {refcount malloc}
    (h : Sound { s with entries := s.entries.filter fun n => n.id ≠ o.id } last)
    (ht : s.place o refcount malloc = some (.ok, t)) :
    Sound t (update last o.id o.content) := by
  unfold MemoryKvStore.place at ht
  split at ht
  · cases ht
  rename_i hroom
  split at ht
  · cases ht
  rename_i a u hu
  split at ht
  · rename_i hsmall
    cases ht
    obtain ⟨b, g, rfl⟩ : ∃ b g, u = { s with blocks := b, gauge := g } := by
      obtain ⟨b, -, -, g, rfl, -⟩ := doMalloc_spec hu
      exact ⟨_, _, rfl⟩
    have hroom : s.entryCount < s.maxEntries.toNat := lt_of_le_of_ne h.bound hroom
    rw [lruInsert, if_neg]
    · have := h.add (m := ⟨o.id, a, o.content.length, refcount, o.objectFlags⟩) (by simp) rfl hu
        hroom (lt_of_lt_of_le hsmall (by decide))
      exact this
    -- a new id is among those that are counted
    intro ⟨hnone, hfull⟩
    have hcount : s.entryCount = (s.entries.filter fun n => n.id ≠ o.id).length := h.count
    rw [filter_eq_self.mpr fun n hn => by
      simpa using find?_eq_none.mp hnone n hn] at hcount
    simp only at hfull
    omega
  · cases ht

theorem Sound.commit (h : Sound s last) {malloc status}
    (ht : s.commit o malloc = some (status, t))
    (hcareful : ∀ m u, s.compactMemory.find o.id = some m →
      (s.compactMemory.touch m).release m = some u →
      (u.doMalloc o.id o.content malloc).isSome = true) :
    Sound t (if status = .ok then update last o.id o.content else last) := by
  have hc := h.compactMemory.1
  unfold MemoryKvStore.commit at ht
  split at ht
  · rename_i hnone
    by_cases hok : status = .ok
    · subst hok
      refine Sound.place (s := s.compactMemory) ?_ ht
      rw [filter_eq_self.mpr fun n hn => by
        simpa using find?_eq_none.mp hnone n hn]
      exact hc
    · rw [if_neg hok]
      obtain ⟨rfl, -⟩ := place_failed ht hok
      exact hc
  rename_i m hm
  obtain ⟨hmem, hid⟩ := mem_of_find hm
  split at ht
  · cases ht
  rename_i u hu
  have htouch := hc.touch hmem ⟨rfl, rfl, rfl⟩
  have hin : m ∈ (s.compactMemory.touch m).entries := by simp [MemoryKvStore.touch]
  have hr := htouch.release hin hu
  have hlen := (perm_cons_filter htouch.ids hin).length_eq
  have hcount := hr.count
  obtain ⟨he, -, -⟩ := release_spec hu
  have hentries : u.entries = (s.compactMemory.touch m).entries := by rw [he]
  have hmax : u.maxEntries = (s.compactMemory.touch m).maxEntries := by rw [he]
  rw [← hentries, hid] at hr
  by_cases hok : status = .ok
  · subst hok
    exact hr.place ht
  -- the room and the memory of the object are there
  obtain ⟨-, hfull | hnone⟩ := place_failed ht hok
  · have := htouch.count
    have := htouch.bound
    simp only [length_cons] at hlen hcount
    rw [hmax] at hfull
    omega
  · have := hcareful m u hm hu
    simp [hnone] at this

theorem Sound.remove (h : Sound s last) (hm : m ∈ s.entries) (ht : s.remove m = some t) :
    Sound t last ∧ t.entries = s.entries.filter fun n => n.id ≠ m.id := by
  unfold MemoryKvStore.remove at ht
  split at ht
  · cases ht
  obtain ⟨u, hu, rfl⟩ := Option.map_eq_some_iff.mp ht
  have hentries : u.entries = s.entries := by rw [(release_spec hu).1]
  rw [hentries]
  exact ⟨h.release hm hu, rfl⟩

theorem Sound.shrinkLoop (h : Sound s last) {size l} (hsub : l ⊆ s.entries)
    (hnodup : (l.map MemoryBuffer.id).Nodup) (ht : shrinkLoop size l s = some t) :
    Sound t last := by
  induction l generalizing s with
  | nil =>
    cases ht
    exact h
  | cons m l ih =>
    obtain ⟨hm, hl⟩ := cons_subset.mp hsub
    obtain ⟨hnew, hnodup⟩ := nodup_cons.mp hnodup
    rw [shrinkLoop] at ht
    split at ht
    · cases ht
      exact h
    split at ht
    · exact ih h hl hnodup ht
    split at ht
    · cases ht
    rename_i u hu
    obtain ⟨hsound, hentries⟩ := h.remove hm hu
    refine ih hsound (fun n hn => ?_) hnodup ht
    have hne : n.id ≠ m.id := fun he => hnew (he ▸ mem_map_of_mem hn)
    rw [hentries]
    exact mem_filter.mpr ⟨hl hn, by simpa using hne⟩

theorem Sound.step {r r' : Run Id} {e : Event Id} (h : Sound r.store r.last) (hg : Careful r e)
    (hr : r.step e = some r') : Sound r'.store r'.last := by
  cases e with
  | commit o malloc =>
    obtain ⟨⟨status, s⟩, hs, rfl⟩ := Option.map_eq_some_iff.mp hr
    have := h.commit hs hg
    cases status <;> exact this
  | delete id =>
    obtain ⟨s, hs, rfl⟩ := Option.map_eq_some_iff.mp hr
    unfold delete at hs
    split at hs
    · cases hs
      exact h
    rename_i m hm
    have htouch := h.touch (mem_of_find hm).1 ⟨rfl, rfl, rfl⟩
    split at hs
    · cases hs
      exact htouch
    · exact (htouch.remove (by simp [MemoryKvStore.touch]) hs).1
  | incRef id | unref id =>
    obtain ⟨s, hs, rfl⟩ := Option.map_eq_some_iff.mp hr
    simp only [incRef, unref] at hs
    split at hs
    · cases hs
      exact h
    rename_i m hm
    split at hs
    · cases hs
      exact h.touch (mem_of_find hm).1 ⟨rfl, rfl, rfl⟩
    · cases hs
  | read id =>
    cases hr
    cases hm : r.store.find id with
    | none => simpa [hm] using h
    | some m => simpa [hm] using h.touch (mem_of_find hm).1 ⟨rfl, rfl, rfl⟩
  | shrinkTo size =>
    obtain ⟨s, hs, rfl⟩ := Option.map_eq_some_iff.mp hr
    exact h.shrinkLoop (Subset.refl _) h.ids hs

theorem Sound.reach {allocator maxEntries} {r : Run Id}
    (h : (system allocator maxEntries).Reach Careful r) : Sound r.store r.last := by
  refine System.Reach.invariant (P := fun r : Run Id => Sound r.store r.last) (fun r hr => ?_)
    (fun r e r' hs hg hr => hs.step hg hr) h
  rw [show r.store = _ from hr]
  exact ⟨⟨.nil, .nil, .nil, by simp, by simp, by simp [live]⟩, rfl, by simp, rfl, zero_le _,
    fun _ => ⟨.nil, by simp⟩⟩

/-- **The accounting of the store.** In every run in which each overwriting commit gets its
memory, the counters are those of the entries, the live blocks are exactly the memory of the
entries that are not empty, and a present id is read as it was last committed. -/
theorem accounting_exact (allocator : MemoryAllocator) (maxEntries : UInt32) {r : Run Id}
    (h : (system allocator maxEntries).Reach Careful r) :
    r.store.usedBytes = (r.store.entries.map MemoryBuffer.size).sum ∧
    r.store.entryCount = r.store.entries.length ∧ r.store.entryCount ≤ r.store.maxEntries.toNat ∧
    ((live r.store.blocks).map fun b => (b.id, some b.address)).Perm
      ((r.store.entries.filter fun m => 0 < m.size).map fun m => (m.id, m.address)) ∧
    ∀ id m, r.store.find id = some m → ∀ size offset,
      r.store.read id size offset = .ok (((r.last id).drop offset).take size) := by
  have h := Sound.reach h
  refine ⟨h.used, h.count, h.bound, ?_, fun id m hm => h.read hm⟩
  refine (perm_ext_iff_of_nodup ?_ ?_).mpr fun ⟨id, a⟩ => ?_
  · refine Nodup.of_map (·.1) ?_
    rw [map_map]
    exact h.names
  · refine Nodup.of_map (·.1) ?_
    rw [map_map]
    exact h.ids.sublist (filter_sublist.map _)
  simp only [mem_map, mem_filter, decide_eq_true_eq, Prod.mk.injEq]
  constructor
  · rintro ⟨b, hb, rfl, rfl⟩
    obtain ⟨m, hm, hid, ha⟩ := h.owned b hb
    have := (h.sizes m hm).2.not.mp (by simp [ha])
    exact ⟨m, ⟨hm, by omega⟩, hid, ha⟩
  · rintro ⟨m, ⟨hm, hpos⟩, rfl, rfl⟩
    obtain ⟨a, ha⟩ := Option.ne_none_iff_exists'.mp ((h.sizes m hm).2.not.mpr (by omega))
    obtain ⟨b, hb, hid, rfl, -⟩ := h.placed m hm a ha
    exact ⟨b, hb, hid, ha.symm⟩

/-- An object is committed twice. The heap is compacted for the third commit. -/
def overwriting : List (Event Nat) :=
  [.commit ⟨1, [7], 0, 0⟩ none, .commit ⟨1, [8, 9], 0, 0⟩ none, .commit ⟨2, [5], 0, 0⟩ none]

def heapRun : Run Nat := ⟨{ allocator := .mallocHeap 200, maxEntries := 128 }, fun _ => []⟩

theorem careful_commit {r : Run Id} {malloc} (h : (r.store.compactMemory.find o.id).all (fun m =>
      ((r.store.compactMemory.touch m).release m).all fun s =>
        (s.doMalloc o.id o.content malloc).isSome) = true) : Careful r (.commit o malloc) := by
  intro m s hm hs
  rw [hm, Option.all_some, hs] at h
  exact h

theorem accounting_exact_overwriting : ∃ r, overwriting.foldlM Run.step heapRun = some r ∧
    r.store.usedBytes = 3 ∧ (live r.store.blocks).map Block.address = [0, 48] ∧
    r.store.read 1 2 0 = .ok [8, 9] := by
  have hstart : (system (.mallocHeap 200) 128).Reach Careful heapRun := .init rfl
  obtain ⟨r, hr, hbytes, hblocks, hfind⟩ : ∃ r, (overwriting.foldlM Run.step heapRun = some r) ∧
    r.store.usedBytes = 3 ∧ (live r.store.blocks).map Block.address = [0, 48] ∧
      (r.store.find 1).isSome = true ∧ r.last 1 = [8, 9] := ⟨_, rfl, rfl, rfl, rfl, rfl⟩
  have hreach : (system (.mallocHeap 200) 128).Reach Careful r := by
    exact hstart.step (e := overwriting[0]) (careful_commit rfl) rfl |>.step
      (e := overwriting[1]) (careful_commit rfl) rfl |>.step (e := overwriting[2])
      (careful_commit rfl) hr
  obtain ⟨m, hm⟩ := Option.isSome_iff_exists.1 hfind.1
  exact ⟨r, hr, hbytes, hblocks, by
    rw [(accounting_exact _ _ hreach).2.2.2.2 1 m hm, hfind.2]; rfl⟩

/-- A store for 128 entries with libc's allocator. -/
def emptyRun : Run Nat := ⟨{ allocator := .mallocLibc, maxEntries := 128 }, fun _ => []⟩

/-- The commit of one byte under the id 1. -/
def commitByte (malloc : Option Nat) : Event Nat := .commit ⟨1, [7], 0, 0⟩ malloc

/-- The second commit of the object finds no memory: its entry stays, but it is freed and not
counted any more. -/
theorem commit_loses_entry :
    ∃ r, [commitByte (some 8), commitByte none].foldlM Run.step emptyRun = some r ∧
      r.store.usedBytes = 0 ∧ r.store.entryCount = 0 ∧
      r.store.entries.map MemoryBuffer.size = [1] ∧ r.store.read 1 1 0 = .error .freed :=
  ⟨_, rfl, by decide⟩

/-! ## Commits that fail -/

/-- The store is as it was, up to compaction. -/
structure Intact (s t : MemoryKvStore Id) : Prop where
  used : t.usedBytes = s.usedBytes
  count : t.entryCount = s.entryCount
  entries : ∀ id, (t.find id).map MemoryBuffer.core = (s.find id).map MemoryBuffer.core
  bytes : ∀ id size offset, t.read id size offset = s.read id size offset

theorem Sound.intact_compactMemory (h : Sound s last) : Intact s s.compactMemory := by
  obtain ⟨hc, hcore, hused, hcount⟩ := h.compactMemory
  have hfind : ∀ id, (s.compactMemory.find id).map MemoryBuffer.core =
      (s.find id).map MemoryBuffer.core := by
    intro id
    have hmap := congrArg (find? fun m => decide (m.id = id)) hcore
    rw [find?_map, find?_map] at hmap
    exact hmap
  refine ⟨hused, hcount, hfind, fun id size offset => ?_⟩
  have hid := hfind id
  cases hm : s.find id with
  | none =>
    rw [hm, Option.map_none, Option.map_eq_none_iff] at hid
    rw [MemoryKvStore.read, MemoryKvStore.read, hm, hid]
  | some m =>
    rw [hm] at hid
    obtain ⟨n, hn, -⟩ := Option.map_eq_some_iff.mp hid
    rw [h.read hm, hc.read hn]

/-- **A commit that fails** leaves the store as it was exactly if the object is not there yet. -/
theorem failed_commit_intact_iff (allocator : MemoryAllocator) (maxEntries : UInt32) {r : Run Id}
    (h : (system allocator maxEntries).Reach Careful r) {malloc status t}
    (ht : r.store.commit o malloc = some (status, t)) (hfails : status ≠ .ok) :
    Intact r.store t ↔ r.store.find o.id = none := by
  have hs := Sound.reach h
  have hc := hs.intact_compactMemory
  have hid := hc.entries o.id
  unfold commit at ht
  split at ht
  · rename_i hnone
    obtain ⟨rfl, -⟩ := place_failed ht hfails
    rw [hnone, eq_comm, Option.map_none, Option.map_eq_none_iff] at hid
    exact ⟨fun _ => hid, fun _ => hc⟩
  rename_i m hm
  split at ht
  · cases ht
  rename_i u hu
  obtain ⟨rfl, -⟩ := place_failed ht hfails
  refine ⟨fun hi => ?_, fun hnone => ?_⟩
  · -- the entry is not counted any more
    have hcount := hi.count
    rw [(release_spec hu).1] at hcount
    have hsame : (r.store.compactMemory.touch m).entryCount = _ := hc.count
    simp only [hsame] at hcount
    omega
  · rw [hm, hnone] at hid
    cases hid

/-- The store with that object. -/
def oneByte : MemoryKvStore Nat where
  allocator := .mallocLibc
  maxEntries := 128
  usedBytes := 1
  entryCount := 1
  entries := [⟨1, some 8, 1, 0, 0⟩]
  blocks := [⟨8, 1, 1, [7], false⟩]

/-- An object that is not there yet finds no memory. -/
theorem failed_commit_intact_other :
    ∃ t, oneByte.commit ⟨2, [7], 0, 0⟩ none = some (.eio, t) ∧ Intact oneByte t := by
  have hstart : (system .mallocLibc 128).Reach Careful emptyRun := .init rfl
  have hcareful : Careful emptyRun (commitByte (some 8)) := fun m s hm => nomatch hm
  have hreach : (system .mallocLibc 128).Reach Careful ⟨oneByte, update (fun _ => []) 1 [7]⟩ :=
    hstart.step hcareful rfl
  have hcommit : oneByte.commit ⟨2, [7], 0, 0⟩ none = some (.eio, oneByte) := rfl
  exact ⟨_, hcommit, (failed_commit_intact_iff _ _ hreach hcommit (by decide)).2 rfl⟩

/-- An object that is there finds no memory. -/
theorem failed_commit_uncounts :
    ∃ t, oneByte.commit ⟨1, [7], 0, 0⟩ none = some (.eio, t) ∧ ¬Intact oneByte t := by
  let freed := { oneByte with usedBytes := 0, entryCount := 0, blocks := [⟨8, 1, 1, [7], true⟩] }
  have hcommit : oneByte.commit ⟨1, [7], 0, 0⟩ none = some (.eio, freed) := by
    simp [commit, oneByte, compactMemory, find, touch, release, doFree, block?, place,
      doMalloc, Block.markFree, freed]
  exact ⟨freed, hcommit, fun h => zero_ne_one h.used⟩

end Cvmfs.KvStore
