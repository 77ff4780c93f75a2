import Cvmfs.Receiver.Payload

/-! # What a payload run receives

The consumer cuts the payload at positions that only depend on the index, while
the reads cut it anywhere. This file follows a run through an invariant, `Track`,
that says which objects have been received, which bytes of the next one are on
their way and where they are: handed over, or still in the accumulator.

`payloadLoop_track` carries the invariant through one buffer and `readLoop_track`
through all reads. What ends the invariant is an object that does not have its
announced hash, or a buffer that claims more bytes than it has; both contradict
`Delivered`, that the payload starts with the listed objects.
-/

namespace Cvmfs.Receiver

open Consumer List Nat Processor
open Crypto (Bytes Any Algorithms)

/-- An object with its content: the size and the hash are the announced ones. -/
structure Received (hash : Algorithms → Bytes → Bytes) (o : IndexEntry × Bytes) : Prop where
  size_eq : o.2.length = o.1.size
  algorithm_ne : o.1.id.algorithm ≠ .any
  hash_eq : hash o.1.id.algorithm o.2 = o.1.id.digest

/-- The payload starts with the objects of the index, each as announced. -/
def Delivered (hash : Algorithms → Bytes → Bytes) (index : List IndexEntry) (payload : Bytes) :
    Prop :=
  ∃ objs : List (IndexEntry × Bytes), objs.map Prod.fst = index ∧
    (∀ o ∈ objs, Received hash o) ∧ objs.flatMap Prod.snd <+: payload

def commitOf (o : IndexEntry × Bytes) : Commit where
  id := o.1.id
  suffix := o.1.suffix
  remotePath := match o.1.entryType with
    | .cas => none
    | .named => some o.1.entryName
  content := o.2

/-- The pending file of an object of which `handed` has been handed over. -/
def pendingOf (e : IndexEntry) (handed : Bytes) : List (Any × FileInfo) :=
  if handed = [] then [] else [(e.id, ⟨e.size, handed.length, handed, handed⟩)]

/-! ## One round of the payload loop -/

namespace Consumer

variable {c : Consumer} {entry : IndexEntry} {n : Nat}

theorem remainingInObject_eq (hsize : entry.size < 2 ^ 64) (hpos : c.posInObject ≤ entry.size) :
    c.remainingInObject entry = entry.size - c.posInObject :=
  Lib.sub64_of_le hsize hpos

theorem roundSize_le (c : Consumer) (entry : IndexEntry) (n : Nat) :
    c.roundSize entry n ≤ n ∧ c.roundSize entry n ≤ c.remainingInObject entry := by
  simp only [roundSize]
  split <;> omega

theorem roundSize_pos (haccu : c.accumulator.length < kAccuSize) (hn : 0 < n)
    (hrem : 0 < c.remainingInObject entry) : 0 < c.roundSize entry n := by
  simp only [roundSize]
  split <;> omega

theorem round_whole {bytes} (h : c.roundSize entry n = c.remainingInObject entry) :
    c.round entry n bytes = (some (c.accumulator ++ bytes),
      { c with accumulator := [], idx := c.idx + 1, posInObject := 0 }) := by
  simp [round, h]

theorem round_part {bytes} (h : c.roundSize entry n ≠ c.remainingInObject entry)
    (haccu : c.accumulator.length < kAccuSize) (hbytes : bytes.length = c.roundSize entry n) :
    ∃ piece accu, c.round entry n bytes = (piece,
        { c with accumulator := accu, posInObject := (c.posInObject + c.roundSize entry n) % 2 ^ 32 }) ∧
      (piece = none ∧ accu = c.accumulator ++ bytes ∧ accu.length < kAccuSize ∨
        piece = some (c.accumulator ++ bytes) ∧ accu = []) := by
  by_cases hh : c.usesAccu entry n = false ∨ (c.accumulator ++ bytes).length = kAccuSize ∨
      c.roundSize entry n = c.remainingInObject entry
  · exact ⟨_, [], by simp only [round, if_pos hh, if_neg h], .inr ⟨rfl, rfl⟩⟩
  refine ⟨none, _, by simp only [round, if_neg hh, if_neg h], .inl ⟨rfl, rfl, ?_⟩⟩
  have hle : c.roundSize entry n ≤ kAccuSize - c.accumulator.length := by
    have huse : c.usesAccu entry n = true := by
      by_contra hn
      exact hh (.inl (by simpa using hn))
    simp only [roundSize, huse, if_true]
    omega
  have hne : (c.accumulator ++ bytes).length ≠ kAccuSize := fun he => hh (.inr (.inl he))
  rw [length_append] at hne ⊢
  omega

end Consumer

/-! ## The callback on one piece -/

namespace Processor

variable {hash : Algorithms → Bytes → Bytes} {p : Processor} {e : IndexEntry} {handed piece : Bytes}

section

variable (h : p.pendingFiles = pendingOf e handed)
include h

theorem find_pendingOf :
    p.find e.id = if handed = [] then none else some ⟨e.size, handed.length, handed, handed⟩ := by
  unfold find
  rw [h, pendingOf]
  split <;> simp

theorem erase_pendingOf : p.erase e.id = { p with pendingFiles := [] } := by
  unfold erase
  rw [h, pendingOf]
  split <;> simp

theorem insert_pendingOf (info : FileInfo) :
    p.insert e.id info = { p with pendingFiles := [(e.id, info)] } := by
  unfold insert
  rw [erase_pendingOf h]

theorem getD_find_pendingOf :
    (p.find e.id).getD ⟨e.size, 0, [], []⟩ = ⟨e.size, handed.length, handed, handed⟩ := by
  rw [find_pendingOf h]
  by_cases hh : handed = []
  · simp [hh]
  · simp [hh]

end

theorem callback_any (h : p.pendingFiles = pendingOf e []) (ha : e.id.algorithm = .any) :
    p.consumerEventCallback hash ⟨e, piece⟩ = .error .undefinedHash := by
  simp [consumerEventCallback, find_pendingOf h, ha]

theorem callback_known (h : p.pendingFiles = pendingOf e handed) (ha : e.id.algorithm ≠ .any) :
    p.consumerEventCallback hash ⟨e, piece⟩ = if handed.length + piece.length = e.size then
        if hash e.id.algorithm (handed ++ piece) ≠ e.id.digest then
          .ok { p with
            pendingFiles := [(e.id, ⟨e.size, e.size, [], handed ++ piece⟩)]
            numErrors := p.numErrors + 1 }
        else .ok { p with
          pendingFiles := []
          commits := p.commits ++ [commitOf (e, handed ++ piece)] }
      else .ok { p with
        pendingFiles :=
          [(e.id, ⟨e.size, handed.length + piece.length, handed ++ piece, handed ++ piece⟩)] } := by
  unfold consumerEventCallback
  dsimp only
  split
  · rename_i heq
    exact absurd heq ha
  rw [getD_find_pendingOf h]
  split
  · rename_i hsize
    simp only [insert_pendingOf h, erase_pendingOf h] at hsize ⊢
    rw [hsize]
    rfl
  · rw [insert_pendingOf h]

theorem callback_numErrors {p' ev} (h : p.consumerEventCallback hash ev = .ok p') :
    p.numErrors ≤ p'.numErrors := by
  unfold consumerEventCallback at h
  dsimp only at h
  split at h
  · cases h
  split at h
  · split at h
    · cases h
      exact le_succ _
    · cases h
      exact le_refl _
  · cases h
    exact le_refl _

theorem callbacks_numErrors {evs p'} (h : p.callbacks hash evs = .ok p') :
    p.numErrors ≤ p'.numErrors := by
  induction evs generalizing p with
  | nil =>
    cases h
    exact le_refl _
  | cons ev evs ih =>
    simp only [callbacks] at h
    split at h
    · cases h
    · rename_i p₁ h₁
      exact le_trans (callback_numErrors h₁) (ih h)

end Processor

/-! ## Cutting the payload -/

/-- At some object of the index the payload does not go on with an object as
announced. -/
def Broken (hash : Algorithms → Bytes → Bytes) (index : List IndexEntry) (payload : Bytes) : Prop :=
  ∃ (objs : List (IndexEntry × Bytes)) (e : IndexEntry) (todo : List IndexEntry),
    index = objs.map Prod.fst ++ e :: todo ∧ (∀ o ∈ objs, Received hash o) ∧
    objs.flatMap Prod.snd <+: payload ∧
    ∀ b, objs.flatMap Prod.snd ++ b <+: payload → ¬ Received hash (e, b)

variable {hash : Algorithms → Bytes → Bytes} {todo : List IndexEntry}
    {objs : List (IndexEntry × Bytes)}

theorem cut_unique {e objs' payload} (hmap : objs'.map Prod.fst = objs.map Prod.fst ++ e :: todo)
    (hr : ∀ o ∈ objs, Received hash o) (hr' : ∀ o ∈ objs', Received hash o)
    (hp : objs.flatMap Prod.snd <+: payload) (hp' : objs'.flatMap Prod.snd <+: payload) :
    ∃ b rest, objs' = objs ++ (e, b) :: rest := by
  induction objs generalizing objs' payload with
  | nil =>
    cases objs' with
    | nil => cases hmap
    | cons o rest =>
      obtain ⟨rfl, -⟩ := cons.inj hmap
      exact ⟨o.2, rest, rfl⟩
  | cons o objs ih =>
    cases objs' with
    | nil => cases hmap
    | cons o' rest' =>
      obtain ⟨hfst, htl⟩ := cons.inj hmap
      simp only [flatMap_cons] at hp hp'
      have hlen : o.2.length = o'.2.length := by
        rw [(hr o (.head _)).size_eq, (hr' o' (.head _)).size_eq, hfst]
      have hsnd : o.2 = o'.2 :=
        (prefix_of_prefix_length_le ((prefix_append _ _).trans hp)
          ((prefix_append _ _).trans hp') (le_of_eq hlen)).eq_of_length hlen
      obtain ⟨t, ht⟩ := hp
      obtain ⟨t', ht'⟩ := hp'
      rw [← hsnd, ← ht, append_assoc, append_assoc] at ht'
      obtain ⟨b, rest, rfl⟩ := ih htl (fun x hx => hr x (.tail _ hx))
        (fun x hx => hr' x (.tail _ hx)) (prefix_append _ t)
        ⟨t', append_cancel_left ht'⟩
      exact ⟨b, rest, by rw [Prod.ext hfst hsnd.symm]; rfl⟩

variable {index : List IndexEntry}

theorem Broken.not_delivered {payload} (h : Broken hash index payload) :
    ¬ Delivered hash index payload := by
  rintro ⟨objs', hmap', hr', hp'⟩
  obtain ⟨objs, e, todo, rfl, hr, hp, hno⟩ := h
  obtain ⟨b, rest, rfl⟩ := cut_unique hmap' hr hr' hp hp'
  refine hno b ?_ (hr' (e, b) (by simp))
  refine IsPrefix.trans ?_ hp'
  simp only [flatMap_append, flatMap_cons]
  rw [← append_assoc]
  exact prefix_append _ _

/-! ## The invariant of a run -/

/-- After the payload bytes `q`: the objects `objs` are received and committed,
`todo` is left of the index, and of its first object `handed` has been handed
over while the accumulator holds the rest of what came in. -/
structure Track (hash : Algorithms → Bytes → Bytes) (index : List IndexEntry) (q : Bytes)
    (c : Consumer) (p : Processor) (objs : List (IndexEntry × Bytes)) (todo : List IndexEntry)
    (handed : Bytes) : Prop where
  index_eq : c.index = index
  split : index = objs.map Prod.fst ++ todo
  idx_eq : c.idx = objs.length
  received : ∀ o ∈ objs, Received hash o
  consumed : q = objs.flatMap Prod.snd ++ (handed ++ c.accumulator)
  pos_eq : c.posInObject = (handed ++ c.accumulator).length
  room : ∀ e ∈ todo.head?, handed ++ c.accumulator = [] ∨ (handed ++ c.accumulator).length < e.size
  known : ∀ e ∈ todo.head?, handed ≠ [] → e.id.algorithm ≠ .any
  idle : todo = [] → handed ++ c.accumulator = []
  accu_lt : c.accumulator.length < kAccuSize
  commits_eq : p.commits = objs.map commitOf
  errors_eq : p.numErrors = 0
  pending_eq : ∀ e ∈ todo.head?, p.pendingFiles = pendingOf e handed
  settled : todo = [] → p.pendingFiles = []

/-- The callbacks of a loop abort, or they count an error, or the loop itself
aborts. -/
def Fails {α : Type} (hash : Algorithms → Bytes → Bytes) (p : Processor)
    (r : List Event × Except Abort α) : Prop :=
  (∃ a, p.callbacks hash r.1 = .error a) ∨
  ∃ p', p.callbacks hash r.1 = .ok p' ∧ (0 < p'.numErrors ∨ ∃ a, r.2 = .error a)

variable {α : Type} {p p' : Processor} {evs : List Event} {res : Except Abort α}

theorem Fails.prepend {evs₁ : List Event}
    (hcb : ∀ l, p.callbacks hash (evs₁ ++ l) = p'.callbacks hash l)
    (hf : Fails hash p' (evs, res)) : Fails hash p (evs₁ ++ evs, res) := by
  simpa only [Fails, hcb] using hf

theorem Fails.of_abort {ev : Event} {a : Abort}
    (h : p.consumerEventCallback hash ev = .error a) : Fails hash p (ev :: evs, res) :=
  .inl ⟨a, by simp only [callbacks, h]⟩

theorem Fails.of_numErrors {r : List Event × Except Abort α} (h : 0 < p.numErrors) :
    Fails hash p r := by
  cases hc : p.callbacks hash r.1 with
  | error a => exact .inl ⟨a, hc⟩
  | ok p' =>
    have := callbacks_numErrors hc
    exact .inr ⟨p', hc, .inl (by omega)⟩

namespace Track

variable {q handed bytes : Bytes} {c : Consumer} {e : IndexEntry}

section

variable (h : Track hash index q c p objs (e :: todo) handed)
include h

theorem getElem_idx : c.index[c.idx]? = some e := by
  rw [h.index_eq, h.split, h.idx_eq]
  simp

theorem pos_le : c.posInObject ≤ e.size := by
  rw [h.pos_eq]
  rcases h.room e rfl with hr | hr
  · simp [hr]
  · exact le_of_lt hr

theorem remaining (hsize : e.size ≤ 2 ^ 32) :
    c.remainingInObject e = e.size - (handed ++ c.accumulator).length := by
  rw [remainingInObject_eq (by omega) h.pos_le, h.pos_eq]

theorem broken {tail} (hno : ∀ b, b <+: (handed ++ c.accumulator) ++ tail → ¬ Received hash (e, b)) :
    Broken hash index (q ++ tail) := by
  refine ⟨objs, e, todo, h.split, h.received, ?_, ?_⟩
  · rw [h.consumed, append_assoc]
    exact prefix_append _ _
  · intro b hb
    rw [h.consumed, append_assoc] at hb
    exact hno b ((prefix_append_right_inj _).mp hb)

theorem callback_abort (ha : e.id.algorithm = .any) (piece : Bytes) :
    p.consumerEventCallback hash ⟨e, piece⟩ = .error .undefinedHash := by
  have hn : handed = [] := by
    by_contra hne
    exact h.known e rfl hne ha
  exact callback_any (hn ▸ h.pending_eq e rfl) ha

theorem complete (ha : e.id.algorithm ≠ .any)
    (hlen : ((handed ++ c.accumulator) ++ bytes).length = e.size) :
    ∃ p', p.consumerEventCallback hash ⟨e, c.accumulator ++ bytes⟩ = .ok p' ∧
      (0 < p'.numErrors ∧ ¬ Received hash (e, (handed ++ c.accumulator) ++ bytes) ∨
        Track hash index (q ++ bytes)
          { c with accumulator := [], idx := c.idx + 1, posInObject := 0 } p'
          (objs ++ [(e, (handed ++ c.accumulator) ++ bytes)]) todo []) := by
  have hsum : handed.length + (c.accumulator ++ bytes).length = e.size := by
    simpa [add_assoc] using hlen
  rw [callback_known (h.pending_eq e rfl) ha, if_pos hsum, ← append_assoc]
  by_cases hhash : hash e.id.algorithm (handed ++ c.accumulator ++ bytes) = e.id.digest
  · rw [if_neg (not_not.mpr hhash)]
    refine ⟨_, rfl, .inr ?_⟩
    have hrec : Received hash (e, handed ++ c.accumulator ++ bytes) := ⟨hlen, ha, hhash⟩
    exact {
      index_eq := h.index_eq
      split := by rw [h.split]; simp
      idx_eq := by simp [h.idx_eq]
      received := by
        intro o ho
        rcases mem_append.mp ho with ho | ho
        · exact h.received o ho
        · rw [mem_singleton.mp ho]
          exact hrec
      consumed := by rw [h.consumed]; simp
      pos_eq := rfl
      room := fun _ _ => .inl rfl
      known := fun _ _ hne => absurd rfl hne
      idle := fun _ => rfl
      accu_lt := by simp [kAccuSize]
      commits_eq := by simp [h.commits_eq]
      errors_eq := h.errors_eq
      pending_eq := fun _ _ => by simp [pendingOf]
      settled := fun _ => rfl }
  · rw [if_pos hhash]
    exact ⟨_, rfl, .inl ⟨succ_pos _, fun hr => hhash hr.hash_eq⟩⟩

theorem gather (hlen : ((handed ++ c.accumulator) ++ bytes).length < e.size)
    (haccu : (c.accumulator ++ bytes).length < kAccuSize) {pos}
    (hpos : pos = ((handed ++ c.accumulator) ++ bytes).length) :
    Track hash index (q ++ bytes)
      { c with accumulator := c.accumulator ++ bytes, posInObject := pos } p objs (e :: todo)
      handed :=
  { h with
    consumed := by rw [h.consumed]; simp
    pos_eq := by rw [hpos]; simp
    room := by
      rintro _ ⟨⟩
      exact .inr (by simpa using hlen)
    idle := nofun
    accu_lt := haccu }

theorem handOver (ha : e.id.algorithm ≠ .any) (hne : bytes ≠ [])
    (hlen : ((handed ++ c.accumulator) ++ bytes).length < e.size) {pos}
    (hpos : pos = ((handed ++ c.accumulator) ++ bytes).length) :
    ∃ p', p.consumerEventCallback hash ⟨e, c.accumulator ++ bytes⟩ = .ok p' ∧
      Track hash index (q ++ bytes) { c with accumulator := [], posInObject := pos } p' objs
        (e :: todo) (handed ++ (c.accumulator ++ bytes)) := by
  have hsum : ¬ handed.length + (c.accumulator ++ bytes).length = e.size := by
    simp only [length_append] at hlen ⊢
    omega
  rw [callback_known (h.pending_eq e rfl) ha, if_neg hsum]
  exact ⟨_, rfl, { h with
    consumed := by rw [h.consumed]; simp
    pos_eq := by rw [hpos]; simp
    room := by
      rintro _ ⟨⟩
      exact .inr (by simpa [add_assoc] using hlen)
    known := by
      rintro _ ⟨⟩ _
      exact ha
    idle := nofun
    accu_lt := by simp [kAccuSize]
    pending_eq := by
      rintro _ ⟨⟩
      simp [pendingOf, hne]
    settled := nofun }⟩

end

end Track

/-- A loop over `n` claimed bytes of `rest` ends with the invariant: all objects
are received, or the buffer is used up in the middle of an object. -/
def Advances (hash : Algorithms → Bytes → Bytes) (index : List IndexEntry) (q : Bytes)
    (c : Consumer) (p : Processor) (n : Nat) (rest : Bytes)
    (r : List Event × Except Abort (Consumer × Nat)) : Prop :=
  ∃ c' p' left objs todo handed, p.callbacks hash r.1 = .ok p' ∧ r.2 = .ok (c', left) ∧
    left ≤ n ∧ n - left ≤ rest.length ∧
    Track hash index (q ++ rest.take (n - left)) c' p' objs todo handed ∧
    c'.pos = c.pos ∧ c'.expectedHeaderSize = c.expectedHeaderSize ∧
    (todo = [] ∨ left = 0 ∧ ∀ e ∈ todo.head?, (handed ++ c'.accumulator).length < e.size)

variable {q handed : Bytes} {c : Consumer} {n : Nat}

theorem Advances.stop {rest} (h : Track hash index q c p objs todo handed)
    (hend : todo = [] ∨ n = 0 ∧ ∀ e ∈ todo.head?, (handed ++ c.accumulator).length < e.size) :
    Advances hash index q c p n rest ([], .ok (c, n)) :=
  ⟨c, p, n, objs, todo, handed, rfl, rfl, le_refl n, by simp, by simpa using h, rfl, rfl, hend⟩

theorem Advances.round {c₁ p₁ k rest evs₁ res} (hk : k ≤ n) (hrest : k ≤ rest.length)
    (hcb : ∀ l, p.callbacks hash (evs₁ ++ l) = p₁.callbacks hash l) (hpos : c₁.pos = c.pos)
    (hexp : c₁.expectedHeaderSize = c.expectedHeaderSize)
    (h : Advances hash index (q ++ rest.take k) c₁ p₁ (n - k) (rest.drop k) (evs, res)) :
    Advances hash index q c p n rest (evs₁ ++ evs, res) := by
  obtain ⟨c', p', left, objs, todo, handed, hc, hr, hl, hlen, ht, hp', he', hend⟩ := h
  refine ⟨c', p', left, objs, todo, handed, by rw [hcb]; exact hc, hr, by omega, ?_, ?_,
    hp'.trans hpos, he'.trans hexp, hend⟩
  · rw [length_drop] at hlen
    omega
  have hsplit : rest.take (n - left) = rest.take k ++ (rest.drop k).take (n - k - left) := by
    rw [← take_add]
    congr 1
    omega
  rw [hsplit, ← append_assoc]
  exact ht

def roundEvents (e : IndexEntry) (piece : Option Bytes) : List Event :=
  (piece.map (⟨e, ·⟩)).toList

/-- **One round** keeps the invariant and makes progress, unless the payload is
broken at the current object. `tail` is all that follows of the payload, in this
buffer and in later ones. -/
theorem round_track {e : IndexEntry} {k : Nat} {rest tail : Bytes}
    (h : Track hash index q c p objs (e :: todo) handed) (hsize : e.size ≤ 2 ^ 32)
    (htail : rest <+: tail) (hgo : 0 < n ∨ e.size = 0) (hk : c.roundSize e n = k)
    (hb : (rest.take k).length = k) :
    let r := c.round e n (rest.take k)
    (Broken hash index (q ++ tail) ∧
      ∀ evs (res : Except Abort (Consumer × Nat)), Fails hash p (roundEvents e r.1 ++ evs, res)) ∨
    ∃ p' objs' todo' handed', Track hash index (q ++ rest.take k) r.2 p' objs' todo' handed' ∧
      (∀ evs, p.callbacks hash (roundEvents e r.1 ++ evs) = p'.callbacks hash evs) ∧
      n - k + todo'.length < n + (e :: todo).length ∧
      r.2.pos = c.pos ∧ r.2.expectedHeaderSize = c.expectedHeaderSize := by
  have hrem := h.remaining hsize
  have hle := roundSize_le c e n
  rw [hk] at hle
  have hl : ((handed ++ c.accumulator) ++ rest.take k).length =
      (handed ++ c.accumulator).length + k := by
    rw [length_append, hb]
  have hcur : (handed ++ c.accumulator).length ≤ e.size := h.pos_eq ▸ h.pos_le
  have hcons : ∀ {ev p₁}, p.consumerEventCallback hash ev = .ok p₁ →
      ∀ evs, p.callbacks hash ([ev] ++ evs) = p₁.callbacks hash evs := by
    intro ev p₁ hok evs
    simp only [singleton_append, callbacks, hok]
  have hany : e.id.algorithm = .any → Broken hash index (q ++ tail) :=
    fun ha => h.broken fun b _ hr => hr.algorithm_ne ha
  by_cases hw : k = c.remainingInObject e
  · -- the round completes the object
    rw [round_whole (hk.trans hw)]
    by_cases ha : e.id.algorithm = .any
    · exact .inl ⟨hany ha, fun _ _ => .of_abort (h.callback_abort ha _)⟩
    have hlen : ((handed ++ c.accumulator) ++ rest.take k).length = e.size := by omega
    obtain ⟨p', hok, ⟨herr, hbad⟩ | ht⟩ := h.complete ha hlen
    · refine .inl ⟨h.broken ?_, fun _ _ => .prepend (hcons hok) (.of_numErrors herr)⟩
      intro b hpre hrec
      have hbl : b.length = ((handed ++ c.accumulator) ++ rest.take k).length :=
        Eq.trans hrec.size_eq hlen.symm
      have hpre' : (handed ++ c.accumulator) ++ rest.take k <+: (handed ++ c.accumulator) ++ tail :=
        (prefix_append_right_inj _).mpr (( take_prefix _ _).trans htail)
      have hbe := (prefix_of_prefix_length_le hpre hpre' (le_of_eq hbl)).eq_of_length hbl
      exact hbad (hbe ▸ hrec)
    · refine .inr ⟨p', _, todo, [], ht, hcons hok, ?_, rfl, rfl⟩
      rw [length_cons]
      omega
  -- the round stays inside the object
  have hn : 0 < n := by
    rcases hgo with hn | hz
    · exact hn
    · omega
  have hkpos : 0 < k := hk ▸ roundSize_pos h.accu_lt hn (by omega)
  have hlen : ((handed ++ c.accumulator) ++ rest.take k).length < e.size := by omega
  have hpos : (c.posInObject + c.roundSize e n) % 2 ^ 32 =
      ((handed ++ c.accumulator) ++ rest.take k).length := by
    rw [hk, h.pos_eq, hl]
    exact mod_eq_of_lt (by omega)
  obtain ⟨piece, accu, hround, ⟨rfl, rfl, haccu⟩ | ⟨rfl, rfl⟩⟩ :=
    round_part (by rwa [hk]) h.accu_lt (hb.trans hk.symm)
  · rw [hround]
    exact .inr ⟨p, objs, e :: todo, handed, h.gather hlen haccu hpos, fun _ => rfl, by omega,
      rfl, rfl⟩
  rw [hround]
  by_cases ha : e.id.algorithm = .any
  · exact .inl ⟨hany ha, fun _ _ => .of_abort (h.callback_abort ha _)⟩
  · have hne : rest.take k ≠ [] := ne_nil_of_length_pos (by omega)
    obtain ⟨p', hok, ht⟩ := h.handOver ha hne hlen hpos
    exact .inr ⟨p', objs, e :: todo, _, ht, hcons hok, by omega, rfl, rfl⟩

/-- **The payload loop** keeps the invariant, unless the payload is broken. -/
theorem payloadLoop_track (hsizes : ∀ e ∈ index, e.size ≤ 2 ^ 32) {fuel : Nat} {rest tail : Bytes}
    (h : Track hash index q c p objs todo handed) (htail : rest <+: tail)
    (hlast : n ≤ rest.length ∨ tail = rest) (hfuel : n + todo.length ≤ fuel) :
    Broken hash index (q ++ tail) ∧ Fails hash p (payloadLoop fuel c n rest) ∨
      Advances hash index q c p n rest (payloadLoop fuel c n rest) := by
  induction fuel generalizing q c p objs todo handed n rest tail with
  | zero =>
    have htodo : todo = [] := length_eq_zero_iff.mp (by omega)
    exact .inr (.stop h (.inl htodo))
  | succ fuel ih =>
    cases todo with
    | nil =>
      have hnone : c.index[c.idx]? = none := by
        rw [h.index_eq, h.split, h.idx_eq]
        simp
      simp only [payloadLoop, hnone]
      exact .inr (.stop h (.inl rfl))
    | cons e todo =>
      have hsize : e.size ≤ 2 ^ 32 := hsizes e (by rw [h.split]; simp)
      simp only [payloadLoop, h.getElem_idx]
      split
      case isFalse hstop =>
        refine .inr (.stop h (.inr ⟨by omega, ?_⟩))
        rintro _ ⟨⟩
        rcases h.room e rfl with hr | hr
        · rw [hr]
          simp only [length_nil]
          omega
        · exact hr
      case isTrue hgo =>
        have hle := roundSize_le c e n
        generalize hk : c.roundSize e n = k at hle
        split
        case isTrue hshort =>
          -- the object reaches beyond the memory of the buffer
          obtain rfl : tail = rest := hlast.resolve_left (by omega)
          refine .inl ⟨h.broken ?_, .inr ⟨p, rfl, .inr ⟨_, rfl⟩⟩⟩
          intro b hb hrec
          have h1 := hb.length_le
          have h2 : b.length = e.size := hrec.size_eq
          rw [length_append] at h1
          rw [h.remaining hsize] at hle
          omega
        case isFalse hlong =>
          have hb : (rest.take k).length = k := by
            rw [length_take]
            omega
          rcases round_track h hsize htail hgo hk hb with ⟨hbroken, hfails⟩ |
            ⟨p', objs', todo', handed', ht, hcb, hless, hpos, hexp⟩
          · exact .inl ⟨hbroken, hfails _ _⟩
          have hfuel' : n - k + todo'.length ≤ fuel := by omega
          have hsub : rest.take k ++ tail.drop k = tail ∧ rest.drop k <+: tail.drop k := by
            obtain ⟨more, rfl⟩ := htail
            rw [drop_append_of_le_length (by omega), ← append_assoc, take_append_drop]
            exact ⟨rfl, prefix_append _ _⟩
          have hlast' : n - k ≤ (rest.drop k).length ∨ tail.drop k = rest.drop k := by
            rw [length_drop]
            rcases hlast with hl | rfl
            · exact .inl (by omega)
            · exact .inr rfl
          rcases ih ht hsub.2 hlast' hfuel' with ⟨hbroken, hfails⟩ | hadv
          · refine .inl ⟨?_, hfails.prepend hcb⟩
            rwa [append_assoc, hsub.1] at hbroken
          · exact .inr (.round hle.1 (by omega) hcb hpos hexp hadv)

/-! ## Buffers -/

/-- A run that ends in an abort or with an error counted. -/
def Failed (res : Except Abort (Consumer × Processor)) : Prop :=
  ∀ c p, res = .ok (c, p) → 0 < p.numErrors

variable {buf : Bytes}

theorem feed_eq {c' consumed} (hc : c.consumeNext hash n buf = consumed)
    (hcb : p.callbacks hash consumed.events = .ok p') (hres : consumed.result = .ok c') :
    feed hash c p n buf = .ok (c', p') := by
  simp only [feed, hc, hcb, hres]

theorem feed_ok {c'} (h : feed hash c p n buf = .ok (c', p')) :
    p.callbacks hash (c.consumeNext hash n buf).events = .ok p' ∧
      (c.consumeNext hash n buf).result = .ok c' := by
  simp only [feed] at h
  split at h
  · rename_i h₁ h₂
    cases h
    exact ⟨h₁, h₂⟩
  · cases h
  · cases h

theorem Fails.failed {consumed} (hc : c.consumeNext hash n buf = consumed)
    (h : Fails hash p (consumed.events, consumed.result)) : Failed (feed hash c p n buf) := by
  intro c' p' hok
  obtain ⟨hcb, hres⟩ := feed_ok hok
  rw [hc] at hcb hres
  rcases h with ⟨a, ha⟩ | ⟨p₁, hp₁, herr | ⟨a, ha⟩⟩
  · cases ha.symm.trans hcb
  · cases hp₁.symm.trans hcb
    exact herr
  · cases ha.symm.trans hres

/-- The consumer waits for more bytes of the object `e`. -/
structure Waiting (hash : Algorithms → Bytes → Bytes) (index : List IndexEntry) (q : Bytes)
    (c : Consumer) (p : Processor) (objs : List (IndexEntry × Bytes)) (e : IndexEntry)
    (todo : List IndexEntry) (handed : Bytes) : Prop extends
    Track hash index q c p objs (e :: todo) handed where
  short : (handed ++ c.accumulator).length < e.size
  state_eq : c.state = .continue
  header_done : c.expectedHeaderSize ≤ c.pos

/-- Where a run stands after `n` claimed bytes of `buf`: all objects have been
received, or the bytes are used up and the consumer waits. -/
def Arrived (hash : Algorithms → Bytes → Bytes) (index : List IndexEntry) (q : Bytes) (n : Nat)
    (buf : Bytes) (c : Consumer) (p : Processor) : Prop :=
  (∃ q' objs, q' <+: q ++ buf ∧ Track hash index q' c p objs [] [] ∧ c.state ≠ .continue) ∨
  (n ≤ buf.length ∧ ∃ objs e todo handed,
    Waiting hash index (q ++ buf.take n) c p objs e todo handed)

theorem consumePayload_track (hsizes : ∀ e ∈ index, e.size ≤ 2 ^ 32) {tail}
    (h : Track hash index q c p objs todo handed) (hheader : c.expectedHeaderSize ≤ c.pos)
    (htail : buf <+: tail) (hlast : n ≤ buf.length ∨ tail = buf) :
    let r := c.consumePayload n buf
    Broken hash index (q ++ tail) ∧ Fails hash p (r.events, r.result) ∨
      ∃ c' p', p.callbacks hash r.events = .ok p' ∧ r.result = .ok c' ∧
        Arrived hash index q n buf c' p' := by
  have hfuel : n + (c.index.length - c.idx) = n + todo.length := by
    rw [h.index_eq, h.split, h.idx_eq]
    simp
  rcases payloadLoop_track hsizes h htail hlast (le_of_eq hfuel.symm) with
    ⟨hbroken, hfails⟩ | ⟨c', p', left, objs', todo', handed', hcb, hres, hl, hlen, ht, hp, he, hend⟩
  · refine .inl ⟨hbroken, ?_⟩
    simp only [consumePayload]
    split
    · rename_i heq
      rw [heq] at hfails
      rcases hfails with hf | ⟨p', hp', -⟩
      · exact .inl hf
      · exact .inr ⟨p', hp', .inr ⟨_, rfl⟩⟩
    rename_i heq
    rw [heq] at hfails
    rcases hfails with hf | ⟨p', hp', hf | ⟨a, ha⟩⟩
    · exact .inl hf
    · exact .inr ⟨p', hp', .inl hf⟩
    · cases ha
  right
  simp only [consumePayload]
  generalize payloadLoop (n + (c.index.length - c.idx)) c n buf = r at hcb hres
  obtain ⟨evs, res⟩ := r
  cases hres
  refine ⟨_, p', hcb, rfl, ?_⟩
  have hidx : c'.idx = c'.index.length ↔ todo' = [] := by
    rw [ht.idx_eq, ht.index_eq, ht.split]
    simp
  by_cases hdone : todo' = []
  · subst hdone
    have hnil : handed' = [] := (append_eq_nil_iff.mp (ht.idle rfl)).1
    subst hnil
    refine .inl ⟨_, objs', (prefix_append_right_inj q).mpr ( take_prefix _ _), { ht with }, ?_⟩
    simp only [if_pos (hidx.mpr rfl)]
    split <;> nofun
  obtain ⟨hleft, hshort⟩ := hend.resolve_left hdone
  subst hleft
  cases todo' with
  | nil => exact absurd rfl hdone
  | cons e todo'' =>
    refine .inr ⟨hlen, objs', e, todo'', handed', ⟨{ ht with }, hshort e rfl, ?_, ?_⟩⟩
    · simp only [if_neg (mt hidx.mp hdone)]
    · rw [← he, ← hp] at hheader
      exact le_trans hheader (le_add_right _ _)

end Cvmfs.Receiver
