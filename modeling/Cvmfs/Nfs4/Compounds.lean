import Cvmfs.Nfs4.ProcessCompound

/-! # Compounds are answered operation by operation

A client encodes a list of operations; the server executes them with these
arguments, in order, up to the first that fails, and the reply decodes to the results
of what was executed. Some operations are answered before all of their arguments
are read. They fail, which ends the compound, so that the bytes left over are never
taken for the next operation. `RELEASE_LOCKOWNER` is the exception: it succeeds
without reading its arguments, and must come last.

Whatever the request, the reply is well-formed and nothing behind the request is
read; a reply without error covers a request that decodes. -/

namespace Cvmfs.Nfs4.Wire

open Lib.Xdr Lib.Xdr.Decoder List Nat UInt32 Option

variable {σ : Type}

/-! ## Requests -/

abbrev Operation := (c : OpCode) × Args c

/-- An operation as a client encodes it. `rest` is the part of the arguments that the
server does not decode. -/
structure Encoded where
  op : Operation
  rest : Bytes
  complete : leavesRest op.1 op.2 = false → rest = []

def putEncoded (e : Encoded) : Bytes := putU32 e.op.1.number ++ putArgs e.op.1 e.op.2 ++ e.rest

def putCompound (tag : Name) (ops : List Encoded) : Bytes :=
  putOpaque tag.1 ++ putU32 0 ++ putU32 (ofNat ops.length) ++ ops.flatMap putEncoded

/-- The operations in order, up to the first that fails. -/
def executeAll (svc : Service σ) : List Operation → Nat → σ × Handles →
    List Item × Status × (σ × Handles)
  | [], _, st => ([], .ok, st)
  | ⟨c, a⟩ :: ops, used, st =>
    match perform svc c a (used + 8) st with
    | (.done r, st) =>
      let (items, status, st) := executeAll svc ops (used + (putItem (.done c r)).length) st
      (.done c r :: items, status, st)
    | (.failed s _, st) => ([.failed c s], s.1, st)

def ReleasesLast (ops : List Encoded) : Prop :=
  ∀ e ∈ ops.dropLast, e.op.1 ≠ .releaseLockowner

variable {ops : List Encoded}

theorem ReleasesLast.tail {e} (h : ReleasesLast (e :: ops)) : ReleasesLast ops := by
  cases ops with
  | nil => exact fun _ he => absurd he not_mem_nil
  | cons e' ops => exact fun e'' he => h e'' (.tail _ he)

variable {svc : Service σ} {used : Nat} {st st' : σ × Handles}

theorem ReleasesLast.complete {e e'} (h : ReleasesLast (e :: e' :: ops)) {r}
    (hop : perform svc e.op.1 e.op.2 used st = (.done r, st')) : e.rest = [] := by
  apply e.complete
  rw [Bool.eq_false_iff]
  intro hrest
  exact h e (.head _) (perform_leavesRest hrest hop)

theorem executeOp_done {op : Operation} {r : Result op.1}
    (h : perform svc op.1 op.2 (used + 8) st = (.done r, st')) (tail : Bytes) :
    executeOp svc op.1.number (putArgs op.1 op.2 ++ tail) used st = (.done op.1 r, tail, st') := by
  simp [executeOp, parse_decodeArgs, h]

theorem executeOp_failed {op : Operation} {s : Failure} {written : Bytes}
    (h : perform svc op.1 op.2 (used + 8) st = (.failed s written, st')) (tail : Bytes) :
    executeOp svc op.1.number (putArgs op.1 op.2 ++ tail) used st =
      (.failed op.1 s, tail, st') := by
  simp [executeOp, parse_decodeArgs, h]

theorem execute_encoded (svc : Service σ) (h : ReleasesLast ops) (tail : Bytes) (used : Nat)
    (st : σ × Handles) : execute svc ops.length (ops.flatMap putEncoded ++ tail) used st =
      executeAll svc (ops.map (·.op)) used st := by
  induction ops generalizing used st with
  | nil => rfl
  | cons e ops ih =>
    have hbytes : (e :: ops).flatMap putEncoded ++ tail = putU32 e.op.1.number ++
        (putArgs e.op.1 e.op.2 ++ (e.rest ++ (ops.flatMap putEncoded ++ tail))) := by
      simp [putEncoded]
    rw [hbytes, length_cons, execute, parse_getU32, map_cons, executeAll]
    dsimp only
    cases hop : perform svc e.op.1 e.op.2 (used + 8) st with
    | mk outcome st' =>
      cases outcome with
      | failed s written =>
        rw [executeOp_failed hop]
        exact if_neg s.2.1
      | done r =>
        rw [executeOp_done hop]
        refine (if_pos rfl).trans ?_
        cases ops with
        | nil => rfl
        | cons e' ops =>
          rw [h.complete hop, nil_append, ih h.tail]

/-! ## Replies -/

def Item.code : Item → Option OpCode
  | done c _ => some c
  | failed c _ => some c
  | illegal => none

/-- The results of exactly the executed operations: all but the last succeeded, the last
one decides the status, and only a failure ends the compound early. -/
structure Answers (ops : List Operation) (items : List Item) (status : Status) : Prop where
  codes : items.map Item.code = (ops.take items.length).map fun op => some op.1
  before : ∀ i ∈ items.dropLast, i.status = .ok
  last : (items.getLast?.map Item.status).getD .ok = status
  early : items.length < ops.length → status ≠ .ok

variable {items : List Item}

theorem forall_dropLast_cons {P : Item → Prop} {i} (hi : P i) (h : ∀ j ∈ items.dropLast, P j) :
    ∀ j ∈ (i :: items).dropLast, P j := by
  cases items with
  | nil => simp
  | cons i' items => exact forall_mem_cons.mpr ⟨hi, h⟩

theorem executeAll_answers {ops status} (h : executeAll svc ops used st = (items, status, st')) :
    Answers ops items status := by
  induction ops generalizing used st items with
  | nil =>
    cases h
    exact ⟨rfl, by simp, rfl, fun h => absurd h (lt_irrefl _)⟩
  | cons op ops ih =>
    obtain ⟨c, a⟩ := op
    rw [executeAll] at h
    split at h
    case h_1 r st'' hop =>
      obtain ⟨items', status', st''', hrest⟩ : ∃ items' status' st''',
          executeAll svc ops (used + (putItem (.done c r)).length) st'' =
            (items', status', st''') := ⟨_, _, _, rfl⟩
      rw [hrest] at h
      cases h
      have ih := ih hrest
      refine ⟨?_, ?_, ?_, fun h => ih.early (lt_of_succ_lt_succ h)⟩
      · simp [ih.codes, Item.code]
      · exact forall_dropLast_cons rfl ih.before
      rw [← ih.last]
      cases items' with
      | nil => rfl
      | cons i items' => simp [getLast?_cons_cons]
    case h_2 s written st'' hop =>
      cases h
      exact ⟨rfl, by simp, rfl, fun _ => s.2.1⟩

/-! ## Arbitrary requests -/

variable {n : Nat} {bs : Bytes}

theorem execute_cases {status} (h : execute svc (n + 1) bs used st = (items, status, st')) :
    (items = [] ∧ status = .badxdr) ∨ ∃ op bs₁ item bs₂ st₁, getU32.parse bs = some (op, bs₁) ∧
      executeOp svc op bs₁ used st = (item, bs₂, st₁) ∧
      ((item.status ≠ .ok ∧ items = [item] ∧ status = item.status) ∨
        (item.status = .ok ∧ ∃ items', items = item :: items' ∧
          execute svc n bs₂ (used + (putItem item).length) st₁ = (items', status, st'))) := by
  rw [execute] at h
  split at h
  · cases h
    exact .inl ⟨rfl, rfl⟩
  rename_i op bs₁ hparse
  refine .inr ⟨op, bs₁, _, _, _, hparse, rfl, ?_⟩
  dsimp only at h
  split at h
  · rename_i hok
    cases h
    exact .inr ⟨hok, _, rfl, rfl⟩
  · rename_i hok
    cases h
    exact .inl ⟨hok, rfl, rfl⟩

theorem executeOp_ok {op bs' item} (h : executeOp svc op bs used st = (item, bs', st'))
    (hok : item.status = .ok) :
    ∃ c a r, OpCode.ofNumber op = some c ∧ (decodeArgs c).parse bs = some (a, bs') ∧
      perform svc c a (used + 8) st = (.done r, st') ∧ item = .done c r := by
  unfold executeOp at h
  split at h
  · cases h
    cases hok
  rename_i c hc
  split at h
  · cases h
    cases hok
  rename_i a bs₁ hparse
  split at h
  · rename_i r st₁ hop
    cases h
    exact ⟨c, a, r, hc, hparse, hop, rfl⟩
  · rename_i s written st₁ hop
    cases h
    exact absurd hok s.2.1

theorem execute_length {status} (h : execute svc n bs used st = (items, status, st')) :
    items.length ≤ n := by
  induction n generalizing bs used st items with
  | zero =>
    cases h
    exact le_rfl
  | succ n ih =>
    obtain ⟨rfl, -⟩ | ⟨_, _, _, _, _, -, -, ⟨-, rfl, -⟩ | ⟨-, items', rfl, hrest⟩⟩ :=
      execute_cases h
    · exact zero_le _
    · exact succ_le_succ (zero_le _)
    · exact succ_le_succ (ih hrest)

theorem execute_before {status} (h : execute svc n bs used st = (items, status, st')) :
    ∀ i ∈ items.dropLast, i.status = .ok := by
  induction n generalizing bs used st items with
  | zero =>
    cases h
    simp
  | succ n ih =>
    obtain ⟨rfl, -⟩ | ⟨_, _, _, _, _, -, -, ⟨-, rfl, -⟩ | ⟨hok, items', rfl, hrest⟩⟩ :=
      execute_cases h
    · simp
    · simp
    · exact forall_dropLast_cons hok (ih hrest)

/-- The operations of a request, as the server reads them. -/
def decodeOps : Nat → Decoder (List Operation)
  | 0 => return []
  | n + 1 => do
    match OpCode.ofNumber (← getU32) with
    | none => reject
    | some c =>
      let a ← decodeArgs c
      let ops ← decodeOps n
      return ⟨c, a⟩ :: ops

def decodeCompound : Decoder (Name × List Operation) := do
  let tag ← getOpaque 1024
  let (minorVersion, numOps) ← getNumbers
  if minorVersion ≠ 0 then reject
  else
    let ops ← decodeOps numOps.toNat
    return (tag, ops)

theorem execute_ok (h : execute svc n bs used st = (items, .ok, st'))
    (hrel : Item.done .releaseLockowner () ∉ items) :
    ∃ ops tail, (decodeOps n).parse bs = some (ops, tail) ∧
      (∀ op ∈ ops, leavesRest op.1 op.2 = false) ∧
      executeAll svc ops used st = (items, .ok, st') := by
  induction n generalizing bs used st items with
  | zero =>
    cases h
    exact ⟨[], bs, rfl, by simp, rfl⟩
  | succ n ih =>
    obtain ⟨-, hs⟩ | ⟨op, bs₁, item, bs₂, st₁, hparse, hexec, h⟩ := execute_cases h
    · cases hs
    obtain ⟨hne, -, hs⟩ | ⟨hok, items', rfl, hrest⟩ := h
    · exact absurd hs.symm hne
    obtain ⟨c, a, r, hc, hargs, hop, rfl⟩ := executeOp_ok hexec hok
    obtain ⟨ops, tail, hops, hcomplete, hall⟩ := ih hrest fun hm => hrel (.tail _ hm)
    refine ⟨⟨c, a⟩ :: ops, tail, ?_, ?_, ?_⟩
    · rw [decodeOps, parse_bind, hparse, bind_some, hc]
      rw [parse_bind, hargs, bind_some, parse_bind, hops, bind_some]
      rfl
    · refine forall_mem_cons.mpr ⟨?_, hcomplete⟩
      rw [Bool.eq_false_iff]
      intro hleaves
      obtain rfl := perform_leavesRest hleaves hop
      exact hrel (.head _)
    · rw [executeAll, hop]
      dsimp only
      rw [hall]

/-! ## Requests and replies -/

/-- The request is answered with `reply`, which is appended to the buffer, and leaves `st`
behind; nothing behind the request has been read. -/
structure Replies (svc : Service σ) (maxCompoundOps : UInt32) (request res : Bytes) (s : σ)
    (reply : Reply) (st : σ × Handles) : Prop where
  decodes : ∃ bytes, (processCompound svc maxCompoundOps request res s).res = res ++ bytes ∧
    decodeReply bytes = some reply
  state : (processCompound svc maxCompoundOps request res s).state = st
  status : (processCompound svc maxCompoundOps request res s).status = reply.status
  inBounds : (processCompound svc maxCompoundOps request res s).args.InBounds

variable {maxCompoundOps : UInt32}

theorem executeCompound_cases {request s reply}
    (h : executeCompound svc maxCompoundOps request used s = (reply, st)) :
    (reply.items = [] ∧ reply.status ≠ .ok) ∨
    ∃ bs numOps bs', (getOpaque 1024).parse request = some (reply.tag, bs) ∧
      getNumbers.parse bs = some ((0, numOps), bs') ∧
      execute svc numOps.toNat bs' (used + 8 + (putOpaque reply.tag.1).length) (s, {}) =
        (reply.items, reply.status, st) := by
  unfold executeCompound at h
  split at h
  · cases h
    exact .inl ⟨rfl, by simp⟩
  rename_i tag bs htag
  split at h
  · cases h
    exact .inl ⟨rfl, by simp⟩
  rename_i minorVersion numOps bs' hnum
  split at h
  · cases h
    exact .inl ⟨rfl, by simp⟩
  rename_i hv
  obtain rfl := not_not.mp hv
  split at h
  · cases h
    exact .inl ⟨rfl, by simp⟩
  · cases h
    exact .inr ⟨bs, numOps, bs', htag, hnum, rfl⟩

theorem replies_of_execute {request res s reply}
    (h : executeCompound svc maxCompoundOps request res.length s = (reply, st)) :
    Replies svc maxCompoundOps request res s reply st := by
  obtain ⟨hres, hstate, hstatus⟩ := processCompound_spec svc maxCompoundOps request res s h
  have hlen : reply.items.length ≤ maxLength := by
    obtain ⟨hitems, -⟩ | ⟨bs, numOps, bs', -, -, hexec⟩ := executeCompound_cases h
    · rw [hitems]
      exact zero_le _
    · exact (execute_length hexec).trans (le_sub_one_of_lt numOps.toNat_lt)
  exact ⟨⟨_, hres, decodeReply_put hlen⟩, hstate, hstatus,
    processCompound_inBounds svc maxCompoundOps request res s⟩

theorem executeCompound_encoded (svc : Service σ) (tag : Name)
    (hmax : ops.length ≤ maxCompoundOps.toNat) (h : ReleasesLast ops) (tail : Bytes) (used : Nat)
    (s : σ) :
    executeCompound svc maxCompoundOps (putCompound tag ops ++ tail) used s =
      let (items, status, st) :=
        executeAll svc (ops.map (·.op)) (used + 8 + (putOpaque tag.1).length) (s, {})
      ({ status, tag, items }, st) := by
  have hlt := maxCompoundOps.toNat_lt
  have hlen : (ofNat ops.length).toNat = ops.length := by
    rw [toNat_ofNat']
    exact mod_eq_of_lt (hmax.trans_lt hlt)
  have hle : ¬maxCompoundOps < ofNat ops.length := by
    rw [lt_iff_toNat_lt, hlen]
    exact not_lt.mpr hmax
  have hnum : ∀ bs, getNumbers.parse (putU32 0 ++ (putU32 (ofNat ops.length) ++ bs)) =
      some ((0, ofNat ops.length), bs) := by
    intro bs
    simp [getNumbers]
  simp only [executeCompound, putCompound, append_assoc, parse_getName, hnum, ne_eq,
    not_true_eq_false, if_false, hle, hlen, execute_encoded svc h]

/-- A server whose backend always fails. -/
def failingService : Service Unit where
  root := { kind := .object, fsid := 1, ino := 2 }
  run _ _ _ st := (.failed ⟨.serverfault, by decide⟩ [], st)

theorem nil_length_le : ([] : Bytes).length ≤ 1024 := by decide

def noTag : Name := ⟨[], nil_length_le⟩

/-- `PUTROOTFH`, `SAVEFH`, `GETATTR`: the backend fails in the last one. -/
def handleOps : List Encoded :=
  [⟨⟨.putrootfh, ()⟩, [], fun _ => rfl⟩, ⟨⟨.savefh, ()⟩, [], fun _ => rfl⟩,
    ⟨⟨.getattr, ⟨[2], by decide⟩⟩, [], fun _ => rfl⟩]

/-- `RELEASE_LOCKOWNER` of the owner `""` of client 1. -/
def releaseOwner : Encoded := ⟨⟨.releaseLockowner, ()⟩, putU64 1 ++ putOpaque [], by simp [leavesRest]⟩

/-- A tag that is longer than the server reads ends the request. -/
theorem long_tag_refused (svc : Service σ) (maxCompoundOps : UInt32) {tag} (h : 1024 < tag.length)
    (htag : tag.length ≤ maxLength) (tail res : Bytes) (s : σ) :
    Replies svc maxCompoundOps (putOpaque tag ++ tail) res s
      { status := .badxdr, tag := noTag, items := [] } (s, {}) := by
  refine replies_of_execute ?_
  rw [executeCompound, parse_getOpaque_long h htag]
  rfl

end Cvmfs.Nfs4.Wire
