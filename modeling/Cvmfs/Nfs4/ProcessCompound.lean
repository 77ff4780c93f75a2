import Cvmfs.Nfs4.WireReply

/-! # COMPOUND requests

`ProcessCompound` and `ProcessOp`: the operations of a request are decoded and
answered one after the other. There is no length in front of an operation, so the
next one starts where the arguments of the last one were read to. Results are
written in place, with slots for the operation and the status that are patched,
and the body is cut off again on failure.

What the single operations do behind their arguments is a `Service`; it gets the
size of the reply so far, which limits directory listings. `execute` says on lists of
bytes and results what the loop does with the cursor and the buffer. -/

namespace Cvmfs.Nfs4.Wire

open Lib.Xdr Lib.Xdr.Decoder XdrWriter XdrReader List Option Item OpCode

/-! ## Operations -/

structure Handles where
  fh : Option FileHandle := none
  saved : Option FileHandle := none

/-- How an operation ends. One that fails may have written something before. -/
inductive Outcome (c : OpCode)
  | done (r : Result c)
  | failed (s : Failure) (written : Bytes)

structure Service (σ : Type) where
  root : FileHandle
  run : (c : OpCode) → Args c → Nat → σ × Handles → Outcome c × (σ × Handles)

/-- Operations that start with a test of `has_fh` once their arguments are decoded. -/
def needsFh : OpCode → Bool
  | .access | .close | .getattr | .getfh | .lookup | .lookupp | .nverify | .open | .openattr
  | .openConfirm | .openDowngrade | .read | .readdir | .readlink | .secinfo | .verify => true
  | _ => false

def nofilehandle : Failure := ⟨.nofilehandle, by decide⟩

/-- The answer to whatever would modify the file system. -/
def readOnly (h : Handles) : Failure := if h.fh.isSome then ⟨.rofs, by decide⟩ else nofilehandle

variable {σ : Type}

/-- What `ProcessOp` does behind the arguments of an operation. -/
def perform (svc : Service σ) : (c : OpCode) → Args c → Nat → σ × Handles →
    Outcome c × (σ × Handles)
  | .putpubfh, _, _, (s, h) => (.done (), s, { h with fh := some svc.root })
  | .putrootfh, _, _, (s, h) => (.done (), s, { h with fh := some svc.root })
  | .restorefh, _, _, (s, h) =>
    match h.saved with
    | none => (.failed ⟨.restorefh, by decide⟩ [], s, h)
    | some saved => (.done (), s, { h with fh := some saved })
  | .savefh, _, _, (s, h) =>
    match h.fh with
    | none => (.failed nofilehandle [], s, h)
    | some fh => (.done (), s, { h with saved := some fh })
  | .releaseLockowner, _, _, st => (.done (), st)
  | .delegpurge, _, _, st | .lock, _, _, st | .lockt, _, _, st | .locku, _, _, st =>
    (.failed ⟨.notsupp, by decide⟩ [], st)
  | .commit, _, _, st | .create, _, _, st | .link, _, _, st | .remove, _, _, st
  | .rename, _, _, st | .setattr, _, _, st | .write, _, _, st => (.failed (readOnly st.2) [], st)
  | .open, a, used, st =>
    match a.how with
    | .create => (.failed (readOnly st.2) [], st)
    | .unknown _ _ => (.failed ⟨.reclaimBad, by decide⟩ [], st)
    | .claim _ =>
      if st.2.fh.isNone then (.failed nofilehandle [], st) else svc.run .open a used st
  | c, a, used, st =>
    if needsFh c && st.2.fh.isNone then (.failed nofilehandle [], st) else svc.run c a used st

/-- Whether an operation is answered before all of its arguments are read. -/
def leavesRest : (c : OpCode) → Args c → Bool
  | .open, a =>
    match a.how with
    | .claim _ => false
    | _ => true
  | .commit, _ | .create, _ | .delegpurge, _ | .link, _ | .lock, _ | .lockt, _ | .locku, _
  | .remove, _ | .rename, _ | .setattr, _ | .write, _ | .releaseLockowner, _ => true
  | _, _ => false

variable {st : σ × Handles}

theorem perform_leavesRest {svc c a used st' r} (hrest : leavesRest c a = true)
    (h : perform svc c a used st = (.done r, st')) : c = .releaseLockowner := by
  cases c with
  | «open» =>
    obtain ⟨_, _, _, _, _, how⟩ := a
    cases how with
    | create => cases h
    | claim c => cases hrest
    | unknown t ht => cases h
  | releaseLockowner => rfl
  | commit | create | delegpurge | link | lock | lockt | locku | remove | rename | setattr
  | write => cases h
  | _ => cases hrest

/-! ## The loop -/

def processOp (svc : Service σ) (op : UInt32) (args : XdrReader) (st : σ × Handles)
    (body : Bytes) : Status × XdrReader × (σ × Handles) × Bytes :=
  match ofNumber op with
  | none => (.opIllegal, args, st, body)
  | some c =>
    match run (decodeArgs c) args with
    | (none, args) => (.badxdr, args, st, body)
    | (some a, args) =>
      match perform svc c a body.length st with
      | (.done r, st) => (.ok, args, st, body ++ putResult c r)
      | (.failed s written, st) => (s.1, args, st, body ++ written)

structure Progress (σ : Type) where
  args : XdrReader
  state : σ × Handles
  res : Bytes
  status : Status := .ok
  numResults : Nat := 0

/-- The body of the loop, once the number of the operation has been read. -/
def answerOp (svc : Service σ) (op : UInt32) (p : Progress σ) : Progress σ :=
  let opOffset := p.res.length
  let res := reserveU32 p.res
  let statusOffset := res.length
  let res := reserveU32 res
  let bodyOffset := res.length
  let (status, args, state, res) := processOp svc op p.args p.state res
  let status := if status = .ok ∧ args.ok = false then .badxdr else status
  let res := patchU32 res opOffset (if status = .opIllegal then illegalNumber else op)
  let res := patchU32 res statusOffset (statusNumber status)
  let res :=
    if status = .ok then res
    else if op = setattr.number then truncate res bodyOffset ++ putU32 0
    else truncate res bodyOffset
  { args, state, res, status, numResults := p.numResults + 1 }

def processOps (svc : Service σ) : Nat → Progress σ → Progress σ
  | 0, p => p
  | n + 1, p =>
    match run getU32 p.args with
    | (none, args) => { p with args, status := .badxdr }
    | (some op, args) =>
      let p := answerOp svc op { p with args }
      if p.status = .ok then processOps svc n p else p

/-- What `ProcessCompound` reads first; a value that cannot be read is left at its default. -/
structure Header where
  tag : Name
  minorVersion : UInt32
  numOps : UInt32
  args : XdrReader

def readHeader (request : Bytes) : Header :=
  let (tag, args) := run (getOpaque 1024) { data := request }
  let (minorVersion, args) := run getU32 args
  let (numOps, args) := run getU32 args
  { tag := tag.getD ⟨[], by decide⟩
    minorVersion := minorVersion.getD 0
    numOps := numOps.getD 0
    args }

def answerOps (svc : Service σ) (maxCompoundOps : UInt32) (h : Header) (p : Progress σ) :
    Progress σ :=
  if h.args.ok = false then { p with status := .badxdr }
  else if h.minorVersion ≠ 0 then { p with status := .minorVersMismatch }
  else if maxCompoundOps < h.numOps then { p with status := .resource }
  else processOps svc h.numOps.toNat p

def processCompound (svc : Service σ) (maxCompoundOps : UInt32) (request res : Bytes) (s : σ) :
    Progress σ :=
  let h := readHeader request
  let statusOffset := res.length
  let res := reserveU32 res ++ putOpaque h.tag.1
  let countOffset := res.length
  let p := answerOps svc maxCompoundOps h
    { args := h.args, state := (s, {}), res := reserveU32 res }
  let res := patchU32 p.res statusOffset (statusNumber p.status)
  { p with res := patchU32 res countOffset (UInt32.ofNat p.numResults) }

/-! ## Requests as lists of bytes -/

/-- One operation, of which the number has been read. -/
def executeOp (svc : Service σ) (op : UInt32) (bs : Bytes) (used : Nat) (st : σ × Handles) :
    Item × Bytes × (σ × Handles) :=
  match ofNumber op with
  | none => (.illegal, bs, st)
  | some c =>
    match (decodeArgs c).parse bs with
    | none => (.failed c ⟨.badxdr, by decide⟩, bs, st)
    | some (a, bs) =>
      match perform svc c a (used + 8) st with
      | (.done r, st) => (.done c r, bs, st)
      | (.failed s _, st) => (.failed c s, bs, st)

/-- `n` operations; ends with the first that fails. -/
def execute (svc : Service σ) : Nat → Bytes → Nat → σ × Handles → List Item × Status × (σ × Handles)
  | 0, _, _, st => ([], .ok, st)
  | n + 1, bs, used, st =>
    match getU32.parse bs with
    | none => ([], .badxdr, st)
    | some (op, bs) =>
      let (item, bs, st) := executeOp svc op bs used st
      if item.status = .ok then
        let (items, status, st) := execute svc n bs (used + (putItem item).length) st
        (item :: items, status, st)
      else ([item], item.status, st)

/-- The minor version and the number of operations. -/
def getNumbers : Decoder (UInt32 × UInt32) := do
  let minorVersion ← getU32
  let numOps ← getU32
  return (minorVersion, numOps)

/-- A whole request. `used` is the size of the buffer in front of the reply. -/
def executeCompound (svc : Service σ) (maxCompoundOps : UInt32) (request : Bytes) (used : Nat)
    (s : σ) : Reply × (σ × Handles) :=
  match (getOpaque 1024).parse request with
  | none => ({ status := .badxdr, tag := ⟨[], by decide⟩, items := [] }, s, {})
  | some (tag, bs) =>
    match getNumbers.parse bs with
    | none => ({ status := .badxdr, tag, items := [] }, s, {})
    | some ((minorVersion, numOps), bs) =>
      if minorVersion ≠ 0 then ({ status := .minorVersMismatch, tag, items := [] }, s, {})
      else if maxCompoundOps < numOps then ({ status := .resource, tag, items := [] }, s, {})
      else
        let (items, status, st) :=
          execute svc numOps.toNat bs (used + 8 + (putOpaque tag.1).length) (s, {})
        ({ status, tag, items }, st)

/-! ## The loop on bytes -/

/-- What an operation has appended to the reply when it ends as `item` says. -/
inductive Written (op : UInt32) (body : Bytes) : Item → Bytes → Prop
  | done {c : OpCode} (r : Result c) : op = c.number →
    Written op body (.done c r) (body ++ putResult c r)
  | failed {c : OpCode} (s : Failure) (written : Bytes) : op = c.number →
    Written op body (.failed c s) (body ++ written)
  | illegal : op ≠ setattr.number → Written op body .illegal (body ++ [])

/-- `p` has come to where `execute` is after an item. -/
structure Follows (args : XdrReader) (item : Item) (rest : Bytes) : Prop where
  ok : item.status = .ok → args.ok = true
  rest : item.status = .ok → args.rest = rest

variable {args : XdrReader} {bs : Bytes}

theorem processOp_spec (svc : Service σ) (op : UInt32) (hok : args.ok = true) (st : σ × Handles)
    {used body} (hused : body.length = used + 8) {item st'}
    (h : executeOp svc op args.rest used st = (item, bs, st')) :
    ∃ args' body', processOp svc op args st body = (item.status, args', st', body') ∧
      Written op body item body' ∧ Follows args' item bs := by
  unfold executeOp at h
  split at h
  case h_1 hop =>
    cases h
    have hset : op ≠ setattr.number := by
      rintro rfl
      cases hop
    refine ⟨args, body ++ [], ?_, .illegal hset, ⟨by simp [status], by simp [status]⟩⟩
    simp [processOp, hop, status]
  case h_2 c hop =>
    have hnum := (number_of_ofNumber hop).symm
    split at h
    case h_1 hparse =>
      cases h
      have hrun := run_of_parse_none hok hparse
      refine ⟨(run (decodeArgs c) args).2, body ++ [], ?_, .failed _ _ hnum,
        ⟨by simp [status], by simp [status]⟩⟩
      unfold processOp
      rw [hop]
      dsimp only
      rw [← Prod.mk.eta (p := run (decodeArgs c) args), hrun, append_nil]
      rfl
    case h_2 a bs' hparse =>
      obtain ⟨args', hrun, hok', hrest⟩ := run_of_parse hok hparse
      split at h
      case h_1 r st'' hperform =>
        cases h
        refine ⟨args', body ++ putResult c r, ?_, .done r hnum, ⟨fun _ => hok', fun _ => hrest⟩⟩
        unfold processOp
        rw [hop]
        dsimp only
        rw [hrun]
        dsimp only
        rw [hused, hperform]
        rfl
      case h_2 s written st'' hperform =>
        cases h
        refine ⟨args', body ++ written, ?_, .failed s written hnum, ?_⟩
        · unfold processOp
          rw [hop]
          dsimp only
          rw [hrun]
          dsimp only
          rw [hused, hperform]
          rfl
        · exact ⟨fun h => absurd h s.2.1, fun h => absurd h s.2.1⟩

theorem patch_header (res tag items : Bytes) (x y : UInt32) :
    patchU32 (patchU32 (reserveU32 (reserveU32 res ++ tag) ++ items) res.length x)
      (reserveU32 res ++ tag).length y = res ++ (putU32 x ++ tag ++ putU32 y ++ items) := by
  have hfirst : patchU32 (reserveU32 (reserveU32 res ++ tag) ++ items) res.length x =
      res ++ putU32 x ++ tag ++ [0, 0, 0, 0] ++ items := by
    have h := patchU32_reserved res (tag ++ ([0, 0, 0, 0] ++ items)) x
    simpa only [reserveU32, append_assoc] using h
  have hlen : (reserveU32 res ++ tag).length = (res ++ putU32 x ++ tag).length := by
    simp only [reserveU32, length_append, length_putU32, length_cons, length_nil]
  rw [hfirst, hlen, patchU32_reserved (res ++ putU32 x ++ tag) items y]
  simp only [append_assoc]

theorem patch_both (res body : Bytes) (x y : UInt32) :
    patchU32 (patchU32 (reserveU32 (reserveU32 res) ++ body) res.length x)
      (reserveU32 res).length y = res ++ putU32 x ++ putU32 y ++ body := by
  simpa only [append_nil, append_assoc] using patch_header res [] body x y

theorem truncate_body (res body : Bytes) (x y : UInt32) :
    truncate (res ++ putU32 x ++ putU32 y ++ body) (reserveU32 (reserveU32 res)).length =
      res ++ putU32 x ++ putU32 y :=
  take_left' (by simp [reserveU32])

theorem number_eq_setattr {c : OpCode} : c.number = setattr.number ↔ c = .setattr := by
  constructor
  · intro h
    have hc := ofNumber_number c
    rw [h, ofNumber_number] at hc
    exact (some.inj hc).symm
  · rintro rfl
    rfl

variable {p : Progress σ}

theorem answerOp_spec (svc : Service σ) (op : UInt32) (hok : p.args.ok = true) {item : Item}
    (h : executeOp svc op p.args.rest p.res.length p.state = (item, bs, st)) :
    ∃ args, answerOp svc op p =
        { args, state := st, res := p.res ++ putItem item, status := item.status,
          numResults := p.numResults + 1 } ∧
      Follows args item bs := by
  have hused : (reserveU32 (reserveU32 p.res)).length = p.res.length + 8 := by simp [reserveU32]
  obtain ⟨args, body, hop, hwritten, hfollows⟩ := processOp_spec svc op hok p.state hused h
  refine ⟨args, ?_, hfollows⟩
  have hstatus : ¬(item.status = .ok ∧ args.ok = false) := by
    rintro ⟨hs, ha⟩
    exact absurd (hfollows.ok hs) (by simp [ha])
  unfold answerOp
  simp only [hop, hstatus, if_false]
  cases hwritten with
  | done r hc => simp [status, patch_both, putItem, hc]
  | @failed c s written hc =>
    subst hc
    simp only [status, patch_both, truncate_body, putItem, s.2.1, s.2.2, if_false,
      number_eq_setattr]
    split
    · simp [putWords]
    · simp
  | illegal hset =>
    simp only [status, patch_both, truncate_body, putItem, hset, reduceCtorEq, if_false, if_true]
    rw [append_assoc]

theorem processOps_spec (svc : Service σ) (n : Nat) (hok : p.args.ok = true)
    (hstatus : p.status = .ok) {items status}
    (h : execute svc n p.args.rest p.res.length p.state = (items, status, st)) :
    ∃ args, processOps svc n p =
      { args, state := st, res := p.res ++ items.flatMap putItem, status,
        numResults := p.numResults + items.length } := by
  induction n generalizing p items with
  | zero =>
    cases h
    refine ⟨p.args, ?_⟩
    cases p
    simp_all [processOps]
  | succ n ih =>
    rw [execute] at h
    split at h
    case h_1 hparse =>
      cases h
      have hrun := run_of_parse_none hok hparse
      refine ⟨(run getU32 p.args).2, ?_⟩
      rw [processOps, ← Prod.mk.eta (p := run getU32 p.args), hrun]
      simp
    case h_2 op bs hparse =>
      obtain ⟨args, hrun, hok, rfl⟩ := run_of_parse hok hparse
      obtain ⟨item, bs, st', hexec⟩ : ∃ item bs st',
          executeOp svc op args.rest p.res.length p.state = (item, bs, st') := ⟨_, _, _, rfl⟩
      rw [hexec] at h
      dsimp only at h
      obtain ⟨args', hans, hfollows⟩ := answerOp_spec svc op (p := { p with args }) hok hexec
      rw [processOps, hrun]
      dsimp only
      rw [hans]
      by_cases hitem : item.status = .ok
      · rw [if_pos hitem] at h
        obtain ⟨items', status', st'', hrest⟩ : ∃ items' status' st'',
            execute svc n bs (p.res.length + (putItem item).length) st' =
              (items', status', st'') := ⟨_, _, _, rfl⟩
        rw [hrest] at h
        cases h
        rw [if_pos hitem]
        rw [← hfollows.rest hitem, ← length_append] at hrest
        obtain ⟨args'', ih⟩ :=
          ih (p := ⟨args', st', p.res ++ putItem item, item.status, p.numResults + 1⟩)
            (hfollows.ok hitem) hitem hrest
        refine ⟨args'', ih.trans ?_⟩
        simp [Nat.add_comm, Nat.add_left_comm]
      · rw [if_neg hitem] at h
        cases h
        rw [if_neg hitem]
        exact ⟨args', by simp⟩

/-! ## The header -/

theorem getU32_of_not_ok (h : args.ok = false) :
    run getU32 args = (none, args) := run_bytes_of_not_ok h _ _

theorem getU32_bad (hok : args.ok = true) (h : getU32.parse args.rest = none) :
    (run getU32 args).2.ok = false :=
  strict_getU32.not_ok (run_of_parse_none hok h)

theorem readHeader_of_none {request} (h : (getOpaque 1024).parse request = none) :
    (readHeader request).tag = ⟨[], by decide⟩ ∧ (readHeader request).args.ok = false := by
  have hrun := run_of_parse_none (r := { data := request }) rfl h
  have hbad := (strict_getOpaque 1024).not_ok hrun
  have hargs : run (getOpaque 1024) { data := request } =
    (none, (run (getOpaque 1024) { data := request }).2) := Prod.ext hrun rfl
  rw [readHeader, hargs]
  exact ⟨rfl, by simpa only [getU32_of_not_ok hbad] using hbad⟩

variable {tag : Name}

section

variable {request : Bytes} (h : (getOpaque 1024).parse request = some (tag, bs))
include h

theorem readHeader_of_some : (readHeader request).tag = tag := by
  obtain ⟨args, hrun, -⟩ := run_of_parse (r := { data := request }) rfl h
  rw [readHeader, hrun]
  rfl

theorem readHeader_of_numbers_none (hnum : getNumbers.parse bs = none) :
    (readHeader request).args.ok = false := by
  obtain ⟨args, hrun, hok, rfl⟩ := run_of_parse (r := { data := request }) rfl h
  rw [readHeader, hrun]
  change (run getU32 (run getU32 args).2).2.ok = false
  cases hminor : getU32.parse args.rest with
  | none =>
    have hbad := getU32_bad hok hminor
    rw [getU32_of_not_ok hbad]
    exact hbad
  | some v =>
    obtain ⟨args', hrun', hok', hrest⟩ := run_of_parse hok hminor
    rw [hrun']
    refine getU32_bad hok' ?_
    rw [getNumbers, parse_bind, hminor, bind_some, parse_bind, bind_eq_none_iff] at hnum
    rw [hrest]
    exact eq_none_iff_forall_ne_some.mpr fun v' hv => by cases hnum v' hv

theorem readHeader_of_numbers {bs' minorVersion numOps}
    (hnum : getNumbers.parse bs = some ((minorVersion, numOps), bs')) :
    ∃ args, readHeader request = { tag, minorVersion, numOps, args } ∧ args.ok = true ∧
      args.rest = bs' := by
  obtain ⟨args, hrun, hok, rfl⟩ := run_of_parse (r := { data := request }) rfl h
  rw [getNumbers, parse_bind] at hnum
  obtain ⟨⟨v, bs₁⟩, hminor, hnum⟩ := bind_eq_some_iff.mp hnum
  rw [parse_bind] at hnum
  obtain ⟨⟨n, bs₂⟩, hcount, hnum⟩ := bind_eq_some_iff.mp hnum
  cases hnum
  obtain ⟨args₁, hrun₁, hok₁, rfl⟩ := run_of_parse hok hminor
  obtain ⟨args₂, hrun₂, hok₂, rfl⟩ := run_of_parse hok₁ hcount
  refine ⟨args₂, ?_, hok₂, rfl⟩
  rw [readHeader, hrun]
  dsimp only
  rw [hrun₁]
  rw [hrun₂]
  rfl

end

section

variable (svc : Service σ)
include svc

variable (maxCompoundOps : UInt32)

theorem answerOps_spec (request res : Bytes) (s : σ)
    {reply} (h : executeCompound svc maxCompoundOps request res.length s = (reply, st)) :
    (readHeader request).tag = reply.tag ∧ ∃ args, answerOps svc maxCompoundOps (readHeader request)
          { args := (readHeader request).args, state := (s, {}),
            res := reserveU32 (reserveU32 res ++ putOpaque reply.tag.1) } =
        { args, state := st,
          res := reserveU32 (reserveU32 res ++ putOpaque reply.tag.1) ++ reply.items.flatMap putItem,
          status := reply.status, numResults := reply.items.length } := by
  unfold executeCompound at h
  split at h
  case h_1 htag =>
    cases h
    obtain ⟨ht, hbad⟩ := readHeader_of_none htag
    refine ⟨ht, (readHeader request).args, ?_⟩
    rw [answerOps, if_pos hbad]
    simp
  case h_2 tag bs htag =>
    have ht := readHeader_of_some htag
    split at h
    case h_1 hnum =>
      cases h
      have hbad := readHeader_of_numbers_none htag hnum
      refine ⟨ht, (readHeader request).args, ?_⟩
      rw [answerOps, if_pos hbad]
      simp
    case h_2 minorVersion numOps bs hnum =>
      obtain ⟨args, hheader, hok, rfl⟩ := readHeader_of_numbers htag hnum
      rw [hheader, answerOps, if_neg (by simp [hok])]
      split at h
      case isTrue hv =>
        cases h
        exact ⟨rfl, args, by simp [hv]⟩
      case isFalse hv =>
        rw [if_neg hv]
        split at h
        case isTrue hmax =>
          cases h
          exact ⟨rfl, args, by simp [hmax]⟩
        case isFalse hmax =>
          rw [if_neg hmax]
          obtain ⟨items, status, st', hexec⟩ : ∃ items status st',
              execute svc numOps.toNat args.rest (res.length + 8 + (putOpaque tag.1).length)
                (s, {}) = (items, status, st') := ⟨_, _, _, rfl⟩
          rw [hexec] at h
          cases h
          have hused : (reserveU32 (reserveU32 res ++ putOpaque tag.1)).length =
              res.length + 8 + (putOpaque tag.1).length := by
            simp only [reserveU32, length_append, length_cons, length_nil]
            omega
          rw [← hused] at hexec
          obtain ⟨args', hloop⟩ := processOps_spec svc numOps.toNat
            (p := { args, state := (s, {}), res := reserveU32 (reserveU32 res ++ putOpaque tag.1) })
            hok rfl hexec
          exact ⟨rfl, args', by simpa using hloop⟩

/-- What the server makes of a request: the reply is appended to the buffer. -/
theorem processCompound_spec (request res : Bytes)
    (s : σ) {reply} (h : executeCompound svc maxCompoundOps request res.length s = (reply, st)) :
    (processCompound svc maxCompoundOps request res s).res = res ++ putReply reply ∧
      (processCompound svc maxCompoundOps request res s).state = st ∧
      (processCompound svc maxCompoundOps request res s).status = reply.status := by
  obtain ⟨htag, args, hans⟩ := answerOps_spec svc maxCompoundOps request res s h
  unfold processCompound
  dsimp only
  rw [htag, hans]
  refine ⟨?_, rfl, rfl⟩
  exact patch_header res (putOpaque reply.tag.1) (reply.items.flatMap putItem) _ _

/-! ## Bounds -/

theorem processOp_inBounds (op : UInt32) (h : args.InBounds) (st : σ × Handles) (body : Bytes) :
    (processOp svc op args st body).2.1.InBounds := by
  unfold processOp
  split
  · exact h
  rename_i c _
  have hrun := h.run (decodeArgs c)
  split
  · rename_i hargs
    rw [hargs] at hrun
    exact hrun
  · rename_i hargs
    rw [hargs] at hrun
    split <;> exact hrun

theorem processOps_inBounds (n : Nat) (h : p.args.InBounds) :
    (processOps svc n p).args.InBounds := by
  induction n generalizing p with
  | zero => exact h
  | succ n ih =>
    have hrun := h.run getU32
    rw [processOps]
    split
    · rename_i hargs
      rw [hargs] at hrun
      exact hrun
    rename_i op args hargs
    rw [hargs] at hrun
    have hop : (answerOp svc op { p with args }).args.InBounds := processOp_inBounds svc op hrun _ _
    dsimp only
    split
    · exact ih hop
    · exact hop

theorem processCompound_inBounds (request res : Bytes) (s : σ) :
    (processCompound svc maxCompoundOps request res s).args.InBounds := by
  have hheader : (readHeader request).args.InBounds :=
    (((inBounds_start request).run (getOpaque 1024)).run getU32).run getU32
  unfold processCompound answerOps
  dsimp only
  split
  · exact hheader
  split
  · exact hheader
  · split
    · exact hheader
    · exact processOps_inBounds svc _ hheader

end

end Cvmfs.Nfs4.Wire
