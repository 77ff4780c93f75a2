import Cvmfs.Lib.Table

/-! # State of the NFSv4 server

`nfs4_server.cc`, the part guarded by `state_lock_`: clients, open-owners, open
states and delegations, and the operations on them. Each function is what one
critical section does; `OPEN` has two of them with a lookup in the backend in
between, the monitor thread three.

Client ids and stateids are pairs of the boot time and a number, as the server
composes them; result bodies are kept as data. -/

namespace Cvmfs.Nfs4

open Lib Table

/-! ## Protocol data -/

abbrev Opaque := List UInt8

def inc32 (n : Nat) : Nat := (n + 1) % 2 ^ 32

def inc64 (n : Nat) : Nat := (n + 1) % 2 ^ 64

theorem inc32_of_lt {n} (h : n + 1 < 2 ^ 32) : inc32 n = n + 1 := Nat.mod_eq_of_lt h

theorem inc64_of_lt {n} (h : n + 1 < 2 ^ 64) : inc64 n = n + 1 := Nat.mod_eq_of_lt h

inductive Status
  | ok
  | perm
  | noent
  | io
  | access
  | notdir
  | isdir
  | inval
  | fbig
  | nospc
  | rofs
  | nametoolong
  | stale
  | badhandle
  | badCookie
  | notsupp
  | toosmall
  | serverfault
  | delay
  | same
  | resource
  | nofilehandle
  | minorVersMismatch
  | staleClientid
  | staleStateid
  | oldStateid
  | badStateid
  | badSeqid
  | notSame
  | symlink
  | restorefh
  | attrnotsupp
  | reclaimBad
  | badxdr
  | badname
  | opIllegal
  | moved
deriving DecidableEq

/-- Errors after which the sequence number of an open-owner is not advanced. -/
def seqidAdvances : Status → Bool
  | .staleClientid | .staleStateid | .badStateid | .badSeqid | .badxdr | .resource
  | .nofilehandle | .moved => false
  | _ => true

structure ClientId where
  boot : Nat
  number : Nat
deriving DecidableEq

/-- The part of a stateid that stays the same, `kStateidOtherSize` bytes. -/
structure Other where
  boot : Nat
  number : Nat
deriving DecidableEq

structure Stateid where
  seqid : Nat
  other : Other
deriving DecidableEq

inductive Kind
  | object
  | attrDir
  | namedAttr
deriving DecidableEq

structure FileHandle where
  kind : Kind
  fsid : Nat
  ino : Nat
  aux : Nat := 0
deriving DecidableEq

structure Attr where
  ino : Nat
  mode : Nat
  uid : Nat
  gid : Nat
deriving DecidableEq

def isDir (mode : Nat) : Bool := decide (mode >>> 12 &&& 15 = 4)

def isLnk (mode : Nat) : Bool := decide (mode >>> 12 &&& 15 = 10)

def isReg (mode : Nat) : Bool := decide (mode >>> 12 &&& 15 = 8)

structure Credentials where
  uid : Nat
  gid : Nat
  gids : List Nat := []
deriving DecidableEq

def access4Read : Nat := 0x01

def access4Lookup : Nat := 0x02

def access4Execute : Nat := 0x20

/-- Permission check against the mode bits. -/
def accessFromMode (attr : Attr) (creds : Credentials) : Nat :=
  let perms :=
    if creds.uid = 0 then 4 ||| (if attr.mode &&& 0o111 = 0 then 0 else 1)
    else if creds.uid = attr.uid then attr.mode >>> 6 &&& 7
    else if creds.gid = attr.gid ∨ attr.gid ∈ creds.gids then attr.mode >>> 3 &&& 7
    else attr.mode &&& 7
  (if perms &&& 4 = 0 then 0 else access4Read) |||
    (if perms &&& 1 = 0 then 0 else if isDir attr.mode then access4Lookup else access4Execute)

/-- A resolved file handle. `generation` is the generation of the backend when the
attributes were read. -/
structure Object where
  fh : FileHandle
  attr : Attr
  generation : Nat
deriving DecidableEq

abbrev OwnerKey := ClientId × Opaque

/-- The operations that carry the sequence number of an open-owner. -/
inductive SeqOp
  | open
  | openConfirm
  | openDowngrade
  | close
deriving DecidableEq

inductive Body
  | empty
  | stateid (id : Stateid)
  | opened (id : Stateid) (delegation : Option Stateid)
  | client (id : ClientId) (confirm : Nat)
deriving DecidableEq

/-- The stateid that makes up a body. -/
def Body.other? : Body → Option Other
  | .stateid id => some id.other
  | _ => none

abbrev Answer := Status × Body

structure Client where
  name : Opaque
  verifier : Opaque
  confirm : Nat := 0
  confirmed : Bool := false
  /-- Identity of the callback client and whether it is valid. -/
  callback : Option (Nat × Bool) := none
  callbackOk : Bool := false
deriving DecidableEq

/-- Sequencing state of an open-owner with the reply for replays. -/
structure OpenOwner where
  seqid : Nat
  lastOp : SeqOp
  lastStatus : Status
  lastBody : Body
deriving DecidableEq

structure OpenState where
  seqid : Nat := 0
  owner : OwnerKey
  fh : FileHandle
  access : Nat := 0
deriving DecidableEq

structure Delegation where
  clientid : ClientId
  fh : FileHandle
  seqid : Nat := 1
  /-- When the recall was sent, 0 if not recalled. -/
  recalled : Nat := 0
  attr : Attr
  /-- Generation of the backend when the attributes were read. -/
  generation : Nat
deriving DecidableEq

structure Config where
  boot : Nat
  leaseTime : Nat
  maxStateids : Nat
  delegations : Bool

/-- What `state_lock_` guards. -/
structure Server where
  nextClientid : Nat := 1
  nextStateid : Nat := 1
  nextCallback : Nat := 0
  clients : Table ClientId Client := empty
  owners : Table OwnerKey OpenOwner := empty
  openStates : Table Other OpenState := empty
  delegations : Table Other Delegation := empty
  recalledFiles : List (ClientId × Nat) := []
  frozenAttrs : Table Nat Attr := empty
  pendingProbes : List ClientId := []
  lastGeneration : Nat := 0
  /-- History: all stateids handed out. -/
  issued : List Other := []
  /-- History: all clients dropped. -/
  dropped : List ClientId := []

namespace Server

variable (cfg : Config)

/-! ## Checks -/

def checkClient (s : Server) (clientid : ClientId) : Status :=
  if clientid.boot ≠ cfg.boot then .staleClientid
  else
    match s.clients.find? clientid with
    | none => .staleClientid
    | some c => if c.confirmed then .ok else .staleClientid

inductive SeqidCheck
  | process
  | replay (status : Status) (body : Body)
  | bad
deriving DecidableEq

def checkSeqid (s : Server) (owner : OwnerKey) (seqid : Nat) (op : SeqOp) (createOwner : Bool) :
    SeqidCheck :=
  match s.owners.find? owner with
  | none => if createOwner then .process else .bad
  | some o =>
    if seqid = inc32 o.seqid then .process
    else if seqid = o.seqid ∧ o.lastOp = op then .replay o.lastStatus o.lastBody
    else .bad

def recordSeqid (s : Server) (owner : OwnerKey) (seqid : Nat) (op : SeqOp) (status : Status)
    (body : Body) : Server :=
  if seqidAdvances status then
    { s with owners := s.owners.put owner ⟨seqid, op, status, body⟩ }
  else s

def findOpenState (s : Server) (stateid : Stateid) (exactSeqid : Bool) :
    Except Status OpenState :=
  if stateid.other.boot ≠ cfg.boot then .error .staleStateid
  else
    match s.openStates.find? stateid.other with
    | none => .error .badStateid
    | some st =>
      if st.seqid < stateid.seqid then .error .badStateid
      else if exactSeqid && decide (stateid.seqid < st.seqid) then .error .oldStateid
      else .ok st

/-! ## Delegations -/

def updateFrozenAttrs (s : Server) : Server :=
  { s with
    frozenAttrs := s.delegations.entries.foldl
      (fun t e => if e.2.recalled = 0 then t else t.put e.2.fh.ino e.2.attr) empty }

def newStateidOther (s : Server) : Other × Server :=
  (⟨cfg.boot, s.nextStateid⟩,
    { s with
      nextStateid := inc64 s.nextStateid
      issued := ⟨cfg.boot, s.nextStateid⟩ :: s.issued })

/-- Whether `PutDelegation` grants one, before it looks at recalled files. -/
def mayGrant (s : Server) (clientid : ClientId) (fh : FileHandle) : Bool :=
  cfg.delegations && decide (fh.kind = .object) &&
    ((s.clients.find? clientid).map Client.callbackOk).getD false &&
    s.delegations.entries.all fun e =>
      decide (¬(e.2.clientid = clientid ∧ e.2.fh = fh) ∧ e.2.recalled = 0)

def putDelegation (s : Server) (clientid : ClientId) (target : Object) :
    Server × Option Stateid :=
  if s.mayGrant cfg clientid target.fh then
    if (clientid, target.fh.ino) ∈ s.recalledFiles then
      ({ s with recalledFiles := s.recalledFiles.filter (· ≠ (clientid, target.fh.ino)) }, none)
    else if cfg.maxStateids ≤ s.delegations.entries.length then (s, none)
    else
      let r := s.newStateidOther cfg
      let d : Delegation :=
        { clientid := clientid, fh := target.fh, attr := target.attr
          generation := target.generation }
      ({ r.2 with delegations := r.2.delegations.put r.1 d }, some ⟨d.seqid, r.1⟩)
  else (s, none)

def opDelegreturn (s : Server) (stateid : Stateid) : Server × Status :=
  if stateid.other.boot ≠ cfg.boot then (s, .staleStateid)
  else if s.delegations.contains stateid.other then
    let t := { s with delegations := s.delegations.erase stateid.other }
    (if t.frozenAttrs.entries.isEmpty then t else t.updateFrozenAttrs, .ok)
  else (s, .badStateid)

/-! ## Clients -/

def dropClient (s : Server) (clientid : ClientId) : Server :=
  updateFrozenAttrs
    { s with
      clients := s.clients.erase clientid
      recalledFiles := s.recalledFiles.filter (·.1 ≠ clientid)
      delegations := s.delegations.select fun _ d => decide (d.clientid ≠ clientid)
      openStates := s.openStates.select fun _ st => decide (st.owner.1 ≠ clientid)
      owners := s.owners.filter fun k => decide (k.1 ≠ clientid)
      dropped := clientid :: s.dropped }

/-- The confirmed record of the same client instance. -/
def sameInstance (s : Server) (verifier name : Opaque) : Option ClientId :=
  (s.clients.entries.find? fun e =>
    decide (e.2.name = name) && e.2.confirmed && decide (e.2.verifier = verifier)).map Prod.fst

/-- A new record in place of unconfirmed ones of the same name. -/
def newClient (s : Server) (verifier name : Opaque) : ClientId × Server :=
  let clientid : ClientId := ⟨cfg.boot, s.nextClientid⟩
  let clients := s.clients.select fun _ c => !(decide (c.name = name) && !c.confirmed)
  -- `operator[]`: a record is found under the new id only after the numbers wrap
  let record : Client := (clients.find? clientid).getD { name := name, verifier := verifier }
  (clientid,
    { s with
      clients := clients.put clientid { record with name := name, verifier := verifier }
      nextClientid := inc32 s.nextClientid })

def opSetclientid (s : Server) (verifier name : Opaque) (callbackValid : Bool) (time : Nat) :
    Server × Answer :=
  let r :=
    match s.sameInstance verifier name with
    | some clientid => (clientid, s)
    | none => s.newClient cfg verifier name
  let confirm := (r.2.nextClientid <<< 32) ^^^ time
  let update (c : Client) : Client :=
    if cfg.delegations then
      { c with
        confirm := confirm
        callback := some (r.2.nextCallback, callbackValid)
        callbackOk := false }
    else { c with confirm := confirm }
  ({ r.2 with
      clients := r.2.clients.adjust r.1 update
      nextClientid := inc32 r.2.nextClientid
      nextCallback := r.2.nextCallback + 1 }, .ok, .client r.1 confirm)

/-- Other records of the same name, confirmed or not. -/
def previous (s : Server) (clientid : ClientId) (name : Opaque) : List ClientId :=
  (s.clients.entries.filter fun e => decide (e.1 ≠ clientid ∧ e.2.name = name)).map Prod.fst

def setConfirmed (s : Server) (clientid : ClientId) : Server :=
  { s with clients := s.clients.adjust clientid fun c => { c with confirmed := true } }

/-- Queues the callback path of a client for a probe. -/
def queueProbe (s : Server) (clientid : ClientId) (c : Client) : Server :=
  if cfg.delegations && ((c.callback.map Prod.snd).getD false) then
    { s with pendingProbes := s.pendingProbes ++ [clientid] }
  else s

def opSetclientidConfirm (s : Server) (clientid : ClientId) (confirm : Nat) : Server × Status :=
  match s.clients.find? clientid with
  | none => (s, .staleClientid)
  | some c =>
    if c.confirm ≠ confirm then (s, .staleClientid)
    else
      let s := s.queueProbe cfg clientid c
      if c.confirmed then (s, .ok)
      else
        -- a rebooted client replaces its previous incarnation and its state
        let s := s.setConfirmed clientid
        ((s.previous clientid c.name).foldl dropClient s, .ok)

/-! ## Opens -/

inductive Claim
  | null (name : Opaque)
  | previous (delegationType : Nat)
  | delegateCur (delegation : Stateid) (name : Opaque)
  | unknown (claimType : Nat)
deriving DecidableEq

structure OpenArgs where
  seqid : Nat
  shareAccess : Nat
  shareDeny : Nat
  clientid : ClientId
  owner : Opaque
  create : Bool
  claim : Claim
deriving DecidableEq

def OpenArgs.key (a : OpenArgs) : OwnerKey := (a.clientid, a.owner)

/-- `OpOpen` up to the lookup; `none` means that it goes on. -/
def openBegin (s : Server) (a : OpenArgs) (hasFh : Bool) : Option Answer :=
  if a.create then some (if hasFh then .rofs else .nofilehandle, .empty)
  else
    match a.claim with
    | .unknown _ => some (.reclaimBad, .empty)
    | _ =>
      if !hasFh then some (.nofilehandle, .empty)
      else
        match s.checkClient cfg a.clientid with
        | .ok =>
          match s.checkSeqid a.key a.seqid .open true with
          | .process => none
          | .replay status body => some (status, body)
          | .bad => some (.badSeqid, .empty)
        | status => some (status, .empty)

/-- What `OpOpen` checks about the object it has found. -/
def openCheck (a : OpenArgs) (creds : Credentials) (target : Object) : Status :=
  if a.shareAccess &&& 2 ≠ 0 ∨ a.shareAccess &&& 1 = 0 then .rofs
  else if target.fh.kind = .attrDir ∨ isDir target.attr.mode then .isdir
  else if isLnk target.attr.mode then .symlink
  else if !isReg target.attr.mode then .inval
  else if accessFromMode target.attr creds &&& access4Read = 0 then .access
  else .ok

/-- The open state of an owner for a file: repeated opens share one. -/
def shareOpen (s : Server) (owner : OwnerKey) (fh : FileHandle) : Option (Other × Server) :=
  match s.openStates.entries.find? fun e => decide (e.2.owner = owner ∧ e.2.fh = fh) with
  | some e => some (e.1, s)
  | none =>
    if cfg.maxStateids ≤ s.openStates.entries.length then none
    else
      let r := s.newStateidOther cfg
      some (r.1, { r.2 with
        openStates := r.2.openStates.put r.1 { owner := owner, fh := fh } })

/-- Increments the sequence number and adds the access. -/
def bumpOpen (s : Server) (other : Other) (shareAccess : Nat) : Server :=
  { s with
    openStates := s.openStates.adjust other fun st =>
      { st with seqid := inc32 st.seqid, access := st.access ||| shareAccess } }

def stateidOf (s : Server) (other : Other) : Stateid :=
  ⟨((s.openStates.find? other).map OpenState.seqid).getD 0, other⟩

/-- A delegation is tried for with `CLAIM_NULL` only. -/
def tryDelegation (s : Server) (a : OpenArgs) (target : Object) : Server × Option Stateid :=
  match a.claim with
  | .null _ => s.putDelegation cfg a.clientid target
  | _ => (s, none)

/-- The second critical section of `OpOpen`, for the status and the object of the
lookup. -/
def openFinish (s : Server) (a : OpenArgs) (creds : Credentials) (target : Except Status Object) :
    Server × Answer :=
  match target with
  | .error status => (s.recordSeqid a.key a.seqid .open status .empty, status, .empty)
  | .ok target =>
    match openCheck a creds target with
    | .ok =>
      match s.shareOpen cfg a.key target.fh with
      | none => (s, .resource, .empty)
      | some r =>
        let s := r.2.bumpOpen r.1 a.shareAccess
        let d := s.tryDelegation cfg a target
        let body := Body.opened (s.stateidOf r.1) d.2
        (d.1.recordSeqid a.key a.seqid .open .ok body, .ok, body)
    | status => (s.recordSeqid a.key a.seqid .open status .empty, status, .empty)

/-- The operations on an open state: it is looked up first, then the sequence number
of its owner is checked. -/
def sequenced (s : Server) (stateid : Stateid) (seqid : Nat) (op : SeqOp) (hasFh : Bool)
    (process : OpenState → Server × Answer) : Server × Answer :=
  if !hasFh then (s, .nofilehandle, .empty)
  else
    match s.findOpenState cfg stateid true with
    | .error status => (s, status, .empty)
    | .ok st =>
      match s.checkSeqid st.owner seqid op false with
      | .bad => (s, .badSeqid, .empty)
      | .replay status body => (s, status, body)
      | .process => process st

def opOpenConfirm (s : Server) (stateid : Stateid) (seqid : Nat) (hasFh : Bool) :
    Server × Answer :=
  s.sequenced cfg stateid seqid .openConfirm hasFh fun st =>
    let body := Body.stateid ⟨inc32 st.seqid, stateid.other⟩
    let s := { s with
      openStates := s.openStates.put stateid.other { st with seqid := inc32 st.seqid } }
    (s.recordSeqid st.owner seqid .openConfirm .ok body, .ok, body)

def opOpenDowngrade (s : Server) (stateid : Stateid) (seqid shareAccess : Nat) (hasFh : Bool) :
    Server × Answer :=
  s.sequenced cfg stateid seqid .openDowngrade hasFh fun st =>
    if shareAccess &&& st.access ≠ shareAccess then
      (s.recordSeqid st.owner seqid .openDowngrade .inval .empty, .inval, .empty)
    else
      let body := Body.stateid ⟨inc32 st.seqid, stateid.other⟩
      let s := { s with
        openStates := s.openStates.put stateid.other
          { st with seqid := inc32 st.seqid, access := shareAccess } }
      (s.recordSeqid st.owner seqid .openDowngrade .ok body, .ok, body)

/-- The reply of a `CLOSE` whose stateid is gone, by the cached reply of its owner. -/
def closedReply (s : Server) (other : Other) (seqid : Nat) : Option Answer :=
  (s.owners.entries.find? fun e =>
    decide (e.2.lastOp = .close ∧ e.2.seqid = seqid ∧ e.2.lastBody.other? = some other)).map
      fun e => (e.2.lastStatus, e.2.lastBody)

/-- A stateid is gone after a `CLOSE`, so a retransmitted one is recognised by the
cached reply. -/
def replayedClose (s : Server) (stateid : Stateid) (seqid : Nat) (hasFh : Bool) :
    Option Answer :=
  match hasFh, s.findOpenState cfg stateid true with
  | true, .error .badStateid => s.closedReply stateid.other seqid
  | _, _ => none

def opClose (s : Server) (stateid : Stateid) (seqid : Nat) (hasFh : Bool) : Server × Answer :=
  match s.replayedClose cfg stateid seqid hasFh with
  | some reply => (s, reply)
  | none =>
    s.sequenced cfg stateid seqid .close hasFh fun st =>
      let body := Body.stateid ⟨inc32 st.seqid, stateid.other⟩
      let s := { s with openStates := s.openStates.erase stateid.other }
      (s.recordSeqid st.owner seqid .close .ok body, .ok, body)

/-! ## The monitor thread -/

/-- Start of a round: the callback paths to probe. -/
def takeProbes (s : Server) : List (ClientId × Nat) × Server :=
  (s.pendingProbes.filterMap fun id =>
      (s.clients.find? id).bind fun c => c.callback.map fun cb => (id, cb.1),
    { s with pendingProbes := [] })

/-- Stores the outcome of a probe unless the callback was replaced meanwhile. -/
def storeProbe (s : Server) (probe : (ClientId × Nat) × Bool) : Server :=
  { s with
    clients := s.clients.adjust probe.1.1 fun c =>
      if c.callback.map Prod.fst = some probe.1.2 then { c with callbackOk := probe.2 } else c }

def hasCallback (s : Server) (clientid : ClientId) : Bool :=
  ((s.clients.find? clientid).bind Client.callback).isSome

/-- What a round does to a delegation: keeps it, marks it recalled or erases it. -/
def reviewDelegation (s : Server) (now : Nat) (changed : Bool) (d : Delegation) :
    Option Delegation :=
  if d.recalled ≠ 0 ∧ cfg.leaseTime + d.recalled < now then none
  else if changed && decide (d.recalled = 0) then
    if s.hasCallback d.clientid then some { d with recalled := now } else none
  else some d

def recalledNow (s : Server) (now : Nat) (changed : Bool) : List (Other × Delegation) :=
  s.delegations.entries.filter fun e =>
    changed && decide (e.2.recalled = 0) && s.hasCallback e.2.clientid &&
      (s.reviewDelegation cfg now changed e.2).isSome

/-- Recalls everything when the exported tree has changed and revokes what was not
returned within a lease period. -/
def reviewDelegations (s : Server) (generation now : Nat) : List Other × Server :=
  let changed := decide (s.lastGeneration ≠ 0 ∧ generation ≠ s.lastGeneration)
  let recalls := s.recalledNow cfg now changed
  (recalls.map Prod.fst, updateFrozenAttrs
      { s with
        lastGeneration := generation
        delegations := (s.delegations.select fun _ d =>
          (s.reviewDelegation cfg now changed d).isSome).mapValues fun _ d =>
            (s.reviewDelegation cfg now changed d).getD d
        recalledFiles := s.recalledFiles ++ recalls.map fun e => (e.2.clientid, e.2.fh.ino) })

/-- The part of a round that runs with the outcome of the probes and the generation
read. -/
def monitorUpdate (s : Server) (probes : List ((ClientId × Nat) × Bool)) (generation now : Nat) :
    List Other × Server :=
  (probes.foldl storeProbe s).reviewDelegations cfg generation now

/-- End of a round: delegations whose recall failed are erased. -/
def recallsSent (s : Server) (failed : List Other) : Server :=
  updateFrozenAttrs { s with delegations := s.delegations.filter fun o => decide (o ∉ failed) }

end Server

end Cvmfs.Nfs4
