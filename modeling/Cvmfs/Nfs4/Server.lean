import Cvmfs.Lib.Transition
import Cvmfs.Nfs4.State

/-! # The NFSv4 server as a transition system

Threads run compounds, the monitor thread runs its rounds, and the backend changes
its generation. A step is one critical section, one lookup of an `OPEN` or one
change of the backend, so that runs are all interleavings. -/

namespace Cvmfs.Nfs4

open Lib Server

/-- An `OPEN` between its critical sections. -/
structure PendingOpen where
  args : OpenArgs
  creds : Credentials
  /-- Status or object of the lookup. -/
  target : Option (Except Status Object) := none

/-- Where the monitor thread is in its round. -/
inductive Monitor
  | idle
  | probing (callbacks : List (ClientId × Nat))
  | updating (callbacks : List (ClientId × Nat)) (generation : Nat)
  | recalling (recalls : List Other)

structure World where
  server : Server := {}
  /-- `Generation` of the backend. -/
  generation : Nat
  /-- The `OPEN` operations in progress, by thread. -/
  opens : Table Nat PendingOpen := Table.empty
  monitor : Monitor := .idle
  /-- History: the clock reading of the last round. -/
  lastRound : Nat := 0

inductive Event
  | setclientid (verifier name : Opaque) (callbackValid : Bool) (time : Nat)
  | setclientidConfirm (clientid : ClientId) (confirm : Nat)
  | openBegin (thread : Nat) (args : OpenArgs) (creds : Credentials) (hasFh : Bool)
  | openLookup (thread : Nat) (target : Except Status (FileHandle × Attr))
  | openFinish (thread : Nat)
  | openConfirm (stateid : Stateid) (seqid : Nat) (hasFh : Bool)
  | openDowngrade (stateid : Stateid) (seqid shareAccess : Nat) (hasFh : Bool)
  | close (stateid : Stateid) (seqid : Nat) (hasFh : Bool)
  | delegreturn (stateid : Stateid)
  | generation (new : Nat)
  | monitorStart
  | monitorRead
  | monitorUpdate (probeOk : List Bool) (now : Nat)
  | monitorRecalled (failed : List Other)

namespace World

variable (cfg : Config)

/-- Replaces the server state by the outcome of a critical section. -/
def answer (w : World) (r : Server × Answer) : Option (World × Option Answer) :=
  some ({ w with server := r.1 }, some r.2)

def exec (w : World) : Event → Option (World × Option Answer)
  | .setclientid verifier name callbackValid time =>
    w.answer (w.server.opSetclientid cfg verifier name callbackValid time)
  | .setclientidConfirm clientid confirm =>
    let r := w.server.opSetclientidConfirm cfg clientid confirm
    w.answer (r.1, r.2, .empty)
  | .openBegin thread args creds hasFh =>
    if w.opens.contains thread then none
    else
      match w.server.openBegin cfg args hasFh with
      | some a => some (w, some a)
      | none => some ({ w with opens := w.opens.put thread { args := args, creds := creds } }, none)
  | .openLookup thread target =>
    match w.opens.find? thread with
    | some ⟨args, creds, none⟩ =>
      let found := target.map fun t => (⟨t.1, t.2, w.generation⟩ : Object)
      some ({ w with opens := w.opens.put thread ⟨args, creds, some found⟩ }, none)
    | _ => none
  | .openFinish thread =>
    match w.opens.find? thread with
    | some ⟨args, creds, some target⟩ =>
      { w with opens := w.opens.erase thread }.answer (w.server.openFinish cfg args creds target)
    | _ => none
  | .openConfirm stateid seqid hasFh => w.answer (w.server.opOpenConfirm cfg stateid seqid hasFh)
  | .openDowngrade stateid seqid shareAccess hasFh =>
    w.answer (w.server.opOpenDowngrade cfg stateid seqid shareAccess hasFh)
  | .close stateid seqid hasFh => w.answer (w.server.opClose cfg stateid seqid hasFh)
  | .delegreturn stateid =>
    let r := w.server.opDelegreturn cfg stateid
    w.answer (r.1, r.2, .empty)
  | .generation new => some ({ w with generation := new }, none)
  | .monitorStart =>
    match w.monitor with
    | .idle =>
      let r := w.server.takeProbes
      some ({ w with server := r.2, monitor := .probing r.1 }, none)
    | _ => none
  | .monitorRead =>
    match w.monitor with
    | .probing callbacks => some ({ w with monitor := .updating callbacks w.generation }, none)
    | _ => none
  | .monitorUpdate probeOk now =>
    match w.monitor with
    | .updating callbacks generation =>
      let r := w.server.monitorUpdate cfg (callbacks.zip probeOk) generation now
      some ({ w with
        server := r.2
        monitor := if r.1.isEmpty then .idle else .recalling r.1
        lastRound := now }, none)
    | _ => none
  | .monitorRecalled failed =>
    match w.monitor with
    | .recalling recalls =>
      some ({ w with
        server := w.server.recallsSent (failed.filter (· ∈ recalls)), monitor := .idle }, none)
    | _ => none

end World

def Started (w : World) : Prop := ∃ g, w = { generation := g }

def system (cfg : Config) : System World Event where
  init := Started
  step w e w' := ∃ a, w.exec cfg e = some (w', a)

end Cvmfs.Nfs4
