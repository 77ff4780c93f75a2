import Mathlib.Data.List.Sort
import Mathlib.Data.Prod.Lex
import Cvmfs.Lib.Table
import Cvmfs.Lib.Transition
import Cvmfs.Lib.Word

/-! # The quota manager of the cache

`quota_posix.cc`: the table of cached files with its two counters, and the server
loop that reads the commands of the clients. Inserts, touches and unpins are
buffered and processed in bunches; reservations, limits and the clean-up policy
take effect at once; removals and clean-ups flush the buffer first. `none` stands
for the assertion that a clean-up has made room.

The counters are unsigned 64-bit numbers, the size of a buffered insert is a
32-bit one. What the environment decides is an argument: the open files reported
during a clean-up and whether a file exists. -/

namespace Cvmfs.Quota

open Lib

/-- Content hash of a cached file. -/
abbrev Hash := Nat

/-! ## Machine numbers -/

def add64 (a b : Nat) : Nat := (a + b) % 2 ^ 64

/-- `unsigned` from a 64-bit number. -/
def toUnsigned (n : Nat) : Nat := n % 2 ^ 32

/-- `GetSize`: the upper bits of the size in a command hold the algorithm. -/
def getSize (n : Nat) : Nat := n % 2 ^ 61

theorem add64_of_lt {a b} (h : a + b < 2 ^ 64) : add64 a b = a + b := Nat.mod_eq_of_lt h

theorem toUnsigned_of_lt {n} (h : n < 2 ^ 32) : toUnsigned n = n := Nat.mod_eq_of_lt h

/-! ## The cache catalog -/

/-- The column `pinned`: 0, 1 and 2. -/
inductive PinFlag
  | unpinned
  | pinned
  | blocked
deriving DecidableEq

/-- Access sequence numbers. Those of volatile files have the sign bit set and so
come before all others. -/
abbrev AcSeq := Bool ×ₗ ℕ

/-- The access sequence number `seq` of a file that is volatile or not. -/
def acSeq (isVolatile : Bool) (seq : Nat) : AcSeq := toLex (!isVolatile, seq)

/-- A row of `cache_catalog` without its key. -/
structure Entry where
  size : Nat
  acseq : AcSeq
  flag : PinFlag
deriving DecidableEq

/-- `UPDATE … SET acseq=:seq | (acseq&(1<<63))`. -/
def Entry.touch (e : Entry) (seq : Nat) : Entry := { e with acseq := toLex ((ofLex e.acseq).1, seq) }

structure EvictCandidate where
  hash : Hash
  size : Nat
  acseq : AcSeq
deriving DecidableEq

inductive Command
  | touch (hash : Hash)
  | unpin (hash : Hash)
  | insert (hash : Hash) (size : Nat)
  | insertVolatile (hash : Hash) (size : Nat)
  | pin (hash : Hash) (size : Nat)
  | pinRegular (hash : Hash) (size : Nat)
deriving DecidableEq

structure State where
  spawned : Bool := true
  limit : Nat
  cleanupThreshold : Nat
  gauge : Nat := 0
  pinned : Nat := 0
  seq : Nat := 0
  cleanupUnusedFirst : Bool := false
  cacheCatalog : Table Hash Entry := Table.empty
  pinnedChunks : Table Hash Nat := Table.empty
  commandBuffer : List Command := []
  /-- Files that were handed over to be unlinked by another process or thread. -/
  trash : List Hash := []
  /-- Hashes that a client pinned with success and has neither unpinned nor removed. -/
  held : List Hash := []

def kEvictBatchSize : Nat := 1000

def kCommandBufferSize : Nat := 32

/-! ## Cleaning up -/

/-- `stmt_lru_`: the least recently used rows that are not blocked. -/
def lruCandidates (t : Table Hash Entry) (maxAcseq : Option AcSeq) : List EvictCandidate :=
  let rows := t.entries.filter fun e =>
    decide (e.2.flag ≠ .blocked) && maxAcseq.all fun a => decide (a < e.2.acseq)
  let candidates := rows.map fun e => (⟨e.1, e.2.size, e.2.acseq⟩ : EvictCandidate)
  (candidates.insertionSort fun c d => c.acseq ≤ d.acseq).take kEvictBatchSize

def skipEviction (t : Table Hash Entry) (h : Hash) : Table Hash Entry :=
  t.adjust h fun e => { e with flag := .blocked }

/-- The variables of `DoCleanup`; `none` for `max_acseq` is the marker -1. -/
structure Pass where
  table : Table Hash Entry
  gauge : Nat
  trash : List Hash := []
  maxAcseq : Option AcSeq := none
  lruOrderedOpen : List EvictCandidate := []

/-- What a clean-up does not change. -/
structure CleanupContext where
  leaveSize : Nat
  pinnedChunks : Table Hash Nat
  cleanupUnusedFirst : Bool

namespace Pass

/-- Puts a file into the trash. -/
def evict (p : Pass) (c : EvictCandidate) : Pass :=
  { p with
    trash := p.trash ++ [c.hash]
    gauge := sub64 p.gauge c.size
    maxAcseq := some c.acseq }

/-- The loop over the candidates of one batch. -/
def evictBatch (ctx : CleanupContext) (isOpen : Hash → Bool) : List EvictCandidate → Pass → Pass
  | [], p => p
  | c :: cs, p =>
    if ctx.pinnedChunks.contains c.hash then
      evictBatch ctx isOpen cs { p with table := skipEviction p.table c.hash }
    else if ctx.cleanupUnusedFirst && isOpen c.hash then
      evictBatch ctx isOpen cs
        { p with
          table := skipEviction p.table c.hash
          lruOrderedOpen := p.lruOrderedOpen ++ [c] }
    else if (p.evict c).gauge ≤ ctx.leaveSize then p.evict c
    else evictBatch ctx isOpen cs (p.evict c)

/-- The `do … while` loop. The open files are collected anew for each batch. -/
def evictLoop (ctx : CleanupContext) (isOpen : Nat → Hash → Bool) : Nat → Nat → Pass → Pass
  | 0, _, p => p
  | fuel + 1, k, p =>
    match lruCandidates p.table p.maxAcseq with
    | [] => p
    | c :: cs =>
      let p := evictBatch ctx (isOpen k) (c :: cs) p
      if ctx.leaveSize < p.gauge then evictLoop ctx isOpen fuel (k + 1) p else p

/-- `stmt_rm_batch_` and `stmt_unblock_`. -/
def removeBatch (p : Pass) : Pass :=
  match p.maxAcseq with
  | none => p
  | some a =>
    { p with
      table := (p.table.select fun _ e => decide (a < e.acseq ∨ e.flag = .blocked)).mapValues
        fun _ e => if e.flag = .blocked then { e with flag := .pinned } else e }

/-- The loop that evicts open files after all. -/
def evictOpen (leaveSize : Nat) : List EvictCandidate → Pass → Pass
  | [], p => p
  | c :: cs, p =>
    if leaveSize < p.gauge then
      evictOpen leaveSize cs { p with trash := p.trash ++ [c.hash], gauge := sub64 p.gauge c.size }
    else p

end Pass

namespace State

/-- `DoCleanup`. A row is visited once, so the loop takes no more rounds than there
are rows. -/
def doCleanup (s : State) (leaveSize : Nat) (isOpen : Nat → Hash → Bool) : State × Bool :=
  if s.gauge ≤ leaveSize then (s, true)
  else
    let ctx : CleanupContext := ⟨leaveSize, s.pinnedChunks, s.cleanupUnusedFirst⟩
    let p := Pass.evictLoop ctx isOpen (s.cacheCatalog.entries.length + 1) 0
      { table := s.cacheCatalog, gauge := s.gauge }
    let p := Pass.evictOpen leaveSize p.lruOrderedOpen p.removeBatch
    ({ s with cacheCatalog := p.table, gauge := p.gauge, trash := s.trash ++ p.trash },
      decide (p.gauge ≤ leaveSize))

/-! ## Commands -/

/-- Cleans up if a new file does not fit; the clean-up has to succeed. -/
def makeRoom (s : State) (h : Hash) (size : Nat) (isOpen : Nat → Hash → Bool) : Option State :=
  if !s.cacheCatalog.contains h && decide (s.limit < add64 s.gauge size) then
    let r := s.doCleanup s.cleanupThreshold isOpen
    if r.2 then some r.1 else none
  else some s

/-- `stmt_new_` and the gauge. -/
def insertOrReplace (s : State) (h : Hash) (size : Nat) (isVolatile : Bool) (flag : PinFlag) :
    State :=
  { s with
    cacheCatalog := s.cacheCatalog.put h ⟨size, acSeq isVolatile s.seq, flag⟩
    seq := s.seq + 1
    gauge := if s.cacheCatalog.contains h then s.gauge else add64 s.gauge size }

/-- The four commands that insert a row. -/
def insertEntry (s : State) (h : Hash) (size : Nat) (isVolatile : Bool) (flag : PinFlag)
    (isOpen : Nat → Hash → Bool) : Option State :=
  (s.makeRoom h size isOpen).map fun s => s.insertOrReplace h size isVolatile flag

def processCommand (s : State) (isOpen : Nat → Hash → Bool) : Command → Option State
  | .touch h =>
    some { s with
      cacheCatalog := s.cacheCatalog.adjust h fun e => e.touch s.seq
      seq := s.seq + 1 }
  | .unpin h =>
    some { s with
      cacheCatalog := s.cacheCatalog.adjust h fun e => { e with flag := .unpinned } }
  | .insert h size => s.insertEntry h (toUnsigned size) false .unpinned isOpen
  | .insertVolatile h size => s.insertEntry h (toUnsigned size) true .unpinned isOpen
  | .pin h size => s.insertEntry h (toUnsigned size) false .pinned isOpen
  | .pinRegular h size => s.insertEntry h (toUnsigned size) false .pinned isOpen

/-- `ProcessCommandBunch`; `isOpen k` belongs to the clean-up of the command `k` of
the bunch. -/
def processCommandBunch (isOpen : Nat → Nat → Hash → Bool) : List Command → State → Option State
  | [], s => some s
  | c :: cs, s =>
    (s.processCommand (isOpen 0) c).bind (processCommandBunch (fun k => isOpen (k + 1)) cs)

def flush (s : State) (isOpen : Nat → Nat → Hash → Bool) : Option State :=
  processCommandBunch isOpen s.commandBuffer { s with commandBuffer := [] }

def enqueue (s : State) (c : Command) (isOpen : Nat → Nat → Hash → Bool) : Option State :=
  if s.commandBuffer.length + 1 = kCommandBufferSize then
    { s with commandBuffer := s.commandBuffer ++ [c] }.flush isOpen
  else some { s with commandBuffer := s.commandBuffer ++ [c] }

/-- `kReserve`; also the first part of `Pin` while the server thread does not run. -/
def reserve (s : State) (h : Hash) (size : Nat) : State × Bool :=
  if s.pinnedChunks.contains h then ({ s with held := h :: s.held }, true)
  else if s.cleanupThreshold < add64 s.pinned size then (s, false)
  else
    ({ s with
        pinnedChunks := s.pinnedChunks.put h size
        pinned := add64 s.pinned size
        held := h :: s.held }, true)

/-- Deletes the row of a pinned file that is gone from the cache directory. -/
def removeOrphan (s : State) (h : Hash) : State :=
  match s.cacheCatalog.find? h with
  | none => s
  | some e =>
    { s with cacheCatalog := s.cacheCatalog.erase h, gauge := sub64 s.gauge e.size }

/-- `kUnpin` up to the buffering. -/
def unpinChunk (s : State) (h : Hash) (fileExists : Bool) : State :=
  let s := { s with held := s.held.filter fun x => decide (x ≠ h) }
  match s.pinnedChunks.find? h with
  | none => s
  | some n =>
    let s := { s with pinned := sub64 s.pinned n, pinnedChunks := s.pinnedChunks.erase h }
    if fileExists then s else s.removeOrphan h

/-- `kRemove` after the flush. Its client unlinks the file afterwards. -/
def removeEntry (s : State) (h : Hash) : State :=
  let s := { s with held := s.held.filter fun x => decide (x ≠ h), trash := s.trash ++ [h] }
  match s.cacheCatalog.find? h with
  | none => s
  | some e =>
    let s := { s with cacheCatalog := s.cacheCatalog.erase h, gauge := sub64 s.gauge e.size }
    if e.flag = .unpinned then s
    else { s with pinnedChunks := s.pinnedChunks.erase h, pinned := sub64 s.pinned e.size }

/-- `Pin` while the server thread does not run. -/
def pinDirectly (s : State) (h : Hash) (size : Nat) (isOpen : Nat → Hash → Bool) : Option State :=
  let r := s.reserve h size
  if r.2 then r.1.insertEntry h size false .pinned isOpen else some r.1

def setLimit (s : State) (size : Nat) : State :=
  { s with limit := size, cleanupThreshold := size / 2 }

end State

/-! ## The system -/

/-- Commands as the server reads them, calls while it is not yet spawned, and the
unlinking of a file in the trash. `query` stands for the listings and the status. -/
inductive Event
  | insert (hash : Hash) (size : Nat)
  | insertVolatile (hash : Hash) (size : Nat)
  | touch (hash : Hash)
  | reserve (hash : Hash) (size : Nat)
  | pin (hash : Hash) (size : Nat) (isCatalog : Bool)
  | unpin (hash : Hash) (fileExists : Bool)
  | remove (hash : Hash)
  | cleanup (leaveSize : Nat)
  | setLimit (size : Nat)
  | setCleanupPolicy (unusedFirst : Bool)
  | query
  | pinDirectly (hash : Hash) (size : Nat)
  | cleanupDirectly (leaveSize : Nat)
  | spawn
  | unlink (hash : Hash)
deriving DecidableEq

/-- Whether the server, or the caller in its place, can take the event. -/
def State.Enabled (s : State) : Event → Prop
  | .pinDirectly .. | .cleanupDirectly _ | .spawn => s.spawned = false
  | .setLimit _ => True
  | .unlink h => h ∈ s.trash
  | _ => s.spawned = true

/-- An event with the open files that its clean-ups are told. -/
structure Label where
  event : Event
  isOpen : Nat → Nat → Hash → Bool := fun _ _ _ => false

def State.exec (s : State) (l : Label) : Option State :=
  match l.event with
  | .insert h size => s.enqueue (.insert h size) l.isOpen
  | .insertVolatile h size => s.enqueue (.insertVolatile h size) l.isOpen
  | .touch h => s.enqueue (.touch h) l.isOpen
  | .reserve h size => some (s.reserve h (getSize size)).1
  | .pin h size isCatalog =>
    s.enqueue (if isCatalog then .pin h size else .pinRegular h size) l.isOpen
  | .unpin h fileExists => (s.unpinChunk h fileExists).enqueue (.unpin h) l.isOpen
  | .remove h => (s.flush l.isOpen).map fun s => s.removeEntry h
  | .cleanup leaveSize =>
    (s.flush l.isOpen).map fun s' =>
      (s'.doCleanup (getSize leaveSize) (l.isOpen s.commandBuffer.length)).1
  | .setLimit size => some (s.setLimit (if s.spawned then getSize size else size))
  | .setCleanupPolicy unusedFirst => some { s with cleanupUnusedFirst := unusedFirst }
  | .query => s.flush l.isOpen
  | .pinDirectly h size => s.pinDirectly h size (l.isOpen 0)
  | .cleanupDirectly leaveSize => some (s.doCleanup leaveSize (l.isOpen 0)).1
  | .spawn => some { s with spawned := true }
  | .unlink h => some { s with trash := s.trash.erase h }

/-- `InitDatabase`: all rows are unpinned, the gauge is the sum of their sizes and
the next sequence number is above all others. -/
structure Initial (s : State) : Prop where
  counters : s.gauge = s.cacheCatalog.sum fun _ e => e.size
  total : (s.cacheCatalog.sum fun _ e => e.size) < 2 ^ 64
  unpinned : ∀ {h e}, s.cacheCatalog.find? h = some e → e.flag = .unpinned
  fresh : ∀ {h e}, s.cacheCatalog.find? h = some e → (ofLex e.acseq).2 < s.seq
  distinct : ∀ {h h' e e'}, s.cacheCatalog.find? h = some e → s.cacheCatalog.find? h' = some e' →
    e.acseq = e'.acseq → h = h'
  idle : s.pinned = 0 ∧ s.pinnedChunks = Table.empty ∧ s.commandBuffer = [] ∧ s.trash = [] ∧
    s.held = [] ∧ s.spawned = false

def system (init : State → Prop) : System State Label where
  init := init
  step s l s' := s.Enabled l.event ∧ s.exec l = some s'

end Cvmfs.Quota
