import Cvmfs.Lib.Transition

/-!
# The in-memory key-value store

`MemoryKvStore` (kvstore.cc) with its LRU list and one of two allocators: libc's, or a
`MallocHeap`, where a freed block is only marked until `Compact` moves the others together and
reports every move. A block is known by the address of its tag and kept with the object it was
allocated for. The result `none` stands for a failed assertion or the free of a dead block.
-/

namespace Cvmfs.KvStore

open Lib

variable {Id : Type}

/-- Memory for the object `id`: on the heap the id is in the header of the block. -/
structure Block (Id : Type) where
  address : Nat
  size : Nat
  id : Id
  content : List UInt8
  free : Bool := false
  deriving DecidableEq

/-- The end of a block behind its tag. -/
def Block.stop (b : Block Id) : Nat := b.address + 8 + b.size

def Block.markFree (address : Nat) (b : Block Id) : Block Id :=
  if b.address = address then { b with free := true } else b

structure MemoryBuffer (Id : Type) where
  id : Id
  address : Option Nat
  size : Nat
  refcount : Nat
  objectFlags : Int
  deriving DecidableEq

inductive MemoryAllocator where
  | mallocLibc
  | mallocHeap (capacity : Nat)
  deriving DecidableEq

structure MemoryKvStore (Id : Type) where
  allocator : MemoryAllocator
  maxEntries : UInt32
  usedBytes : Nat := 0
  entryCount : Nat := 0
  /-- The least recently used one first. -/
  entries : List (MemoryBuffer Id) := []
  blocks : List (Block Id) := []
  gauge : Nat := 0

variable [DecidableEq Id]

/-- `OnBlockMove`, as one entry sees it. -/
def onBlockMove (b : Block Id) (m : MemoryBuffer Id) : MemoryBuffer Id :=
  if m.id = b.id then { m with address := some b.address } else m

/-- The loop of `Compact` with the current block and those behind it: the blocks that remain, the
new gauge and the entries after the callbacks. -/
def squeeze : Block Id → List (Block Id) → List (MemoryBuffer Id) →
    List (Block Id) × Nat × List (MemoryBuffer Id)
  | cur, [], entries =>
    if cur.free then ([], cur.address, entries) else ([cur], cur.stop, entries)
  | cur, next :: rest, entries =>
    if cur.free then
      if next.free then squeeze { cur with size := cur.size + 8 + next.size } rest entries
      else
        -- the free block is behind the moved one now
        let moved := { next with address := cur.address }
        let r := squeeze { cur with address := moved.stop } rest (entries.map (onBlockMove moved))
        (moved :: r.1, r.2)
    else
      let r := squeeze next rest entries
      (cur :: r.1, r.2)

namespace MemoryKvStore

/-! ## The LRU list -/

def find (s : MemoryKvStore Id) (id : Id) : Option (MemoryBuffer Id) :=
  s.entries.find? fun m => m.id = id

/-- The entry goes to the end of the list, in place of the one with its key. -/
def touch (s : MemoryKvStore Id) (m : MemoryBuffer Id) : MemoryKvStore Id :=
  { s with entries := s.entries.filter (fun n => n.id ≠ m.id) ++ [m] }

/-- `LruCache::Insert`: a new key displaces the oldest one if the cache is full. -/
def lruInsert (s : MemoryKvStore Id) (m : MemoryBuffer Id) : MemoryKvStore Id :=
  if s.find m.id = none ∧ s.maxEntries.toNat ≤ s.entries.length then
    { s with entries := s.entries.tail ++ [m] }
  else s.touch m

/-! ## Memory -/

def compact (s : MemoryKvStore Id) : MemoryKvStore Id :=
  match s.blocks with
  | [] => s
  | b :: bs =>
    let r := squeeze b bs s.entries
    { s with blocks := r.1, gauge := r.2.1, entries := r.2.2 }

/-- Compacts the heap if less than 0.8 of it is used. -/
def compactMemory (s : MemoryKvStore Id) : MemoryKvStore Id :=
  match s.allocator with
  | .mallocLibc => s
  | .mallocHeap _ =>
    if ((s.blocks.filter (!·.free)).map Block.size).sum * 5 < s.gauge * 4 then s.compact else s

/-- The live block at an address. -/
def block? (s : MemoryKvStore Id) (address : Nat) : Option (Block Id) :=
  s.blocks.find? fun b => !b.free && decide (b.address = address)

/-- `DoMalloc` and the copy of the object. `malloc` is the answer of libc: it fails or gives an
address that is not in use. The header of a heap block has 32 bytes. -/
def doMalloc (s : MemoryKvStore Id) (id : Id) (content : List UInt8) (malloc : Option Nat) :
    Option (Option Nat × MemoryKvStore Id) :=
  if content = [] then some (none, s)
  else
    match s.allocator with
    | .mallocLibc =>
      match malloc with
      | none => none
      | some a =>
        if s.block? a = none then
          some (some a, { s with blocks := s.blocks ++ [⟨a, content.length, id, content, false⟩] })
        else none
    | .mallocHeap capacity =>
      let size := (content.length + 32 + 7) / 8 * 8
      if capacity < s.gauge + (size + 8) then none
      else
        some (some s.gauge, { s with
          blocks := s.blocks ++ [⟨s.gauge, size, id, content, false⟩]
          gauge := s.gauge + (size + 8) })

def doFree (s : MemoryKvStore Id) (m : MemoryBuffer Id) : Option (MemoryKvStore Id) :=
  match m.address with
  | none => some s
  | some a =>
    if s.block? a = none then none else some { s with blocks := s.blocks.map (Block.markFree a) }

/-- Frees the memory of an entry and takes it off the counters, which are 64 and 32 bits wide. -/
def release (s : MemoryKvStore Id) (m : MemoryBuffer Id) : Option (MemoryKvStore Id) :=
  (s.doFree m).map fun s => { s with
    usedBytes := (s.usedBytes + 2 ^ 64 - m.size) % 2 ^ 64
    entryCount := (s.entryCount + 2 ^ 32 - 1) % 2 ^ 32 }

/-! ## The operations -/

inductive Status where
  | ok
  | enfile
  | eio
  deriving DecidableEq

structure Object (Id : Type) where
  id : Id
  content : List UInt8
  refcount : Nat
  objectFlags : Int

/-- The second half of `DoCommit`. -/
def place (s : MemoryKvStore Id) (o : Object Id) (refcount : Nat) (malloc : Option Nat) :
    Option (Status × MemoryKvStore Id) :=
  if s.entryCount = s.maxEntries.toNat then some (.enfile, s)
  else
    match s.doMalloc o.id o.content malloc with
    | none => some (.eio, s)
    | some (address, s) =>
      -- assert(SSIZE_MAX - mem.size > used_bytes_)
      if s.usedBytes + o.content.length < 2 ^ 63 - 1 then
        some (.ok, { s.lruInsert ⟨o.id, address, o.content.length, refcount, o.objectFlags⟩ with
          entryCount := s.entryCount + 1
          usedBytes := s.usedBytes + o.content.length })
      else none

/-- `DoCommit`. The reference count of an entry that is overwritten is kept. -/
def commit (s : MemoryKvStore Id) (o : Object Id) (malloc : Option Nat) :
    Option (Status × MemoryKvStore Id) :=
  match s.compactMemory.find o.id with
  | none => s.compactMemory.place o o.refcount malloc
  | some m =>
    match (s.compactMemory.touch m).release m with
    | none => none
    | some s => s.place o m.refcount malloc

def remove (s : MemoryKvStore Id) (m : MemoryBuffer Id) : Option (MemoryKvStore Id) :=
  if s.entryCount = 0 then none
  else (s.release m).map fun s => { s with entries := s.entries.filter fun n => n.id ≠ m.id }

def delete (s : MemoryKvStore Id) (id : Id) : Option (MemoryKvStore Id) :=
  match s.find id with
  | none => some s
  | some m => if 0 < m.refcount then some (s.touch m) else (s.touch m).remove m

def incRef (s : MemoryKvStore Id) (id : Id) : Option (MemoryKvStore Id) :=
  match s.find id with
  | none => some s
  | some m =>
    if m.refcount < 2 ^ 32 - 1 then some (s.touch { m with refcount := m.refcount + 1 }) else none

def unref (s : MemoryKvStore Id) (id : Id) : Option (MemoryKvStore Id) :=
  match s.find id with
  | none => some s
  | some m =>
    if 0 < m.refcount then some (s.touch { m with refcount := m.refcount - 1 }) else none

inductive ReadError where
  | noent
  /-- The memory of the entry is not its own any more. -/
  | freed
  deriving DecidableEq

def read (s : MemoryKvStore Id) (id : Id) (size offset : Nat) : Except ReadError (List UInt8) :=
  match s.find id with
  | none => .error .noent
  | some m =>
    if m.size < offset then .ok []
    else
      match m.address with
      | none => .ok []
      | some a =>
        match s.block? a with
        | none => .error .freed
        | some b => .ok ((b.content.drop offset).take (min (m.size - offset) size))

def shrinkLoop (size : Nat) : List (MemoryBuffer Id) → MemoryKvStore Id → Option (MemoryKvStore Id)
  | [], s => some s
  | m :: rest, s =>
    if s.usedBytes ≤ size then some s
    else if 0 < m.refcount then shrinkLoop size rest s
    else
      match s.remove m with
      | none => none
      | some s => shrinkLoop size rest s

def shrinkTo (s : MemoryKvStore Id) (size : Nat) : Option (MemoryKvStore Id) :=
  shrinkLoop size s.entries s

end MemoryKvStore

/-! ## Runs -/

inductive Event (Id : Type) where
  | commit (o : MemoryKvStore.Object Id) (malloc : Option Nat)
  | delete (id : Id)
  | incRef (id : Id)
  | unref (id : Id)
  | read (id : Id)
  | shrinkTo (size : Nat)

/-- A store with the bytes of the last successful commit of every id. -/
structure Run (Id : Type) where
  store : MemoryKvStore Id
  last : Id → List UInt8

def Run.step (r : Run Id) : Event Id → Option (Run Id)
  | .commit o malloc => (r.store.commit o malloc).map fun
    | (.ok, s) => ⟨s, Function.update r.last o.id o.content⟩
    | (_, s) => ⟨s, r.last⟩
  | .delete id => (r.store.delete id).map ({ r with store := · })
  | .incRef id => (r.store.incRef id).map ({ r with store := · })
  | .unref id => (r.store.unref id).map ({ r with store := · })
  | .read id => some { r with store := ((r.store.find id).map r.store.touch).getD r.store }
  | .shrinkTo size => (r.store.shrinkTo size).map ({ r with store := · })

def system (allocator : MemoryAllocator) (maxEntries : UInt32) : System (Run Id) (Event Id) where
  init r := r.store = { allocator, maxEntries }
  step r e r' := r.step e = some r'

/-- An object that overwrites another one gets its memory. -/
def Careful (r : Run Id) : Event Id → Prop
  | .commit o malloc => ∀ m s, r.store.compactMemory.find o.id = some m →
    (r.store.compactMemory.touch m).release m = some s →
    (s.doMalloc o.id o.content malloc).isSome = true
  | _ => True

end Cvmfs.KvStore
