import Cvmfs.Lib.Table
import Cvmfs.Lib.Transition
import Mathlib.Data.PNat.Basic

/-! # The page cache tracker

For each inode whose content may be in the kernel's page cache the tracker keeps the content
hash and the number of open files, and for open files the position of their `stat` in a vector
without gaps. A negative number of open files says that the page cache is in transition from
one content to another. Inode 0 does not exist: it marks free slots of the hash tables. -/

namespace Cvmfs.Glue

open Lib (Table)

abbrev Inode := ℕ+

/-- Value of a computation in `int32_t`. -/
def int32 (n : Int) : Int := n.bmod (2 ^ 32)

structure Stat where
  ino : Inode
  mtime : Int
  size : Nat
  deriving DecidableEq

structure Entry (Hash : Type) where
  nopen : Int := 0
  idxStat : Int := -1
  hash : Hash
  deriving DecidableEq

inductive Fault where
  /-- PANIC "invalid entry on open" -/
  | invalidEntry
  /-- assertion in `StatStore::Add` -/
  | tooManyFiles
  /-- assertion of the vector's index -/
  | outOfRange
  /-- assertion in `Close`: "Did not find inode" -/
  | notFound
  /-- assertion in `Close`: "Inode has no open entries" -/
  | notOpen
  /-- PANIC "page cache tracker: missing stat entry!" -/
  | missingStat
  /-- PANIC "invalid inode in page cache tracker" -/
  | invalidInode
  /-- assertion in `GetInfoIfOpen` -/
  | noIndex
  deriving DecidableEq

/-! ## The vector of stat structs -/

namespace StatStore

def add (store : List Stat) (info : Stat) : Except Fault (Int × List Stat) :=
  if store.length < 2 ^ 31 then .ok (store.length, store ++ [info]) else .error .tooManyFiles

/-- The last item moves to the gap; its inode is returned. -/
def erase (store : List Stat) (index : Int) : Except Fault (Inode × List Stat) :=
  match store.getLast? with
  | none => .error .outOfRange
  | some back =>
    if 0 ≤ index ∧ index < store.length then
      .ok (back.ino, (store.set index.toNat back).dropLast)
    else .error .outOfRange

def get (store : List Stat) (index : Int) : Except Fault Stat :=
  if 0 ≤ index then
    match store[index.toNat]? with
    | some info => .ok info
    | none => .error .outOfRange
  else .error .outOfRange

end StatStore

/-! ## The tracker -/

structure OpenDirectives where
  keepCache : Bool := false
  directIo : Bool := false
  deriving DecidableEq

/-- What `IsStale` reads of a directory entry. -/
structure Dirent (Hash : Type) where
  inode : Inode
  checksum : Hash
  isChunkedFile : Bool
  mtime : Int

structure PageCacheTracker (Hash : Type) where
  isActive : Bool := true
  map : Table Inode (Entry Hash) := .empty
  statStore : List Stat := []

namespace PageCacheTracker

variable {Hash : Type} [DecidableEq Hash] (t : PageCacheTracker Hash)

def put (inode : Inode) (entry : Entry Hash) : PageCacheTracker Hash :=
  { t with map := t.map.put inode entry }

def openFile (inode : Inode) (hash : Hash) (info : Stat) :
    Except Fault (OpenDirectives × PageCacheTracker Hash) :=
  if t.isActive = false then .ok ({}, t)
  else if inode ≠ info.ino then .error .invalidEntry
  else
    match t.map.find? inode with
    | none => do
      let (idxStat, statStore) ← StatStore.add t.statStore info
      .ok ({ keepCache := true },
        { t with statStore, map := t.map.put inode { nopen := 1, idxStat, hash } })
    | some entry =>
      if entry.hash = hash then
        if entry.nopen < 0 then
          -- still in transition
          .ok ({}, t.put inode { entry with nopen := int32 (entry.nopen - 1) })
        else if entry.nopen = 0 then do
          let (idxStat, statStore) ← StatStore.add t.statStore info
          .ok ({ keepCache := true },
            { t with statStore, map := t.map.put inode { entry with nopen := 1, idxStat } })
        else
          .ok ({ keepCache := true }, t.put inode { entry with nopen := int32 (entry.nopen + 1) })
      else if entry.nopen ≠ 0 then .ok ({ keepCache := true, directIo := true }, t)
      else do
        -- the transition begins
        let (idxStat, statStore) ← StatStore.add t.statStore info
        .ok ({}, { t with statStore, map := t.map.put inode { nopen := -1, idxStat, hash } })

/-- `Close`; with `suppressAsserts` a missing file is logged only. -/
def closeFile (suppressAsserts : Bool) (inode : Inode) : Except Fault (PageCacheTracker Hash) :=
  if t.isActive = false then .ok t
  else
    match t.map.find? inode with
    | none => if suppressAsserts then .ok t else .error .notFound
    | some entry =>
      if entry.nopen = 0 then if suppressAsserts then .ok t else .error .notOpen
      else
        let nopen := int32 ((if entry.nopen < 0 then int32 (-entry.nopen) else entry.nopen) - 1)
        if nopen = 0 then
          if entry.idxStat < 0 then .error .missingStat
          else do
            let (inodeUpdate, statStore) ← StatStore.erase t.statStore entry.idxStat
            match t.map.find? inodeUpdate with
            | none => .error .invalidInode
            | some entryUpdate =>
              .ok { t with
                statStore
                map := (t.map.put inodeUpdate { entryUpdate with idxStat := entry.idxStat }).put
                  inode { entry with nopen, idxStat := -1 } }
        else .ok (t.put inode { entry with nopen })

/-- `GetInfoIfOpen`; the hash and the `stat` of an open file. -/
def getInfoIfOpen (inode : Inode) : Except Fault (Option (Hash × Stat)) :=
  match t.map.find? inode with
  | none => .ok none
  | some entry =>
    if entry.nopen = 0 then .ok none
    else if entry.idxStat < 0 then .error .noIndex
    else do
      let info ← StatStore.get t.statStore entry.idxStat
      .ok (some (entry.hash, info))

/-- The hash is another one; for chunked files the modification time decides. -/
def changed (entry : Entry Hash) (dirent : Dirent Hash) : Except Fault Bool :=
  if dirent.isChunkedFile then
    (StatStore.get t.statStore entry.idxStat).map fun info => decide (info.mtime ≠ dirent.mtime)
  else .ok true

/-- `IsStale`; the null hash marks an inode that was found stale. -/
def isStale (null : Hash) (dirent : Dirent Hash) : Except Fault (Bool × PageCacheTracker Hash) :=
  match t.map.find? dirent.inode with
  | none => .ok (false, t)
  | some entry =>
    if entry.hash = null then .ok (true, t)
    else if entry.nopen = 0 then .ok (false, t)
    else if entry.hash = dirent.checksum then .ok (false, t)
    else do
      let stale ← t.changed entry dirent
      .ok (stale, if stale then t.put dirent.inode { entry with hash := null } else t)

def evict (inode : Inode) : PageCacheTracker Hash :=
  if t.isActive = false then t else { t with map := t.map.erase inode }

end PageCacheTracker

end Cvmfs.Glue
