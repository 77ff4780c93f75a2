import Cvmfs.Glue.PathStore
import Cvmfs.Glue.PageCacheTracker

/-! # The inode tracker

Three hash tables: paths to inodes, inodes to paths, and the number of references that the
kernel holds on each inode. -/

namespace Cvmfs.Glue

open Lib (Table)

/-! ## Paths to inodes -/

structure PathMap where
  map : Table Path Inode := .empty
  pathStore : Table Path PathInfo := .empty

namespace PathMap

variable (m : PathMap)

def lookupPath (path : Path) : Except TrackerFault (Option Path) := PathStore.lookup m.pathStore path

def lookupInodeByPath (path : Path) : Option Inode := m.map.find? path

/-- A path that is in the map keeps its inode. -/
def insert (path : Path) (inode : Inode) : PathMap :=
  if m.map.contains path then m
  else { map := m.map.put path inode, pathStore := PathStore.insert path m.pathStore }

def erase (path : Path) : PathMap :=
  if m.map.contains path then
    { map := m.map.erase path, pathStore := PathStore.erase path m.pathStore }
  else m

def replace (path : Path) (newInode : Inode) : PathMap := { m with map := m.map.put path newInode }

end PathMap

/-! ## References -/

namespace InodeReferences

/-- The counter is a `uint32_t`. -/
def get (references : Table Inode Nat) (inode : Inode) (amount : Nat) : Table Inode Nat :=
  references.put inode (((references.find? inode).getD 0 + amount) % 2 ^ 32)

def put (references : Table Inode Nat) (inode : Inode) (amount : Nat) :
    Except TrackerFault (Bool × Table Inode Nat) :=
  match references.find? inode with
  | none => .ok (false, references)
  | some refcounter =>
    if refcounter < amount then .error .refcountMismatch
    else if refcounter = amount then .ok (true, references.erase inode)
    else .ok (false, references.put inode (refcounter - amount))

def replace (references : Table Inode Nat) (oldInode newInode : Inode) : Table Inode Nat :=
  (references.erase oldInode).put newInode 0

end InodeReferences

/-! ## The tracker -/

structure InodeTracker where
  pathMap : PathMap := {}
  inodeExMap : Table Inode Path := .empty
  references : Table Inode Nat := .empty

namespace InodeTracker

variable (t : InodeTracker)

def vfsGetBy (inode : Inode) (amount : Nat) (path : Path) : InodeTracker where
  references := InodeReferences.get t.references inode amount
  pathMap := t.pathMap.insert path inode
  inodeExMap := t.inodeExMap.put inode path

def vfsGet (inode : Inode) (path : Path) : InodeTracker := t.vfsGetBy inode 1 path

def vfsPut (inode : Inode) (amount : Nat) : Except TrackerFault (Bool × InodeTracker) :=
  match InodeReferences.put t.references inode amount with
  | .error fault => .error fault
  | .ok (false, references) => .ok (false, { t with references })
  | .ok (true, references) =>
    match t.inodeExMap.find? inode with
    | none => .error .outOfSync
    | some path =>
      .ok (true,
        { references
          inodeExMap := t.inodeExMap.erase inode
          pathMap := t.pathMap.erase path })

def findPath (inode : Inode) : Except TrackerFault (Option Path) :=
  match t.inodeExMap.find? inode with
  | none => .ok none
  | some md5path =>
    match t.pathMap.lookupPath md5path with
    | .ok (some path) => .ok (some path)
    | .ok none => .error .missingPath
    | .error fault => .error fault

def findInode (path : Path) : Option Inode := t.pathMap.lookupInodeByPath path

/-- `FindDentry`: the inode of the parent, if it is known, and the name. -/
def findDentry (inode : Inode) : Except TrackerFault (Option (Option Inode × String)) :=
  match t.findPath inode with
  | .error fault => .error fault
  | .ok none => .ok none
  | .ok (some path) => .ok (some (t.findInode path.tail, path.headD ""))

/-- The new inode has no references. -/
def replaceInode (oldInode newInode : Inode) : Bool × InodeTracker :=
  match t.inodeExMap.find? oldInode with
  | none => (false, t)
  | some path =>
    (true,
      { references := InodeReferences.replace t.references oldInode newInode
        pathMap := t.pathMap.replace path newInode
        inodeExMap := (t.inodeExMap.erase oldInode).put newInode path })

end InodeTracker

end Cvmfs.Glue
