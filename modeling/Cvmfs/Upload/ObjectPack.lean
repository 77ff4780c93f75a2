import Mathlib.Data.Finset.Basic
import Mathlib.Data.Finset.Lattice.Lemmas
import Cvmfs.Receiver.ObjectPack

/-! # Buckets and object packs

The sending side of object packs. Buckets are memory that a caller fills through a
handle; they live on a heap that maps handles to buckets. A pack owns the open
buckets that were requested from it and the buckets that were committed to it.
Sizes are sizes of memory, so their sums do not wrap around. -/

namespace Cvmfs.Upload

open Finset
open Crypto (Any Bytes)
open Receiver (kMaxObjects)

inductive BucketContentType where
  | empty
  | named
  | cas
  deriving DecidableEq

structure Bucket where
  content : Bytes := []
  capacity : Nat := 128
  id : Option Any := none
  suffix : UInt8 := 0
  contentType : BucketContentType := .empty
  name : String := ""
  deriving DecidableEq

namespace Bucket

def size (b : Bucket) : Nat := b.content.length

/-- The capacity is doubled until it is sufficient. -/
def grow : (fuel : Nat) → (need capacity : Nat) → Nat
  | 0, _, capacity => capacity
  | fuel + 1, need, capacity =>
    if capacity < need then grow fuel need (capacity * 2) else capacity

def add (b : Bucket) (buf : Bytes) : Bucket :=
  if buf = [] then b
  else { b with
    content := b.content ++ buf
    capacity := grow (b.size + buf.length) (b.size + buf.length) b.capacity }

/-- What `ObjectPack::CommitBucket` writes into a bucket before it looks for space. -/
def label (type : BucketContentType) (id : Any) (suffix : UInt8) (name : String) (b : Bucket) :
    Bucket :=
  { b with
    id := some id
    suffix := suffix
    contentType := type
    name := if type = .named then name else b.name }

/-- A bucket that holds what has been added to it. -/
structure Fits (b : Bucket) : Prop where
  holds : b.size ≤ b.capacity
  positive : 0 < b.capacity

theorem need_le_grow {fuel need capacity} (hpos : 0 < capacity) (h : need ≤ fuel + capacity) :
    need ≤ grow fuel need capacity := by
  induction fuel generalizing capacity with
  | zero => simpa [grow] using h
  | succ fuel ih =>
    rw [grow]
    split
    · exact ih (Nat.mul_pos hpos (by decide)) (by omega)
    next hlt => exact Nat.le_of_not_lt hlt

theorem grow_pos {fuel need capacity} (h : 0 < capacity) : 0 < grow fuel need capacity := by
  induction fuel generalizing capacity with
  | zero => exact h
  | succ fuel ih =>
    rw [grow]
    split
    · exact ih (Nat.mul_pos h (by decide))
    · exact h

theorem fits_new : Fits {} := ⟨Nat.zero_le _, by decide⟩

theorem Fits.add {b : Bucket} (h : b.Fits) (buf : Bytes) : (b.add buf).Fits := by
  unfold Bucket.add
  split
  · exact h
  · refine ⟨?_, grow_pos h.positive⟩
    rw [size, List.length_append]
    exact need_le_grow h.positive (Nat.le_add_right _ _)

theorem Fits.label {b : Bucket} (h : b.Fits) (type : BucketContentType) (id : Any)
    (suffix : UInt8) (name : String) : (b.label type id suffix name).Fits := ⟨h.holds, h.positive⟩

end Bucket

structure ObjectPack where
  limit : Nat
  size : Nat := 0
  openBuckets : Finset Nat := ∅
  buckets : List Nat := []
  deriving DecidableEq

namespace ObjectPack

def newBucket (p : ObjectPack) (handle : Nat) : ObjectPack :=
  { p with openBuckets := insert handle p.openBuckets }

def full (p : ObjectPack) (size : Nat) : Prop :=
  kMaxObjects ≤ p.buckets.length ∨ p.limit < p.size + size

instance (p : ObjectPack) (size : Nat) : Decidable (p.full size) := inferInstanceAs (Decidable (_ ∨ _))

/-- `CommitBucket` where the pack is not full. -/
def commitBucket (p : ObjectPack) (handle size : Nat) : ObjectPack :=
  { p with
    openBuckets := p.openBuckets.erase handle
    buckets := p.buckets ++ [handle]
    size := p.size + size }

def transferBucket (p other : ObjectPack) (handle : Nat) : ObjectPack × ObjectPack :=
  ({ p with openBuckets := p.openBuckets.erase handle },
    { other with openBuckets := insert handle other.openBuckets })

def transferAll (p other : ObjectPack) (handles : List Nat) : ObjectPack × ObjectPack :=
  handles.foldl (fun packs handle => packs.1.transferBucket packs.2 handle) (p, other)

theorem transferAll_eq (p other : ObjectPack) (handles : List Nat) :
    p.transferAll other handles = ({ p with openBuckets := p.openBuckets \ handles.toFinset },
        { other with openBuckets := other.openBuckets ∪ handles.toFinset }) := by
  induction handles generalizing p other with
  | nil => simp [transferAll]
  | cons handle handles ih =>
    rw [transferAll, List.foldl_cons]
    refine (ih _ _).trans ?_
    simp only [List.toFinset_cons, Prod.mk.injEq, mk.injEq, true_and, and_true]
    constructor
    · ext h
      simp only [mem_sdiff, mem_erase, mem_insert]
      tauto
    · ext h
      simp only [mem_union, mem_insert]
      tauto

end ObjectPack

/-! ## The producer -/

/-- An entry of the header. Every object is announced as content-addressed, without its name. -/
structure Item where
  id : Option Any
  suffix : UInt8
  size : Nat
  deriving DecidableEq

def Bucket.item (b : Bucket) : Item := ⟨b.id, b.suffix, b.size⟩

/-- `ProduceNext` behind the header: the bytes that are copied from the objects, given the position
in the first one and the room in the buffer, with the objects and the position that are left. What
remains of an object is counted in 32 bits. -/
def produceNext : List Bytes → (posInBucket room : Nat) → Bytes × List Bytes × Nat
  | [], pos, _ => ([], [], pos)
  | object :: objects, pos, room =>
    if room = 0 then ([], object :: objects, pos)
    else
      let remaining := (object.length - pos) % 2 ^ 32
      let nbytes := min room remaining
      let copied := (object.drop pos).take nbytes
      if nbytes = remaining then
        let (more, rest) := produceNext objects 0 (room - nbytes)
        (copied ++ more, rest)
      else (copied, object :: objects, pos + nbytes)

/-- What buffers of these sizes take, and the objects that are left. -/
def produce : (rooms : List Nat) → List Bytes → (posInBucket : Nat) → Bytes × List Bytes
  | [], objects, _ => ([], objects)
  | room :: rooms, objects, pos =>
    let (copied, objects, pos) := produceNext objects pos room
    let (more, rest) := produce rooms objects pos
    (copied ++ more, rest)

/-- As much of an object as the producer sends. -/
def sentPart (object : Bytes) : Bytes := object.take (object.length % 2 ^ 32)

theorem sentPart_of_short {object : Bytes} (h : object.length < 2 ^ 32) :
    sentPart object = object := by
  rw [sentPart, Nat.mod_eq_of_lt h, List.take_length]

def unsent : List Bytes → Nat → Bytes
  | [], _ => []
  | object :: objects, pos => (sentPart object).drop pos ++ objects.flatMap sentPart

/-- The position is inside of what is sent of the first object. -/
def PosInside (objects : List Bytes) (pos : Nat) : Prop :=
  ∀ object ∈ objects.head?, pos ≤ object.length % 2 ^ 32

theorem unsent_zero (objects : List Bytes) : unsent objects 0 = objects.flatMap sentPart := by
  cases objects <;> rfl

theorem produceNext_unsent {objects : List Bytes} {pos} (hpos : PosInside objects pos) (room : Nat) :
    (produceNext objects pos room).1 ++
        unsent (produceNext objects pos room).2.1 (produceNext objects pos room).2.2 =
      unsent objects pos ∧
    PosInside (produceNext objects pos room).2.1 (produceNext objects pos room).2.2 := by
  induction objects generalizing pos room with
  | nil => exact ⟨rfl, hpos⟩
  | cons object objects ih =>
    have hle := hpos object rfl
    have hremaining : (object.length - pos) % 2 ^ 32 = object.length % 2 ^ 32 - pos := by omega
    have hrest : (sentPart object).drop pos = (object.drop pos).take (object.length % 2 ^ 32 - pos) :=
      List.drop_take
    rw [produceNext]
    split
    · exact ⟨rfl, hpos⟩
    simp only [hremaining]
    split
    next hall =>
      obtain ⟨h, hinside⟩ := ih (show PosInside objects 0 from fun _ _ => Nat.zero_le _)
        (room - min room (object.length % 2 ^ 32 - pos))
      refine ⟨?_, hinside⟩
      rw [List.append_assoc, h, unsent_zero, unsent, hrest, hall]
    next hmore =>
      refine ⟨?_, fun o ho => ?_⟩
      · rw [unsent, unsent, ← List.append_assoc, hrest, ← List.drop_drop,
          ← List.take_append_drop (min room (object.length % 2 ^ 32 - pos))
            ((object.drop pos).take (object.length % 2 ^ 32 - pos)), List.take_take,
          Nat.min_eq_left (Nat.min_le_right _ _), hrest]
      · cases ho
        change pos + min room (object.length % 2 ^ 32 - pos) ≤ _
        omega

theorem produce_unsent {rooms : List Nat} {objects : List Bytes} {pos} (hpos : PosInside objects pos)
    (hall : (produce rooms objects pos).2 = []) :
    (produce rooms objects pos).1 = unsent objects pos := by
  induction rooms generalizing objects pos with
  | nil =>
    obtain rfl : objects = [] := hall
    rfl
  | cons room rooms ih =>
    obtain ⟨h, hinside⟩ := produceNext_unsent hpos room
    rw [produce, ← h, ← ih hinside hall]

/-- However it is cut into buffers, of every object the remainder of its size modulo `2 ^ 32` is
sent. -/
theorem produce_complete {rooms : List Nat} {objects : List Bytes}
    (hall : (produce rooms objects 0).2 = []) :
    (produce rooms objects 0).1 = objects.flatMap sentPart := by
  rw [produce_unsent (fun _ _ => Nat.zero_le _) hall, unsent_zero]

theorem produceNext_all {objects : List Bytes} {room} (h : objects.flatten.length < room) :
    (produceNext objects 0 room).2.1 = [] := by
  induction objects generalizing room with
  | nil => rfl
  | cons object objects ih =>
    rw [List.flatten_cons, List.length_append] at h
    have hle : object.length % 2 ^ 32 ≤ object.length := Nat.mod_le _ _
    have hmin : min room (object.length % 2 ^ 32) = object.length % 2 ^ 32 :=
      Nat.min_eq_right (by omega)
    simp only [produceNext, Nat.sub_zero, hmin, if_neg (show room ≠ 0 by omega)]
    exact ih (by omega)

theorem exists_produce (objects : List Bytes) : ∃ rooms, (produce rooms objects 0).2 = [] :=
  ⟨[objects.flatten.length + 1], produceNext_all (Nat.lt_succ_self _)⟩

end Cvmfs.Upload
