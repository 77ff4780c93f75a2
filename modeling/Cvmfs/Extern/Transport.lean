import Cvmfs.Lib.Span

/-! # Frames of the cache transport

A frame has a header with a flag and the size of the rest, the serialized message and the
attachment, if there is one. The message then stands behind its own size. -/

namespace Cvmfs.Extern

open List

abbrev Bytes := List UInt8

/-- The encoding of `MsgRpc`: a message is not what remains when bytes of it are cut off. -/
structure Codec (Msg : Type) where
  serialize : Msg → Bytes
  parse : Bytes → Option Msg
  parse_take m n : parse ((serialize m).take n) = some m ↔ (serialize m).length ≤ n

/-- `(2 << 24) - 1` -/
def kMaxMsgSize : Nat := 2 * 2 ^ 24 - 1

def lowBytes : Nat → Nat → Bytes
  | 0, _ => []
  | k + 1, n => UInt8.ofNat n :: lowBytes k (n / 256)

def value : Bytes → Nat
  | [] => 0
  | b :: bs => b.toNat + 256 * value bs

/-! ## Sending -/

/-- The size of the message in front of it, if there is an attachment. -/
def innerHeader (msg att : Bytes) : Bytes := if att = [] then [] else lowBytes 2 msg.length

/-- `none` when an assertion fails. The size is a `uint32_t`. -/
def sendData (msg att : Bytes) : Option Bytes :=
  let totalSize := (msg.length + att.length + (innerHeader msg att).length) % 2 ^ 32
  if 0 < totalSize ∧ totalSize ≤ kMaxMsgSize then
    some ((if att = [] then 0x01 else 0x81) ::
      (lowBytes 3 totalSize ++ (innerHeader msg att ++ (msg ++ att))))
  else none

variable {Msg : Type} (c : Codec Msg)

def sendFrame (m : Msg) (att : Bytes) : Option Bytes :=
  let msg := c.serialize m
  if 0 < msg.length ∧ msg.length ≤ kMaxMsgSize then sendData msg att else none

/-! ## Receiving -/

def recvHeader : Bytes → Option (Nat × Bool × Bytes)
  | h₀ :: h₁ :: h₂ :: h₃ :: rest =>
    let size := value [h₁, h₂, h₃]
    if h₀ &&& ~~~0x80 = 0x01 ∧ 0 < size ∧ size ≤ kMaxMsgSize then
      some (size, h₀ &&& 0x80 ≠ 0, rest)
    else none
  | _ => none

/-- Bytes of the buffer; `none` when they are not all in it. -/
def bytesAt (buffer : Bytes) (pos n : Nat) : Option Bytes :=
  if pos + n ≤ buffer.length then some (Lib.slice buffer pos n) else none

/-- The message and the attachment in a buffer or `none` for a failure, unless bytes outside of the
buffer are read. -/
def recvAttached (capacity : Nat) : Bytes → Option (Option (Msg × Bytes))
  | b₀ :: b₁ :: body =>
    let msgSize := value [b₀, b₁]
    if body.length < msgSize then some none
    else (bytesAt body 0 msgSize).bind fun msg =>
      match c.parse msg with
      | none => some none
      | some m =>
        if capacity < body.length - msgSize then some none
        else (bytesAt body msgSize (body.length - msgSize)).map fun att => some (m, att)
  | _ => some none

def recvFrame (capacity : Nat) (stream : Bytes) : Option (Option (Msg × Bytes)) :=
  match recvHeader stream with
  | none => some none
  | some (size, hasAttachment, rest) =>
    if rest.length < size then some none
    else if hasAttachment then recvAttached c capacity (rest.take size)
    else some ((c.parse (rest.take size)).map (·, []))

/-- The frame is smaller than 16 MiB and, with an attachment, the message smaller than 64 KiB. -/
def Fits (m : Msg) (att : Bytes) : Prop :=
  (c.serialize m).length + att.length + (innerHeader (c.serialize m) att).length < 2 ^ 24 ∧
    (att = [] ∨ (c.serialize m).length < 2 ^ 16)

instance (m : Msg) (att : Bytes) : Decidable (Fits c m att) := inferInstanceAs (Decidable (_ ∧ _))

/-! ## Round trip -/

variable {c} {m : Msg} {att rest bytes : Bytes} {capacity size : Nat}

theorem value_lowBytes (k n : Nat) : value (lowBytes k n) = n % 256 ^ k := by
  induction k generalizing n with
  | zero => simp [value, lowBytes, Nat.mod_one]
  | succ k ih => simp [value, lowBytes, ih, Nat.pow_succ', Nat.mod_mul]

theorem recvAttached_cons (b₀ b₁ : UInt8) (body : Bytes) {k} (hk : value [b₀, b₁] = k) :
    ∃ r, recvAttached c capacity (b₀ :: b₁ :: body) = some r ∧ ∀ m att, r = some (m, att) ↔
      k ≤ body.length ∧ c.parse (body.take k) = some m ∧ body.drop k = att ∧
        att.length ≤ capacity := by
  simp only [recvAttached, bytesAt, Lib.slice, hk]
  split
  · exact ⟨none, rfl, by grind⟩
  rw [if_pos (by omega), Option.bind_some, drop_zero]
  split
  · exact ⟨none, rfl, by simp_all⟩
  split
  · exact ⟨none, rfl, by grind⟩
  · rw [if_pos (by omega), ← length_drop, take_length]
    exact ⟨_, rfl, by grind⟩

theorem recvFrame_safe (stream : Bytes) : ∃ r, recvFrame c capacity stream = some r ∧
    ∀ m att, r = some (m, att) → att.length ≤ capacity := by
  rw [recvFrame]
  split
  · exact ⟨none, rfl, by simp⟩
  split
  · exact ⟨none, rfl, by simp⟩
  split
  case isTrue =>
    rcases take _ _ with _ | ⟨b₀, _ | ⟨b₁, body⟩⟩
    · exact ⟨none, rfl, by simp⟩
    · exact ⟨none, rfl, by simp⟩
    · obtain ⟨r, hr, hspec⟩ := recvAttached_cons b₀ b₁ body rfl
      exact ⟨r, hr, fun m att h => ((hspec m att).mp h).2.2.2⟩
  case isFalse => exact ⟨_, rfl, by simp⟩

theorem recvHeader_sent (h : size ≤ kMaxMsgSize) :
    recvHeader ((if att = [] then 0x01 else 0x81) :: (lowBytes 3 size ++ rest)) =
      if size % 2 ^ 24 = 0 then none else some (size % 2 ^ 24, decide (att ≠ []), rest) := by
  have hvalue := value_lowBytes 3 size
  have hle : size % 256 ^ 3 ≤ kMaxMsgSize := (Nat.mod_le _ _).trans h
  simp only [lowBytes] at hvalue
  simp only [recvHeader, lowBytes, cons_append, nil_append, hvalue, hle, and_true]
  have hold : (0x01 : UInt8) &&& ~~~0x80 = 0x01 ∧ (0x01 : UInt8) &&& 0x80 = 0 := by decide
  have hnew : (0x81 : UInt8) &&& ~~~0x80 = 0x01 ∧ (0x81 : UInt8) &&& 0x80 ≠ 0 := by decide
  by_cases hatt : att = [] <;> simp [hatt, hold, hnew, Nat.pos_iff_ne_zero]

theorem recvAttached_sent {n} (hn : n ≤ (c.serialize m).length + att.length)
    (hcap : att.length ≤ capacity) :
    recvAttached c capacity (lowBytes 2 (c.serialize m).length ++ (c.serialize m ++ att).take n) =
      some (some (m, att)) ↔
    n = (c.serialize m).length + att.length ∧ (c.serialize m).length < 2 ^ 16 := by
  obtain ⟨r, hr, hspec⟩ := recvAttached_cons (c := c) (UInt8.ofNat (c.serialize m).length)
    (UInt8.ofNat ((c.serialize m).length / 256)) ((c.serialize m ++ att).take n)
    (value_lowBytes 2 (c.serialize m).length)
  rw [lowBytes, lowBytes, lowBytes, cons_append, cons_append, nil_append, hr, Option.some_inj, hspec]
  have hle : (c.serialize m).length % 256 ^ 2 ≤ (c.serialize m).length := Nat.mod_le _ _
  constructor
  · rintro ⟨hlen, hp, hatt, -⟩
    rw [length_take] at hlen
    rw [take_take, Nat.min_eq_left (by omega), take_append_of_le_length hle, c.parse_take] at hp
    have hsize := congrArg length hatt
    simp only [length_drop, length_take, length_append] at hsize
    omega
  · rintro ⟨rfl, hlt⟩
    have hk : (c.serialize m).length % 256 ^ 2 = (c.serialize m).length := Nat.mod_eq_of_lt hlt
    rw [hk, take_of_length_le (by simp), take_append_of_le_length le_rfl, c.parse_take, drop_left]
    exact ⟨by simp, le_rfl, rfl, hcap⟩

theorem recvFrame_sendFrame (hsend : sendFrame c m att = some bytes)
    (hcap : att.length ≤ capacity) :
    recvFrame c capacity bytes = some (some (m, att)) ↔ Fits c m att := by
  simp only [sendFrame, sendData] at hsend
  split at hsend
  case isFalse => cases hsend
  split at hsend
  case isFalse => cases hsend
  rename_i hmsg hsize
  cases hsend
  rw [recvFrame, recvHeader_sent hsize.2, Fits]
  generalize hn : (c.serialize m).length + att.length + (innerHeader (c.serialize m) att).length = n
    at *
  rw [show n % 2 ^ 32 % 2 ^ 24 = n % 2 ^ 24 by omega]
  by_cases hzero : n % 2 ^ 24 = 0
  · rw [if_pos hzero]
    exact ⟨by simp, fun h => by omega⟩
  rw [if_neg hzero]
  dsimp only
  rw [if_neg (by simp; omega)]
  by_cases hatt : att = []
  · subst hatt
    simp only [innerHeader, if_pos, length_nil, add_zero] at hn
    simp [innerHeader, c.parse_take, hn]
    omega
  rw [innerHeader, if_neg hatt] at hn ⊢
  change _ + 2 = n at hn
  have hpos := length_pos_iff.mpr hatt
  rw [if_pos (by simpa)]
  rcases hk : n % 2 ^ 24 with _ | _ | k
  · exact absurd hk hzero
  · exact ⟨by simp [lowBytes, recvAttached], fun h => by omega⟩
  change recvAttached c capacity (lowBytes 2 _ ++ take k (c.serialize m ++ att)) = _ ↔ _
  rw [recvAttached_sent (by omega) hcap]
  simp only [hatt, false_or]
  omega

theorem frame_round_trip_iff (c : Codec Msg) :
    (∀ m att bytes capacity, sendFrame c m att = some bytes → att.length ≤ capacity →
      (recvFrame c capacity bytes = some (some (m, att)) ↔ Fits c m att)) ∧
    ∀ capacity stream, ∃ r, recvFrame c capacity stream = some r ∧
      ∀ m att, r = some (m, att) → att.length ≤ capacity :=
  ⟨fun _ _ _ _ => recvFrame_sendFrame, fun _ => recvFrame_safe⟩

def verbatim : Codec Bytes where
  serialize := id
  parse := some
  parse_take m n := by
    rw [Option.some_inj, id_eq]
    exact ⟨fun h => h ▸ length_take_le n m, take_of_length_le⟩

/-- A `MsgRpc` with an empty `MsgDetach`. -/
def detach : Bytes := [202, 1, 0]

theorem frame_round_trip_short : ∃ bytes, sendFrame verbatim detach [1, 2] = some bytes ∧
    recvFrame verbatim 2 bytes = some (some (detach, [1, 2])) :=
  ⟨_, rfl, ((frame_round_trip_iff verbatim).1 detach [1, 2] _ 2 rfl le_rfl).mpr (by decide)⟩

theorem long_message_lost : ∃ m bytes, sendFrame verbatim m [1] = some bytes ∧
    recvFrame verbatim 1 bytes ≠ some (some (m, [1])) := by
  obtain ⟨m, hm⟩ : ∃ m : Bytes, m.length = 2 ^ 16 := ⟨replicate (2 ^ 16) 0, length_replicate⟩
  obtain ⟨bytes, hsend⟩ : ∃ bytes, sendFrame verbatim m [1] = some bytes := by
    simp [sendFrame, sendData, verbatim, hm, innerHeader, lowBytes, kMaxMsgSize]
  refine ⟨m, bytes, hsend, fun h => ?_⟩
  have := ((recvFrame_sendFrame hsend le_rfl).mp h).2
  simp [verbatim, hm] at this

end Cvmfs.Extern
