import Cvmfs.Client.Breadcrumb
import Cvmfs.Crypto.HexPtr
import Cvmfs.Crypto.Letter

/-! # The header of an object pack

An object pack starts with a text header: lines of a key character and a value,
a `--` line, then one line per object with its type, its hash and its size. The
functions here follow the consumer's parser on the raw bytes.
-/

namespace Cvmfs.Receiver

open Crypto (Bytes Any Algorithms mkFromSuffixedHexPtr parseKeyvalMem)
open Client (string2Uint64)
open Lib.Decimal (ascii)

/-! ## Base64 -/

/-- The decoding table: base64 and base64url, with `=` as zero. -/
def debase64Char (c : UInt8) : Option Nat :=
  if 65 ≤ c ∧ c ≤ 90 then some (c.toNat - 65)
  else if 97 ≤ c ∧ c ≤ 122 then some (c.toNat - 71)
  else if 48 ≤ c ∧ c ≤ 57 then some (c.toNat + 4)
  else if c = 43 ∨ c = 45 then some 62
  else if c = 47 ∨ c = 95 then some 63
  else if c = 61 then some 0
  else none

def debase64Blocks : Bytes → Option Bytes
  | [] => some []
  | a :: b :: c :: d :: rest => do
    let a ← debase64Char a
    let b ← debase64Char b
    let c ← debase64Char c
    let d ← debase64Char d
    let tail ← debase64Blocks rest
    return UInt8.ofNat (a * 4 + b / 16) :: UInt8.ofNat (b % 16 * 16 + c / 4) ::
      UInt8.ofNat (c % 4 * 64 + d) :: tail
  | _ => none

/-- `Debase64`: each of the last two characters that is `=` takes one byte off
the end. -/
def debase64 (data : Bytes) : Option Bytes :=
  match debase64Blocks data with
  | none => none
  | some decoded =>
    let padding := ((data.reverse.take 2).filter (· == 61)).length
    some (decoded.take (decoded.length - padding))

/-! ## The header -/

inductive EntryType where
  | cas
  | named
  deriving DecidableEq

/-- An object of the index. The suffix of its hash takes no part in comparisons. -/
structure IndexEntry where
  id : Any
  suffix : UInt8
  size : Nat
  entryType : EntryType
  entryName : Bytes
  deriving DecidableEq

/-- The position of the first blank from `start` on. -/
def findBlank (line : Bytes) (start : Nat) : Option Nat :=
  (List.range line.length).find? fun i => start ≤ i && line.getD i 0 == 32

/-- `ObjectPackConsumer::ParseItem`. In a named entry without a second blank the
name is decoded from the whole line, as `substr` of a wrapped position gives. -/
def parseItem (line : Bytes) : Option IndexEntry :=
  match line.head? with
  | some 67 =>
    match findBlank line 2 with
    | none => none
    | some sep =>
      if sep = line.length - 1 then none
      else
        let (id, suffix) := mkFromSuffixedHexPtr ((line.drop 2).take (sep - 2))
        some {
        id, suffix
        size := string2Uint64 (line.drop (sep + 1))
        entryType := .cas
        entryName := [] }
  | some 78 =>
    match findBlank line 2 with
    | none => none
    | some sep1 =>
      if sep1 = line.length - 1 then none
      else
        let (sizeText, nameText) := match findBlank line (sep1 + 1) with
          | some sep2 => ((line.drop (sep1 + 1)).take (sep2 - sep1 - 1), line.drop (sep2 + 1))
          | none => (line.drop (sep1 + 1), line)
        let (id, suffix) := mkFromSuffixedHexPtr ((line.drop 2).take (sep1 - 2))
        match debase64 nameText with
        | none => none
        | some name => some {
            id, suffix
            size := string2Uint64 sizeText
            entryType := .named
            entryName := name }
  | _ => none

/-- What follows the first `--` and newline of the raw header. -/
def afterSeparator : Bytes → Option Bytes
  | 45 :: 45 :: 10 :: rest => some rest
  | _ :: rest => afterSeparator rest
  | [] => none

/-- The loop over the index lines; it ends at the first line that is empty or
does not parse. -/
def parseItems : List Bytes → List IndexEntry
  | [] => []
  | line :: lines =>
    match parseItem line with
    | none => []
    | some entry => entry :: parseItems lines

/-- `ObjectPackConsumer::ParseHeader`: the index, if the header is accepted. -/
def parseHeader (raw : Bytes) : Option (List IndexEntry) :=
  let header := parseKeyvalMem raw fun _ => none
  if header 86 ≠ some (ascii "2") then none
  else
    let size := string2Uint64 ((header 83).getD [])
    let nobjects := string2Uint64 ((header 78).getD []) % 2 ^ 32
    if nobjects = 0 then some []
    else
      match afterSeparator raw with
      | none | some [] => none
      | some text =>
        let index := parseItems (text.splitOn 10)
        if nobjects = index.length ∧ size = (index.map IndexEntry.size).sum % 2 ^ 64 then some index
        else none

end Cvmfs.Receiver
