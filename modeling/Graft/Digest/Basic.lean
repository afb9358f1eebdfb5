import Graft.Digest.Blake3
import Graft.Value.Basic

/-!
# Fingerprints

A fingerprint is the hash of a record. A record is a text of bytes that starts with a version and
the kind of the record; every field whose length may differ carries its length in front, so that
neighbouring fields cannot run into each other.
-/

namespace Graft

/-- A hash of 32 bytes. -/
structure Digest where
  bytes : List UInt8
  deriving DecidableEq, Repr, Inhabited

namespace Digest

/-- The digest that stands for none. -/
def zero : Digest := ⟨List.replicate 32 0⟩

def hexDigit (n : Nat) : Char := Nat.digitChar n

/-- Two lower-case hexadecimal digits a byte. -/
def hex (d : Digest) : String :=
  String.ofList (d.bytes.flatMap fun b => [hexDigit (b.toNat / 16), hexDigit (b.toNat % 16)])

def alphabet : List Char := "0123456789abcdefghjkmnpqrstuvwxyz".toList

/-- The first forty bits in eight letters of five bits each. -/
def short (d : Digest) : String :=
  let bits := (d.bytes.take 5).foldl (fun n b => 256 * n + b.toNat) 0
  String.ofList ([7, 6, 5, 4, 3, 2, 1, 0].map fun i => alphabet.getD ((bits >>> (5 * i)) % 32) '0')

/-- The short form with its mark. -/
def display (d : Digest) : String := "#" ++ d.short

end Digest

/-- The bytes of a record. -/
abbrev Record := List UInt8

namespace Record

/-- The kinds of records. -/
inductive Tag where
  | definition
  | artifact
  | primitive
  | key
  deriving DecidableEq, Repr

def Tag.byte : Tag → UInt8
  | .definition => 1
  | .artifact => 2
  | .primitive => 3
  | .key => 4

/-- A record without fields: the version and the kind. -/
def start (tag : Tag) : Record := [1, tag.byte]

/-- A number below `2 ^ 64` in eight bytes, the lowest first. -/
def word (n : Nat) : Record :=
  (List.range 8).map fun i => (n >>> (8 * i)).toUInt8

/-- A float by its bits. All undefined numbers are one, and so are the zeros. -/
def number (x : Float) : Record :=
  word (if x.isNaN then 0x7FF8000000000000 else if x == 0 then 0 else x.toBits.toNat)

def string (s : String) : Record := word s.utf8ByteSize ++ s.toUTF8.data.toList

def digest (d : Digest) : Record := d.bytes

/-- A value: its sort, the number of its parts, and the parts. -/
def value : Value → Record
  | .num x => 0 :: number x
  | .bool b => [1, if b then 1 else 0]
  | .array xs => 2 :: word xs.size ++ xs.toList.flatMap number
  | .tuple vs => 3 :: word vs.length ++ values vs
  | .unit => [4]
where
  values : List Value → Record
    | [] => []
    | v :: vs => value v ++ values vs

/-- The fingerprint of a record. -/
def hash (r : Record) : Digest := ⟨Blake3.hash r⟩

end Record

end Graft
