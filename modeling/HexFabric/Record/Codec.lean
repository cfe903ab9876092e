import HexFabric.Error

/-! Binary records. Numbers of fixed size are written with the lowest byte first; lengths, and the
numbers of alternatives, in groups of seven bits, each but the last with its top bit set. A list is
its length and its elements, and a structure is its fields in order. -/

namespace HexFabric

abbrev Bytes : Type := List UInt8

/-- Takes a value off the front of data, or ends in a fault. -/
abbrev Reader : Type → Type := StateT Bytes (Except FileFault)

/-- A way to write values, and to read them. -/
structure Codec (α : Type) where
  write : α → Bytes
  read : Reader α

namespace Codec

variable {α β : Type}

/-- Values written as other values. -/
def via (c : Codec α) (wrap : α → β) (unwrap : β → α) : Codec β where
  write b := c.write (unwrap b)
  read := do return wrap (← c.read)

def pair (c : Codec α) (d : Codec β) : Codec (α × β) where
  write p := c.write p.1 ++ d.write p.2
  read := do
    let a ← c.read
    let b ← d.read
    return (a, b)

def readByte : Reader UInt8 := fun bytes =>
  match bytes with
  | [] => .error .endOfData
  | b :: rest => .ok (b, rest)

/-! ### Numbers -/

/-- The lowest `size` bytes of a number. -/
def writeFixed : Nat → Nat → Bytes
  | 0, _ => []
  | size + 1, n => UInt8.ofNat (n % 256) :: writeFixed size (n / 256)

def readFixed : Nat → Reader Nat
  | 0 => return 0
  | size + 1 => do
    let b ← readByte
    return b.toNat + 256 * (← readFixed size)

/-- Numbers below `256 ^ size`. -/
def fixed (size : Nat) : Codec Nat := ⟨writeFixed size, readFixed size⟩

/-- A number in groups of seven bits. -/
def writeGroups (n : Nat) : Bytes :=
  if n < 128 then [UInt8.ofNat n] else UInt8.ofNat (n % 128 + 128) :: writeGroups (n / 128)

/-- A number in at most `groups + 1` groups of seven bits, the last of which may hold one bit
only: a byte there that is above one is a fault. -/
def readGroups : Nat → Reader Nat
  | 0 => do
    let b ← readByte
    if 1 < b then throw .overlongInteger else return b.toNat
  | groups + 1 => do
    let b ← readByte
    if b < 128 then return b.toNat else return b.toNat % 128 + 128 * (← readGroups groups)

/-- Numbers below `2 ^ 64`, in ten groups at most. -/
def varying : Codec Nat := ⟨writeGroups, readGroups 9⟩

/-- The number of one of `count` alternatives. -/
def alternative (count : Nat) : Codec Nat where
  write := writeGroups
  read := do
    let n ← varying.read
    if UInt32.size ≤ n then throw .oversizedAlternative
    else if count ≤ n then throw (.unknownAlternative n count)
    else return n

/-! ### Sequences -/

/-- So many values, one after the other. -/
def readMany (c : Codec α) : Nat → Reader (List α)
  | 0 => return []
  | n + 1 => do
    let a ← c.read
    let as ← readMany c n
    return a :: as

def list (c : Codec α) : Codec (List α) where
  write as := varying.write as.length ++ as.flatMap c.write
  read := do c.readMany (← varying.read)

def array (c : Codec α) : Codec (Array α) := c.list.via List.toArray Array.toList

/-- So many bytes of a text. -/
def readBytes (n : Nat) : Reader Bytes := fun bytes =>
  if bytes.length < n then .error .endOfText else .ok (bytes.take n, bytes.drop n)

/-- Texts, in UTF-8. -/
def text : Codec String where
  write s := varying.write s.utf8ByteSize ++ s.toByteArray.data.toList
  read := do
    let bytes ← readBytes (← varying.read)
    match String.fromUTF8? ⟨bytes.toArray⟩ with
    | some s => return s
    | none => throw .malformedText

/-- A value or none, after a byte that says which. -/
def optional (c : Codec α) : Codec (Option α) where
  write
    | none => [0]
    | some a => 1 :: c.write a
  read := do
    if (← readByte) = 0 then return none
    return some (← c.read)

end Codec

end HexFabric
