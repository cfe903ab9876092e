import HexFabric.Chip

/-! Routing keys made of three fields: from the top, the column and the row of the source chip, and
the number of the net among those of that chip. -/

namespace HexFabric

/-- How many bits it takes to tell `n` things apart. -/
def bitsFor (n : Nat) : Nat := if n ≤ 1 then 0 else (n - 1).log2 + 1

/-- A word of which the lowest `bits` bits are set; `bits` is at most 32. -/
def fieldMask (bits : Nat) : BitVec 32 :=
  if bits = 0 then 0 else BitVec.allOnes 32 >>> (32 - bits)

/-- The widths of the fields of a key. Shifting a field out of the word leaves zero. -/
structure KeyLayout where
  xBits : Nat
  yBits : Nat
  indexBits : Nat
  deriving DecidableEq

namespace KeyLayout

def totalBits (l : KeyLayout) : Nat := l.xBits + l.yBits + l.indexBits

def xShift (l : KeyLayout) : Nat := l.indexBits + l.yBits

def yShift (l : KeyLayout) : Nat := l.indexBits

def xMask (l : KeyLayout) : BitVec 32 := fieldMask l.xBits <<< l.xShift

def yMask (l : KeyLayout) : BitVec 32 := fieldMask l.yBits <<< l.yShift

def indexMask (l : KeyLayout) : BitVec 32 := fieldMask l.indexBits

/-- The mask under which every key is matched. -/
def mask (l : KeyLayout) : BitVec 32 := l.xMask ||| l.yMask ||| l.indexMask

/-- How many nets of a chip can be numbered. -/
def indexCapacity (l : KeyLayout) : Nat := 1 <<< l.indexBits

/-- The key of net number `index` of chip `c`. -/
def key (l : KeyLayout) (c : Chip) (index : Nat) : BitVec 32 :=
  let x := (BitVec.ofNat 32 c.x &&& fieldMask l.xBits) <<< l.xShift
  let y := (BitVec.ofNat 32 c.y &&& fieldMask l.yBits) <<< l.yShift
  x ||| y ||| (BitVec.ofNat 32 index &&& l.indexMask)

/-- The chip and the number that a key is made of. -/
def decode (l : KeyLayout) (key : BitVec 32) : Chip × Nat :=
  let x := (key &&& l.xMask) >>> l.xShift
  let y := (key &&& l.yMask) >>> l.yShift
  (⟨x.toNat, y.toNat⟩, (key &&& l.indexMask).toNat)

end KeyLayout

end HexFabric
