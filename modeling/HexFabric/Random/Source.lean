import HexFabric.Defect

/-! Drawing numbers from a source of random words. -/

namespace HexFabric

/-- A source of 64-bit words: from each of its states the next word and the state after it. -/
class WordSource (σ : Type) where
  next : σ → UInt64 × σ

namespace WordSource

variable {σ : Type} [WordSource σ]

/-- A number from zero up to one, from the upper 53 bits of a word. -/
def unit (s : σ) : Float × σ :=
  let (w, s) := next s
  ((w >>> 11).toFloat * Float.ofBits 0x3ca0000000000000, s)

/-- The words taken for a draw below `range`: their products with `range` that leave at most this
much in the lower word, which makes the upper word uniform. -/
def zone (range : Nat) : Nat := range <<< (63 - range.log2) - 1

/-- Tries words until one is taken, and takes the last of `attempts + 1` in any case. A real draw has
no such bound and tries on. A word is refused less than every other time, so a stream that meets the
bound does not come up in practice; with it, a draw ends on every stream of words. -/
def drawUpper (range : Nat) : Nat → σ → Nat × σ
  | 0, s =>
    let (w, s) := next s
    (w.toNat * range / UInt64.size, s)
  | attempts + 1, s =>
    let (w, s) := next s
    let product := w.toNat * range
    if product % UInt64.size ≤ zone range then (product / UInt64.size, s) else drawUpper range attempts s

/-- A number from `lo` up to but without `hi`. -/
def draw (lo hi : Nat) (s : σ) : Checked (Nat × σ) :=
  if lo < hi then
    let (n, s) := drawUpper (hi - lo) 1000 s
    .ok (lo + n, s)
  else .error .emptyRange

end WordSource

end HexFabric
