/-! Binary64 numbers in decimal, positional notation: the fewest digits that read back as the same
number, without exponent and without a fraction that is zero. -/

namespace HexFabric.Decimal

/-- A positive number `digits * 10 ^ exponent`. -/
structure Scaled where
  digits : Nat
  exponent : Int

def twoTo (n : Nat) : Nat := 1 <<< n

def tenTo (n : Nat) : Nat := Nat.pow 10 n

structure Fraction where
  num : Nat
  den : Nat

def Fraction.ofBinary (m : Nat) (e : Int) : Fraction :=
  ⟨m * twoTo e.toNat, twoTo (-e).toNat⟩

def Fraction.scaleDown (f : Fraction) (e : Int) : Fraction :=
  ⟨f.num * tenTo (-e).toNat, f.den * tenTo e.toNat⟩

def Fraction.lt (f g : Fraction) : Bool := f.num * g.den < g.num * f.den

/-- The reals that round to one binary64 number, in quarters of its last place: the number, the ends
of the interval, whether the ends belong to it, and the exponent of two of a quarter. -/
structure Interval where
  middle : Nat
  low : Nat
  high : Nat
  closed : Bool
  exponent : Int

/-- The interval of the positive finite number with these bits, its sign apart. It reaches half way
to both neighbours; below a power of two the neighbour is half as far. -/
def Interval.ofBits (bits : Nat) : Interval :=
  let fraction := bits % twoTo 52
  let biased := bits / twoTo 52 % twoTo 11
  let m := if biased = 0 then fraction else fraction + twoTo 52
  let e : Int := (max biased 1 : Nat) - 1075
  { middle := 4 * m
    low := if fraction = 0 ∧ 1 < biased then 4 * m - 1 else 4 * m - 2
    high := 4 * m + 2
    closed := m % 2 = 0
    exponent := e - 2 }

/-- `d * 10 ^ e` rounds to the number. -/
def Interval.holds (i : Interval) (d : Nat) (e : Int) : Bool :=
  let value : Fraction := ⟨d * tenTo e.toNat, tenTo (-e).toNat⟩
  let low := Fraction.ofBinary i.low i.exponent
  let high := Fraction.ofBinary i.high i.exponent
  if i.closed then !value.lt low && !high.lt value else low.lt value && value.lt high

def digitCount (n : Nat) : Nat := (Nat.toDigits 10 n).length

/-- The least `k` with `f < 10 ^ k`. -/
def magnitude (f : Fraction) : Int :=
  let k : Int := digitCount f.num - digitCount f.den
  let scaled := f.scaleDown k
  if scaled.num < scaled.den then k else k + 1

/-- Of the two neighbours of the number among the multiples of `10 ^ e`, the nearer one that rounds
to it; the upper one if they are equally near. -/
def nearestOnGrid? (i : Interval) (e : Int) : Option Scaled :=
  let f := (Fraction.ofBinary i.middle i.exponent).scaleDown e
  let d := f.num / f.den
  match i.holds d e, i.holds (d + 1) e with
  | true, true => some ⟨if 2 * (f.num % f.den) < f.den then d else d + 1, e⟩
  | true, false => some ⟨d, e⟩
  | false, true => some ⟨d + 1, e⟩
  | false, false => none

/-- The fewest digits that read back; seventeen always do. -/
def shortest (bits : Nat) : Scaled :=
  let i := Interval.ofBits bits
  let k := magnitude (Fraction.ofBinary i.middle i.exponent)
  ((List.range 17).findSome? fun n => nearestOnGrid? i (k - (n + 1 : Nat))).getD ⟨0, 0⟩

/-- The digits of a number below one, behind the point, without zeros at the end. -/
def fractionDigits (d places : Nat) : List Char :=
  let ds := Nat.toDigits 10 d
  let padded := List.replicate (places - ds.length) '0' ++ ds
  (padded.reverse.dropWhile (· == '0')).reverse

/-- A positive number in positional notation. -/
def Scaled.text (s : Scaled) : String :=
  let places := (-s.exponent).toNat
  let whole := s.digits * tenTo s.exponent.toNat / tenTo places
  let fraction := fractionDigits (s.digits % tenTo places) places
  if fraction.isEmpty then toString whole
  else toString whole ++ "." ++ String.ofList fraction

/-- The text of the binary64 number with these bits. -/
def positional (bits : UInt64) : String :=
  let n := bits.toNat
  let magnitude := n % twoTo 63
  let sign := if n < twoTo 63 then "" else "-"
  if 0x7ff0000000000000 < magnitude then "NaN"
  else if magnitude = 0x7ff0000000000000 then sign ++ "inf"
  else if magnitude = 0 then sign ++ "0"
  else sign ++ (shortest magnitude).text

end HexFabric.Decimal
