import HexFabric.Decimal.Positional

/-! The weights of nets: binary64 numbers kept as their bits, so that every pattern survives. -/

namespace HexFabric

structure Weight where
  bits : UInt64
  deriving DecidableEq

namespace Weight

/-- Weight one, of nets that are not given one. -/
def one : Weight := ⟨0x3ff0000000000000⟩

/-- A number above zero and not infinite: not all of its bits are clear, but the sign bit is, and
its exponent is not the last. -/
def isPositive (w : Weight) : Bool := 0 < w.bits && w.bits < 0x7ff0000000000000

def toFloat (w : Weight) : Float := Float.ofBits w.bits

instance : ToString Weight := ⟨fun w => Decimal.positional w.bits⟩

end Weight

end HexFabric
