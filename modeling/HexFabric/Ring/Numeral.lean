/-! Numbers on the command line. -/

namespace HexFabric.Ring

/-- The number that some decimal digits write; there must be one at least. -/
def digitsValue? (cs : List Char) : Option Nat :=
  if cs = [] ∨ ¬cs.all Char.isDigit then none
  else some (cs.foldl (fun n c => 10 * n + (c.toNat - '0'.toNat)) 0)

/-- A number of 64 bits, with or without a plus sign. -/
def longNumber? (s : String) : Option Nat :=
  let digits := match s.toList with
    | '+' :: rest => rest
    | cs => cs
  (digitsValue? digits).filter (· < UInt64.size)

/-- A number of 32 bits, with or without a sign; zero may be written as negative. -/
def number? (s : String) : Option Nat :=
  match s.toList with
  | '-' :: rest => (digitsValue? rest).filter (· = 0)
  | '+' :: rest => (digitsValue? rest).filter (· < UInt32.size)
  | cs => (digitsValue? cs).filter (· < UInt32.size)

end HexFabric.Ring
