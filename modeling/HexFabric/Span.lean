import HexFabric.Order

/-! The length of the shortest interval that covers some coordinates, on a line or round a ring. -/

namespace HexFabric.Span

/-- The coordinates that occur, ascending and each once. -/
def occupied (coords : List Nat) : List Nat := Ascending.ofList coords

/-- The widest step from one coordinate to the next, or `gap` if that is wider. -/
def widestGap (gap : Nat) : List Nat → Nat
  | a :: b :: rest => widestGap (max gap (b - a)) (b :: rest)
  | _ => gap

/-- The length of the shortest interval that covers `coords`. With `ring` the coordinates lie on a
ring of that length and the interval may pass its end: it leaves out the widest gap. -/
def cover (coords : List Nat) (ring : Option Nat) : Nat :=
  match occupied coords with
  | [] => 0
  | lo :: rest =>
    let hi := (lo :: rest).getLastD lo
    match ring with
    | none => hi - lo
    | some n => n - widestGap (n + lo - hi) (lo :: rest)

end HexFabric.Span
