import HexFabric.Table.Entry

/-! Deciding whether two tables route all keys alike. A set of keys that agree on some bits is split
in two by one more bit until the first entries of both tables decide it as a whole. -/

namespace HexFabric

/-- The entries that accept some key of a cube. -/
def relevant (cube : Pattern) (table : List Entry) : List Entry :=
  table.filter (·.pattern.overlaps cube)

/-- The lowest bit that an entry looks at and that is open in a cube. There is none if the entry
accepts the whole cube or nothing of it. -/
def openBit? (cube : Pattern) (e : Entry) : Option Nat :=
  lowestBit? (e.pattern.mask &&& ~~~cube.mask)

/-- The open bit of the first entry of `a`, else of the first entry of `b`. -/
def splitBit? (cube : Pattern) (a b : List Entry) : Option Nat :=
  (a.head?.toList ++ b.head?.toList).findSome? (openBit? cube)

/-- The keys of a cube whose bit `i` is clear. -/
def Pattern.lowerHalf (cube : Pattern) (i : Nat) : Pattern :=
  ⟨cube.key, cube.mask ||| BitVec.twoPow 32 i⟩

/-- The keys of a cube whose bit `i` is set. -/
def Pattern.upperHalf (cube : Pattern) (i : Nat) : Pattern :=
  ⟨cube.key ||| BitVec.twoPow 32 i, cube.mask ||| BitVec.twoPow 32 i⟩

/-- A bit by which a cube is split is open in it. -/
theorem getLsbD_of_splitBit? {cube : Pattern} {a b : List Entry} {i : Nat}
    (h : splitBit? cube a b = some i) : i < 32 ∧ cube.mask.getLsbD i = false := by
  obtain ⟨e, _, he⟩ := List.exists_of_findSome?_eq_some h
  obtain ⟨hi, hbit⟩ := getLsbD_of_lowestBit? he
  simp only [BitVec.getLsbD_and, BitVec.getLsbD_not, Bool.and_eq_true] at hbit
  exact ⟨hi, by simpa [hi] using hbit.2⟩

/-- The open bits, read as a number, become less once one of them is fixed. -/
theorem toNat_not_or_twoPow_lt {w : BitVec 32} {i : Nat} (hi : i < 32)
    (h : w.getLsbD i = false) :
    (~~~(w ||| BitVec.twoPow 32 i)).toNat < (~~~w).toNat := by
  have hle : w.toNat ≤ (w ||| BitVec.twoPow 32 i).toNat := by
    rw [BitVec.toNat_or]; exact Nat.left_le_or
  have hne : w.toNat ≠ (w ||| BitVec.twoPow 32 i).toNat := fun heq => by
    have := congrArg (·.getLsbD i) (BitVec.eq_of_toNat_eq heq)
    rw [BitVec.getLsbD_or, h] at this
    simp [hi] at this
  have hlt := (w ||| BitVec.twoPow 32 i).isLt
  simp only [BitVec.toNat_not]
  omega

/-- The tables give every key of a cube the same route. -/
def agreeOn (cube : Pattern) (a b : List Entry) : Bool :=
  let a := relevant cube a
  let b := relevant cube b
  match _h : splitBit? cube a b with
  | none => a.head?.map (·.route) = b.head?.map (·.route)
  | some i => agreeOn (cube.lowerHalf i) a b && agreeOn (cube.upperHalf i) a b
termination_by (~~~cube.mask).toNat
decreasing_by
  all_goals
    obtain ⟨hi, hbit⟩ := getLsbD_of_splitBit? ‹_›
    exact toNat_not_or_twoPow_lt hi hbit

/-- The tables give every key the same route. -/
def tablesEquivalent (a b : List Entry) : Bool := agreeOn ⟨0, 0⟩ a b

end HexFabric
