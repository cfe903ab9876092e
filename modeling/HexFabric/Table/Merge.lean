import HexFabric.InsertionMap
import HexFabric.Table.Entry

/-! Shortening a table. Two entries of one route whose patterns differ in one bit of the key are
merged into one that does not look at the bit, unless a pattern of another route would overlap it;
and so on until there are no such entries left. -/

namespace HexFabric

/-- Two patterns of a group, and the one that accepts the keys of both. -/
structure Merge where
  lower : Pattern
  upper : Pattern
  merged : Pattern

namespace Merge

/-- The merge of `p` and the pattern that differs from it in having bit `i` of the key set, if
that is there and `others` permit. -/
def overBit? (others patterns : List Pattern) (p : Pattern) (i : Nat) : Option Merge :=
  let bit := BitVec.twoPow 32 i
  let upper : Pattern := ⟨p.key ^^^ bit, p.mask⟩
  let merged : Pattern := ⟨p.key &&& ~~~bit, p.mask &&& ~~~bit⟩
  if p.mask.getLsbD i ∧ ¬p.key.getLsbD i ∧ upper ∈ patterns ∧ ¬others.any (·.overlaps merged) then
    some ⟨p, upper, merged⟩
  else none

/-- The first merge: of the first pattern, over the lowest bit. -/
def find? (others patterns : List Pattern) : Option Merge :=
  patterns.findSome? fun p => (List.range 32).findSome? (overBit? others patterns p)

/-- Puts the merged pattern in place of the two. -/
def apply (m : Merge) (patterns : List Pattern) : List Pattern :=
  Ascending.insert m.merged ((patterns.erase m.lower).erase m.upper)

theorem of_overBit? {others patterns : List Pattern} {p : Pattern} {i : Nat} {m : Merge}
    (h : overBit? others patterns p i = some m) :
    m.lower = p ∧ m.upper = ⟨p.key ^^^ BitVec.twoPow 32 i, p.mask⟩ ∧ m.upper ∈ patterns ∧
      m.merged = ⟨p.key &&& ~~~BitVec.twoPow 32 i, p.mask &&& ~~~BitVec.twoPow 32 i⟩ ∧
      p.mask.getLsbD i = true ∧ p.key.getLsbD i = false ∧
      ∀ q ∈ others, q.overlaps m.merged = false := by
  unfold overBit? at h
  simp only [Option.ite_none_right_eq_some] at h
  obtain ⟨⟨hmask, hkey, hupper, hothers⟩, h⟩ := h
  obtain rfl := Option.some.inj h
  exact ⟨rfl, rfl, hupper, rfl, hmask, by simpa using hkey, by simpa using hothers⟩

theorem of_find? {others patterns : List Pattern} {m : Merge}
    (h : find? others patterns = some m) :
    ∃ p ∈ patterns, ∃ i < 32, overBit? others patterns p i = some m := by
  obtain ⟨p, hp, h⟩ := List.exists_of_findSome?_eq_some h
  obtain ⟨i, hi, h⟩ := List.exists_of_findSome?_eq_some h
  exact ⟨p, hp, i, List.mem_range.1 hi, h⟩

theorem upper_ne_lower {others patterns : List Pattern} {p : Pattern} {i : Nat} {m : Merge}
    (hi : i < 32) (h : overBit? others patterns p i = some m) : m.upper ≠ m.lower := by
  obtain ⟨hl, hu, _, _, _, hkey, _⟩ := of_overBit? h
  rw [hl, hu]
  intro heq
  have := congrArg (·.getLsbD i) (congrArg Pattern.key heq)
  rw [BitVec.getLsbD_xor, hkey] at this
  simp [hi] at this

theorem length_insert_le (p : Pattern) (ps : List Pattern) :
    (Ascending.insert p ps).length ≤ ps.length + 1 := by
  induction ps with
  | nil => simp [Ascending.insert]
  | cons q rest ih =>
    unfold Ascending.insert
    split
    · simp
    · split
      · simpa using ih
      · simp

theorem length_apply_lt {others patterns : List Pattern} {m : Merge}
    (h : find? others patterns = some m) : (m.apply patterns).length < patterns.length := by
  obtain ⟨p, hp, i, hi, h⟩ := of_find? h
  have hne := upper_ne_lower hi h
  obtain ⟨hl, _, hu, _⟩ := of_overBit? h
  have h1 := List.length_erase_of_mem (hl ▸ hp : m.lower ∈ patterns)
  have h2 := List.length_erase_of_mem ((List.mem_erase_of_ne hne).2 hu)
  have h3 := length_insert_le m.merged ((patterns.erase m.lower).erase m.upper)
  have h4 := List.length_pos_of_mem ((List.mem_erase_of_ne hne).2 hu)
  unfold apply
  omega

end Merge

/-- Merges patterns of one route, where those of other routes are `others`, until none can be. -/
def mergeAll (others patterns : List Pattern) : List Pattern :=
  match _h : Merge.find? others patterns with
  | none => patterns
  | some m => mergeAll others (m.apply patterns)
termination_by patterns.length
decreasing_by exact Merge.length_apply_lt ‹_›

/-! ### Whole tables -/

/-- The patterns of each route, ascending; routes in the order of their first entries. -/
abbrev Groups : Type := List (RouteSet × List Pattern)

namespace Groups

/-- Adds the pattern of an entry to the group of its route. -/
def addEntry (groups : InsertionMap RouteSet (List Pattern)) (e : Entry) :
    InsertionMap RouteSet (List Pattern) :=
  groups.insert e.route (Ascending.insert e.pattern ((groups.get? e.route).getD []))

def ofTable (table : List Entry) : Groups :=
  (table.foldl addEntry .empty).entries

def toTable (groups : Groups) : List Entry :=
  groups.flatMap fun e => e.2.map fun p => ⟨p, e.1⟩

def size (groups : Groups) : Nat := groups.foldr (fun e n => e.2.length + n) 0

def others (groups : Groups) (route : RouteSet) : List Pattern :=
  (groups.filter (·.1 ≠ route)).flatMap (·.2)

/-- Merges the patterns of one route. -/
def mergeRoute (groups : Groups) (route : RouteSet) : Groups :=
  let others := groups.others route
  groups.map fun e => if e.1 = route then (e.1, mergeAll others e.2) else e

/-- Merges the patterns of every route, one route after another. -/
def pass (order : List RouteSet) (groups : Groups) : Groups := order.foldl mergeRoute groups

/-- Passes over all routes for as long as that merges anything. -/
def settle (order : List RouteSet) (groups : Groups) : Groups :=
  let next := groups.pass order
  if size next < size groups then settle order next else next
termination_by size groups

/-- The routes, the largest group first; of several, the one that came first. -/
def order (groups : Groups) : List RouteSet :=
  (groups.mergeSort fun a b => b.2.length ≤ a.2.length).map (·.1)

end Groups

/-- A shorter table that routes as `table` does, if no entries of different routes overlap there. -/
def minimise (table : List Entry) : List Entry :=
  let groups := Groups.ofTable table
  (groups.settle groups.order).toTable

end HexFabric
