import HexFabric.Machine.Basic

/-! Breadth-first search over the links of a machine that can be used. -/

namespace HexFabric

/-- What a search knows of a chip. -/
inductive Mark where
  | unseen
  | source
  /-- The search came from `chip` over its link `link`. -/
  | via (chip : Chip) (link : Link)
  deriving DecidableEq

structure Search where
  /-- What is known of each chip, by cell. -/
  marks : Array Mark
  /-- Chips seen from which the search has not gone on yet, the earliest first. -/
  queue : List Chip
  /-- How many chips that are looked for have not been seen. -/
  pending : Nat

namespace Search

def start (m : Machine) (source : Chip) (sinks : List Chip) : Checked Search := do
  let marks ← store (Array.replicate m.cells Mark.unseen) (m.cell source) .source
  return ⟨marks, [source], (sinks.filter (· ≠ source)).length⟩

/-- Goes from `chip` over its link `link`, unless the chip there has been seen. -/
def follow (m : Machine) (sinks : List Chip) (chip : Chip) (s : Search) (link : Link) :
    Checked Search := do
  match m.hop chip link with
  | none => return s
  | some next =>
    match ← fetch s.marks (m.cell next) with
    | .unseen =>
      let ⟨marks, queue, pending⟩ := s
      return ⟨← store marks (m.cell next) (.via chip link), queue ++ [next],
        if next ∈ sinks then pending - 1 else pending⟩
    | _ => return s

/-- Goes on from the earliest chips in the queue, at most `fuel` of them, until all chips that are
looked for have been seen or none is left. -/
def run (m : Machine) (sinks : List Chip) : Nat → Search → Checked Search
  | 0, s => .ok s
  | fuel + 1, s => do
    if s.pending = 0 then return s
    else
      match s with
      | ⟨_, [], _⟩ => return s
      | ⟨marks, chip :: queue, pending⟩ =>
        let next ← Link.all.foldlM (follow m sinks chip) ⟨marks, queue, pending⟩
        run m sinks fuel next

/-- Searches from `source` until all of `sinks` have been seen. A chip joins the queue when it is
first seen, so there are no more steps than chips. -/
def fromSource (m : Machine) (source : Chip) (sinks : List Chip) : Checked Search := do
  run m sinks (m.size + 1) (← start m source sinks)

/-- The first of some chips that has not been seen. -/
def firstUnseen (m : Machine) (s : Search) : List Chip → Checked (Option Chip)
  | [] => .ok none
  | c :: rest => do
    match ← fetch s.marks (m.cell c) with
    | .unseen => return some c
    | _ => firstUnseen m s rest

end Search

end HexFabric
