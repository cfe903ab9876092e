import HexFabric.Resources.Shortfall
import HexFabric.Weight

/-! Why a graph cannot be mapped onto a machine, with the texts that say so. -/

namespace HexFabric

inductive GraphFault where
  | zeroExtent (vertex : String)
  | zeroGranularity (vertex : String)
  | maxSliceBelowGranularity (vertex : String)
  | unknownVertexInNet (net : Nat)
  | noSinks (net : Nat)
  | badWeight (net : Nat) (weight : Weight)
  | unknownVertexLocated (vertex : Nat)
  | pinnedToMissingChip (vertex : String) (chip : Chip)
  | unknownVertexAtEndpoint (vertex : Nat)
  | reservedOnMissingChip (chip : Chip)
  deriving DecidableEq

inductive MachineFault where
  | noChips (width height : Nat)
  | resourceExceptionOutside (chip : Chip)
  | resourceExceptionNames (chip : Chip)
  | deadChipOutside (chip : Chip)
  | deadLinkOutside (chip : Chip) (link : Link)
  | routerExceptionOutside (chip : Chip)
  | noLiveChips
  | nowhereToPlace (slice : Nat) (vertex : String)
  deriving DecidableEq

inductive ConfigFault where
  | noIterations
  | initialTemperature
  | finalTemperature
  | noCandidates
  | distanceLimit
  | keyTooWide (xBits yBits indexBits : Nat)
  | coordinatesTooNarrow (xBits yBits width height : Nat)
  deriving DecidableEq

/-- Why a file cannot be read or written. -/
inductive FileFault where
  | notFound
  /-- The data ends inside a value of fixed size or a length. -/
  | endOfData
  | endOfText
  /-- A length goes on past the tenth byte. -/
  | overlongInteger
  | malformedText
  /-- The number of an alternative is above 32 bits. -/
  | oversizedAlternative
  /-- A number for which there is no alternative. -/
  | unknownAlternative (index count : Nat)
  deriving DecidableEq

/-- Why a graph cannot be mapped onto a machine. Every case is a property of the input. -/
inductive Error where
  /-- A vertex that fits no live chip, cut as finely as it may be; the shortfall is against the chip
  that it comes closest to fitting. -/
  | partitionInfeasible (vertex : String) (atoms : Nat) (shortfall : Shortfall)
  /-- A slice for which no live chip has room; the shortfall is against the chip with the most. -/
  | placementInfeasible (slice : Nat) (vertex : String) (shortfall : Shortfall)
  | keyspaceExhausted (chip : Chip) (count indexBits capacity : Nat)
  | unroutable (net : Nat) (source sink : Chip)
  | routingTableOverflow (chip : Chip) (entries capacity : Nat)
  /-- Nets with the same key and mask that fork differently on one chip. -/
  | multisourceRoute (key mask : BitVec 32) (chip : Chip)
  | invalidGraph (fault : GraphFault)
  | invalidMachine (fault : MachineFault)
  | invalidConfig (fault : ConfigFault)
  | io (fault : FileFault)
  deriving DecidableEq

/-! ### Texts -/

/-- A word as eight hexadecimal digits. -/
def hexWord (w : BitVec 32) : String :=
  let digits := Nat.toDigits 16 w.toNat
  "0x" ++ String.ofList (List.replicate (8 - digits.length) '0' ++ digits)

def GraphFault.message : GraphFault → String
  | zeroExtent vertex => s!"vertex {vertex} has zero extent"
  | zeroGranularity vertex => s!"vertex {vertex} has zero granularity"
  | maxSliceBelowGranularity vertex =>
    s!"vertex {vertex} has a maximum slice smaller than its granularity"
  | unknownVertexInNet net => s!"graph net {net} refers to an unknown vertex"
  | noSinks net => s!"graph net {net} has no sinks"
  | badWeight net weight => s!"graph net {net} has weight {weight}"
  | unknownVertexLocated vertex => s!"location constraint on unknown vertex #{vertex}"
  | pinnedToMissingChip vertex chip => s!"vertex {vertex} pinned to {chip} which is not a live chip"
  | unknownVertexAtEndpoint vertex => s!"route endpoint on unknown vertex #{vertex}"
  | reservedOnMissingChip chip => s!"resources reserved on {chip} which is not a live chip"

def MachineFault.message : MachineFault → String
  | noChips width height => s!"machine must be at least 1x1, got {width}x{height}"
  | resourceExceptionOutside chip => s!"resource exception for {chip} outside the machine"
  | resourceExceptionNames chip =>
    s!"resource exception for {chip} must name exactly the default resources"
  | deadChipOutside chip => s!"dead chip {chip} outside the machine"
  | deadLinkOutside chip link => s!"dead link {chip} {link} outside the machine"
  | routerExceptionOutside chip => s!"router capacity exception for {chip} outside the machine"
  | noLiveChips => "machine has no live chips"
  | nowhereToPlace slice vertex => s!"no live chip to place slice #{slice} of {vertex} on"

def ConfigFault.message : ConfigFault → String
  | noIterations => "iterations must be positive"
  | initialTemperature => "initial temperature must be positive"
  | finalTemperature => "final temperature must be positive and not above the initial one"
  | noCandidates => "at least one candidate per step is needed"
  | distanceLimit => "distance limit must be at least 1"
  | keyTooWide xBits yBits indexBits =>
    s!"key fields of {xBits} + {yBits} + {indexBits} bits exceed 32 bits"
  | coordinatesTooNarrow xBits yBits width height =>
    s!"{xBits}x{yBits} bits of chip coordinates cannot address a {width}x{height} machine"

def FileFault.message : FileFault → String
  | notFound => "No such file or directory (os error 2)"
  | endOfData => "failed to fill whole buffer"
  | endOfText => "unexpected EOF reading number of bytes expected in field prefix"
  | overlongInteger => "continuation bit indicated an invalid variable-length integer"
  | malformedText => "invalid utf-8 in string"
  | oversizedAlternative => "Enum identifiers larger than u32 are not supported"
  | unknownAlternative index count =>
    s!"invalid value: integer `{index}`, expected variant index 0 <= i < {count}"

def Error.message : Error → String
  | partitionInfeasible vertex atoms ⟨resource, required, available⟩ =>
    s!"vertex {vertex} cannot be partitioned: a slice of {atoms} atoms needs " ++
      s!"{required} {resource} but the closest-fitting live chip offers {available}"
  | placementInfeasible slice vertex ⟨resource, required, available⟩ =>
    s!"cannot place slice #{slice} of vertex {vertex}: needs {required} {resource}, " ++
      s!"{available} left on the closest-fitting chip"
  | keyspaceExhausted chip count indexBits capacity =>
    s!"keyspace exhausted on chip {chip}: {count} nets sourced but the " ++
      s!"{indexBits}-bit net-index field holds {capacity}"
  | unroutable net source sink =>
    s!"net #{net} is unroutable: no live path from {source} to {sink}"
  | routingTableOverflow chip entries capacity =>
    s!"routing table of chip {chip} has {entries} entries after minimization, " ++
      s!"capacity is {capacity} ({entries - capacity} over)"
  | multisourceRoute key mask chip =>
    s!"nets with the same key {hexWord key} and mask {hexWord mask} fork differently at {chip}"
  | invalidGraph fault => s!"invalid graph: {fault.message}"
  | invalidMachine fault => s!"invalid machine: {fault.message}"
  | invalidConfig fault => s!"invalid configuration: {fault.message}"
  | io fault => s!"IO error: {fault.message}"

/-! ### Outcomes -/

/-- How a run ends without a result: in an error, which is an answer, or at a defect. -/
inductive Failure where
  | error (error : Error)
  | defect (defect : Defect)
  deriving DecidableEq

/-- A computation that ends in a result, an error or a defect. -/
abbrev Outcome (α : Type) : Type := Except Failure α

def fail {α : Type} (e : Error) : Outcome α := .error (.error e)

instance : MonadLift (Except Defect) (Except Failure) := ⟨Except.mapError .defect⟩

instance : MonadLift (Except Error) (Except Failure) := ⟨Except.mapError .error⟩

end HexFabric
