import HexFabric.Machine.Basic
import HexFabric.Record.Codec

/-! How chips, links and resources are written. -/

namespace HexFabric.Codec

def word : Codec Nat := fixed 4

def longWord : Codec Nat := fixed 8

def chip : Codec Chip := (word.pair word).via (fun p => ⟨p.1, p.2⟩) fun c => (c.x, c.y)

def link : Codec Link := (alternative 6).via Link.ofIndex Link.index

/-- A resource is the number of its kind, with its name if it is not built in. -/
def resource : Codec Resource where
  write r := match r with
    | .named name => (alternative 4).write r.rank ++ text.write name
    | _ => (alternative 4).write r.rank
  read := do
    match ← (alternative 4).read with
    | 0 => return .cores
    | 1 => return .sdram
    | 2 => return .sram
    | _ => return .named (← text.read)

/-- Quantities by resource. Where a resource comes twice, the later quantity counts. -/
def resources : Codec Resources :=
  (resource.pair longWord).list.via SortedMap.ofList SortedMap.entries

/-- A map in order of first insertion. Where a key comes twice, the later value counts. -/
def insertionMap {α β : Type} [DecidableEq α] (c : Codec α) (d : Codec β) :
    Codec (InsertionMap α β) :=
  (c.pair d).list.via InsertionMap.ofList InsertionMap.entries

def weight : Codec Weight := longWord.via (fun n => ⟨n.toUInt64⟩) fun w => w.bits.toNat

end HexFabric.Codec
