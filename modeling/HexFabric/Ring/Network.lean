import HexFabric.Record.Output
import HexFabric.Ring.Arguments

/-! The ring: vertices that each talk to their two neighbours, mapped onto a torus. -/

namespace HexFabric.Ring

def chipResources (a : Arguments) : Resources :=
  SortedMap.ofList [(.cores, a.chipCores), (.sdram, 128 * 1024 * 1024)]

def machine (a : Arguments) : Outcome Machine :=
  Machine.build ⟨a.width, a.height, .torus⟩ [.resources (chipResources a)]

/-- What a vertex needs: the cores asked for, and a kilobyte for each atom. -/
def demand (a : Arguments) : Resources :=
  SortedMap.ofList [(.cores, a.cores), (.sdram, a.atoms * 1024)]

def vertex (a : Arguments) (i : Nat) : Vertex :=
  { name := s!"ring{i}", extent := a.atoms, demand := demand a }

/-- The net from vertex number `i` of `n` to the ones before and after it, which may be one. -/
def net (n i : Nat) : Net :=
  { source := i, sinks := (InsertionSet.ofList [(i + n - 1) % n, (i + 1) % n]).elems }

def graph (a : Arguments) : Graph :=
  { Graph.empty with
    vertices := (List.range a.vertices).map (vertex a)
    nets := (List.range a.vertices).map (net a.vertices) }

def config (a : Arguments) : Config where
  strategy :=
    if a.anneal then
      .annealing {
        seed := a.seed.toUInt64
        iterations := a.iterations
        candidates := a.candidates
        deadline := a.deadline }
    else .firstFit
  keys := match a.keyBits with
    | [x, y, index] => .fixed ⟨x, y, index⟩
    | _ => .narrowest
  tables := ⟨a.minimise, a.elide⟩
  reserveMonitor := a.reserveMonitor

inductive Ending where
  | help
  | refused
  /-- There is no such machine, or a promise was broken. -/
  | crashed (cause : String)
  /-- The ring cannot be mapped. -/
  | failed (error : Error)
  /-- The result is to be written to a file. -/
  | done (file : String) (output : Output)

namespace Ending

def code : Ending → Nat
  | help => 0
  | refused => 2
  | crashed _ => 101
  | failed _ => 1
  | done _ _ => 0

end Ending

/-- Maps the ring of a command line. -/
def run [Build] (argv : List String) (clock : Nat → Nat) : Ending :=
  match Arguments.read argv with
  | .error .help => .help
  | .error .refused => .refused
  | .ok a =>
    match machine a with
    | .error (.error e) => .crashed e.message
    | .error (.defect _) => .crashed "internal defect"
    | .ok m =>
      match (graph a).mapOnto m (config a) clock with
      | .ok output => .done a.output output
      | .error (.error e) => .failed e
      | .error (.defect _) => .crashed "internal defect"

end HexFabric.Ring
