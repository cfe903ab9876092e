import HexFabric.Ring.Numeral

/-! The command line: the sides of a machine, the file for the result, and options. Options may
stand anywhere before a lone double dash. The first thing that cannot be taken, or a call for help,
ends the reading. -/

namespace HexFabric.Ring

/-- Why the reading of a command line ends early. -/
inductive Stop where
  | help
  | refused
  deriving DecidableEq

inductive Flag where
  | vertices
  | atoms
  | cores
  | chipCores
  | strategy
  | seed
  | iterations
  | candidates
  | deadline
  | keyBits
  | noMinimise
  | elide
  | reserveMonitor
  | help
  deriving DecidableEq

namespace Flag

def all : List Flag :=
  [vertices, atoms, cores, chipCores, strategy, seed, iterations, candidates, deadline, keyBits,
    noMinimise, elide, reserveMonitor, help]

/-- The name of an option, without its dashes. -/
def name : Flag → String
  | vertices => "vertices"
  | atoms => "atoms"
  | cores => "cores"
  | chipCores => "chip-cores"
  | strategy => "strategy"
  | seed => "seed"
  | iterations => "iterations"
  | candidates => "candidates"
  | deadline => "deadline-ms"
  | keyBits => "key-bits"
  | noMinimise => "no-minimize"
  | elide => "elide-default-routes"
  | reserveMonitor => "reserve-monitor"
  | help => "help"

def arity : Flag → Nat
  | noMinimise | elide | reserveMonitor | help => 0
  | keyBits => 3
  | _ => 1

def repeats (f : Flag) : Bool := f = keyBits

end Flag

structure Options where
  vertices : Nat := 64
  atoms : Nat := 256
  /-- The cores that a whole vertex needs. -/
  cores : Nat := 4
  chipCores : Nat := 18
  /-- Improve the placement by annealing. -/
  anneal : Bool := true
  seed : Nat := 8026727
  iterations : Nat := 20000
  candidates : Nat := 1
  deadline : Option Nat := none
  /-- The widths of key fields. They count only if there are three. -/
  keyBits : List Nat := []
  minimise : Bool := true
  elide : Bool := false
  reserveMonitor : Bool := false

structure Arguments extends Options where
  width : Nat
  height : Nat
  output : String

/-- A command line that is partly read. -/
structure Reading where
  /-- What stands outside options. -/
  places : List String := []
  options : Options := {}
  given : List Flag := []
  /-- An option that lacks values, with those it has. -/
  pending : Option (Flag × List String) := none
  /-- A lone double dash has been read: there are no more options. -/
  closed : Bool := false

namespace Options

/-- The options after one more with its values, if they make sense. -/
def set? (a : Options) : Flag → List String → Option Options
  | .vertices, [v] => do return { a with vertices := ← longNumber? v }
  | .atoms, [v] => do return { a with atoms := ← longNumber? v }
  | .cores, [v] => do return { a with cores := ← longNumber? v }
  | .chipCores, [v] => do return { a with chipCores := ← longNumber? v }
  | .strategy, ["sequential"] => some { a with anneal := false }
  | .strategy, ["annealing"] => some { a with anneal := true }
  | .seed, [v] => do return { a with seed := ← longNumber? v }
  | .iterations, [v] => do return { a with iterations := ← longNumber? v }
  | .candidates, [v] => do return { a with candidates := ← longNumber? v }
  | .deadline, [v] => do return { a with deadline := some (← longNumber? v) }
  | .keyBits, values => do
    let bits ← (values.flatMap fun v => v.splitOn ",").mapM number?
    return { a with keyBits := a.keyBits ++ bits }
  | .noMinimise, [] => some { a with minimise := false }
  | .elide, [] => some { a with elide := true }
  | .reserveMonitor, [] => some { a with reserveMonitor := true }
  | _, _ => none

end Options

namespace Reading

/-- Takes an option with all its values. -/
def takeOption (r : Reading) (f : Flag) (values : List String) : Except Stop Reading :=
  if f = .help then .error .help
  else if f ∈ r.given ∧ ¬f.repeats then .error .refused
  else
    match r.options.set? f values with
    | some options => .ok { r with options, given := f :: r.given, pending := none }
    | none => .error .refused

/-- Takes what stands outside options: the sides of the machine and the name of a file. -/
def takePlace (r : Reading) (arg : String) : Except Stop Reading :=
  let fits := match r.places.length with
    | 0 => (number? arg).isSome
    | 1 => (number? arg).isSome
    | 2 => arg ≠ ""
    | _ => false
  if fits then .ok { r with places := r.places ++ [arg] } else .error .refused

/-- An argument that may be a value of an option. A lone dash may. -/
def isValue (arg : String) : Bool :=
  match arg.toList with
  | '-' :: _ :: _ => false
  | _ => true

/-- Takes an argument that starts with two dashes, given without them. -/
def takeLong (r : Reading) (body : List Char) : Except Stop Reading :=
  let name := body.takeWhile (· ≠ '=')
  match Flag.all.find? fun f => f.name.toList = name, body.drop name.length with
  | none, _ => .error .refused
  | some f, [] => if f.arity = 0 then r.takeOption f [] else .ok { r with pending := some (f, []) }
  | some f, _ :: value =>
    if f.arity = 1 then r.takeOption f [String.ofList value] else .error .refused

def take (r : Reading) (arg : String) : Except Stop Reading :=
  match r.pending with
  | some (f, values) =>
    if ¬isValue arg then .error .refused
    else if values.length + 1 = f.arity then r.takeOption f (values ++ [arg])
    else .ok { r with pending := some (f, values ++ [arg]) }
  | none =>
    if r.closed then r.takePlace arg
    else
      match arg.toList with
      | ['-', '-'] => .ok { r with closed := true }
      | '-' :: '-' :: body => r.takeLong body
      | '-' :: 'h' :: _ => .error .help
      | '-' :: _ :: _ => .error .refused
      | _ => r.takePlace arg

/-- The arguments, once all has been read. -/
def finish (r : Reading) : Except Stop Arguments :=
  match r.pending, r.places with
  | none, [width, height, output] =>
    match number? width, number? height with
    | some width, some height => .ok ⟨r.options, width, height, output⟩
    | _, _ => .error .refused
  | _, _ => .error .refused

end Reading

def Arguments.read (argv : List String) : Except Stop Arguments := do
  (← argv.foldlM Reading.take {}).finish

end HexFabric.Ring
