import HexFabric.Ring.Network

/-! The command line of the ring. -/

open HexFabric

def usage : String :=
  "Usage: ring [OPTIONS] <WIDTH> <HEIGHT> <OUTPUT>\n\n" ++
    "Options: " ++ ", ".intercalate (Ring.Flag.all.map fun f => "--" ++ f.name)

/-- Writes the result, or says why there is none. -/
def main (argv : List String) : IO UInt32 := do
  let ending := Ring.run argv fun _ => 0
  match ending with
  | .help => IO.println usage
  | .refused => IO.eprintln usage
  | .crashed cause => IO.eprintln cause
  | .failed error => IO.eprintln error.message
  | .done file output =>
    try
      IO.FS.writeBinFile file ⟨(Codec.output.write output).toArray⟩
    catch failure =>
      IO.eprintln s!"cannot write output: {failure}"
      return 101
  return ending.code.toUInt32
