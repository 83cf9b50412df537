import MicStream.CommandLine
/-!
# The program
-/
namespace MicStream

/-- Writes lines to a stream. -/
def writeLines (stream : IO.FS.Stream) (lines : List String) : IO Unit :=
  lines.forM stream.putStrLn

end MicStream

open MicStream in
def main (args : List String) : IO UInt32 := do
  let outcome := Outcome.ofArgs Settings.builtIn args
  writeLines (← IO.getStdout) outcome.output
  writeLines (← IO.getStderr) outcome.errors
  return outcome.code.toUInt32
