import ScopeScript.CommandLine

/-!
# The program

Reads the source file and standard input, and writes what `CommandLine.reply`
answers.
-/

namespace ScopeScript.CommandLine

/-- The bytes of a file, if it can be read. -/
def readSource (path : String) : IO (Option (List UInt8)) := do
  try
    let bytes ← IO.FS.readBinFile path
    return some bytes.toList
  catch _ => return none

/-- Everything that is left of a stream. -/
partial def readAll (stream : IO.FS.Stream) (sofar : ByteArray) : IO ByteArray := do
  let chunk ← stream.read 65536
  if chunk.isEmpty then return sofar else readAll stream (sofar ++ chunk)

end ScopeScript.CommandLine

open ScopeScript CommandLine in
/-- Runs the program. -/
def main (args : List String) : IO UInt32 := do
  let path := ((Invocation.ofArgs? args).bind (·.file)).getD ""
  let file ← readSource path
  let input ← readAll (← IO.getStdin) .empty
  let reply := CommandLine.reply args (fun _ => file) input.toList
  (← IO.getStdout).putStr reply.output
  (← IO.getStderr).putStr reply.errors
  return reply.exitCode.toUInt32
