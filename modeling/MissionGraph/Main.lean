import MissionGraph.CommandLine

/-!
# The program

Reads the file that the command line names, and prints what the command leaves behind.
-/

namespace MissionGraph.CommandLine

/-- All text up to the end of a stream. -/
partial def readAll (stream : IO.FS.Stream) (before : String) : IO String := do
  let line ← stream.getLine
  if line.isEmpty then return before else readAll stream (before ++ line)

def readInput (name : String) : IO String := do
  if name = standardStream then readAll (← IO.getStdin) "" else IO.FS.readFile name

def writeOutput (name text : String) : IO Unit := do
  if name = standardStream then IO.print text else IO.FS.writeFile name text

def perform (invocation : Invocation) (text : String) : IO UInt32 := do
  let exit := invocation.exit text
  IO.eprint exit.errors
  if exit.code = 0 then writeOutput invocation.output exit.output
  return exit.code

end MissionGraph.CommandLine

open MissionGraph.CommandLine in
def main (words : List String) : IO UInt32 := do
  match Invocation.ofWords? words with
  | none =>
      IO.eprintln "usage: compile|decompile|run -f FILE [options]"
      return Exit.usage.code
  | some invocation =>
      let text ← try readInput invocation.file catch failure => do
        IO.eprintln ("error: " ++ failure.toString)
        return Exit.usage.code
      perform invocation text
