import ScriptLang.CommandLine.Script
import ScriptLang.CommandLine.Repl
import ScriptLang.CommandLine.Benchmark

/-!
# The command line

`script [--engine ENGINE] FILE`, `repl [--engine ENGINE]` and
`benchmark [--engine ENGINE] [--input N]`. Only reading, printing and the clock are here.
-/

namespace ScriptLang.CommandLine

/-- Arguments of a command: the options that were given, and the file. -/
structure Arguments where
  engine : Engine
  input : String := "25"
  file : Option String := none

/-- Reads arguments, the first one first. -/
def Arguments.read (arguments : Arguments) : List String → Except String Arguments
  | [] => .ok arguments
  | "--engine" :: name :: rest =>
    match Engine.ofName? name with
    | some engine => { arguments with engine }.read rest
    | none => .error (Engine.unknownMessage name)
  | "--input" :: input :: rest => { arguments with input }.read rest
  | file :: rest => { arguments with file := some file }.read rest

/-- Prints what a command has to show and gives its exit code. -/
def present (t : Transcript) : IO UInt32 := do
  (← IO.getStdout).putStr t.stdout
  (← IO.getStderr).putStr t.stderr
  return t.exitCode

/-- The bytes of a file, if it can be read. -/
def contents (path : String) : IO (Option ByteArray) := do
  try
    return some (← IO.FS.readBinFile path)
  catch _ =>
    return none

/-- Answers lines of the standard input up to its end. -/
partial def interact (state : Engine.State) : IO UInt32 := do
  let line ← (← IO.getStdin).getLine
  if line.isEmpty || Repl.isExit line then
    return 0
  let (reply, state) := Repl.answer line state
  discard (present { stdout := reply.stdout, stderr := reply.stderr })
  (← IO.getStdout).flush
  interact state

/-- Times a program. -/
def measure (engine : Engine) (program : Program) : IO Transcript := do
  let start ← IO.monoMsNow
  let answer ← IO.lazyPure fun _ => (engine.start.run program).1
  let stop ← IO.monoMsNow
  return Benchmark.transcript engine (toString (stop - start) ++ "ms") answer

/-- Runs the command with the arguments behind its name. -/
def command (name : String) (arguments : List String) : IO UInt32 := do
  let engine : Engine := if name == "benchmark" then .eval else .vm
  match Arguments.read { engine } arguments with
  | .error message =>
    present { exitCode := 2, stderr := "error: " ++ message ++ "\n" }
  | .ok arguments =>
    match name, arguments.file with
    | "script", some file => present (Script.run arguments.engine file (← contents file))
    | "repl", none =>
      discard (present { stdout := Repl.banner arguments.engine })
      interact arguments.engine.start
    | "benchmark", none =>
      match Benchmark.program arguments.input with
      | .error r => present (.ofResult "" (.error r))
      | .ok program => present (← measure arguments.engine program)
    | _, _ => present { exitCode := 2, stderr := "error: expected script FILE, repl or benchmark\n" }

end ScriptLang.CommandLine

/-- The program. -/
def main (arguments : List String) : IO UInt32 :=
  match arguments with
  | [] => ScriptLang.CommandLine.command "" []
  | name :: rest => ScriptLang.CommandLine.command name rest
