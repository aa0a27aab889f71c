import ScriptLang.CommandLine.Report

/-!
# Running a script

The command that runs a file and prints the value of its program, unless that is `null`.
-/

namespace ScriptLang.Script

/-- The program in a file, given its bytes if it exists. -/
def program (path : String) (contents : Option ByteArray) : Except Report Program := do
  let unreadable (cause : String) : Report :=
    .causing ("Failed to read file: " ++ path) ⟨cause, []⟩
  match contents with
  | none => throw (unreadable "No such file or directory (os error 2)")
  | some bytes =>
    match String.fromUTF8? bytes with
    | none => throw (unreadable "stream did not contain valid UTF-8")
    | some source => (Program.ofSource source).mapError SourceError.report

/-- The line that shows the value of a program. -/
def valueLine : Value → String
  | .null => ""
  | v => v.text ++ "\n"

/-- Runs the script in a file, given its bytes if it exists. -/
def run (engine : Engine) (path : String) (contents : Option ByteArray) : Transcript :=
  match program path contents with
  | .error r => .ofResult "" (.error r)
  | .ok program =>
    let answer := (engine.start.run program).1
    .ofResult answer.output.text (answer.value.map valueLine)

end ScriptLang.Script
