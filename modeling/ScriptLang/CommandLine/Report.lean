import ScriptLang.Source
import ScriptLang.Engine
import ScriptLang.Value.SipHash

/-!
# Reports and transcripts

What the commands have in common. A `Report` is a failure with what lies behind it; a `Transcript` is all
that can be seen of a command from outside.
-/

namespace ScriptLang

/-- A failure as the user is told of it. -/
structure Report where
  message : String
  /-- What lies behind it, each the cause of the one in front. -/
  causes : List String := []
  deriving DecidableEq

namespace Report

/-- Makes a failure the cause of another. -/
def causing (message : String) (cause : Report) : Report := ⟨message, cause.message :: cause.causes⟩

/-- A text whose first line follows `first` and whose other lines follow `other`. -/
def indented (first other text : String) : String :=
  first ++ ("\n" ++ other).intercalate (text.splitOn "\n")

/-- The paragraph of the causes. They are numbered unless there is only one. -/
def causesText : List String → String
  | [] => ""
  | [cause] => "\n\nCaused by:\n" ++ indented "    " "    " cause
  | causes =>
    "\n\nCaused by:\n" ++ "\n".intercalate
      (causes.mapIdx fun i cause => indented ("    " ++ toString i ++ ": ") "       " cause)

/-- The text of a report. -/
def text (r : Report) : String := "Error: " ++ r.message ++ causesText r.causes ++ "\n"

end Report

/-- All that can be seen of a command. -/
structure Transcript where
  exitCode : UInt32 := 0
  stdout : String := ""
  stderr : String := ""
  deriving DecidableEq

/-- A command that printed something and went well, or failed. -/
def Transcript.ofResult (printed : String) : Except Report String → Transcript
  | .ok text => { stdout := printed ++ text }
  | .error r => { exitCode := 1, stdout := printed, stderr := r.text }

/-- The report of an error in a source. -/
def SourceError.report (e : SourceError) : Report :=
  .causing "Parser error" ⟨e.message, e.causes⟩

/-- The report of a failure. -/
def Failure.report : Failure → Report
  | .compile e => .causing "Compiler error" ⟨e.message, []⟩
  | .runtime e => .causing "Runtime error" ⟨e.message, []⟩
  | .halted => .causing "Runtime error" ⟨Failure.halted.message, []⟩

/-- The value of a program, unless it failed or its value is an error. -/
def Engine.Answer.value (answer : Engine.Answer) : Except Report Value :=
  match answer.result with
  | .error failure => .error failure.report
  | .ok (.error message) => .error ⟨"Evaluation error: " ++ message, []⟩
  | .ok v => .ok v

end ScriptLang
