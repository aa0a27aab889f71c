import ScriptLang.CommandLine.Report

/-!
# Timing an engine

The command that computes a Fibonacci number by recursion and tells how long it took. Its argument is a
decimal number of at most 32 bits, which may follow a plus sign.
-/

namespace ScriptLang.Benchmark

/-- Why a text is no argument of the command. -/
inductive NumberError where
  | empty
  | invalidDigit
  | tooLarge
  deriving DecidableEq

/-- The text of a number error. -/
def NumberError.message : NumberError → String
  | .empty => "cannot parse integer from empty string"
  | .invalidDigit => "invalid digit found in string"
  | .tooLarge => "number too large to fit in target type"

/-- The number that some digits stand for, behind others that stand for `value`. Fails at the first
character that is no digit or that makes the number too large. -/
def number (value : Nat) : List Char → Except NumberError Nat
  | [] => .ok value
  | c :: cs =>
    if !c.isDigit then .error .invalidDigit
    else
      let next := 10 * value + (c.toNat - '0'.toNat)
      if next < 2 ^ 32 then number next cs else .error .tooLarge

/-- The number that an argument stands for. -/
def numberOfText (text : String) : Except NumberError Nat :=
  match text.toList with
  | [] => .error .empty
  | ['+'] => .error .invalidDigit
  | '+' :: digits => number 0 digits
  | digits => number 0 digits

/-- The source of the program for a number. -/
def source (n : Nat) : String :=
  "\n".intercalate
    ["let fibonacci = fn(x) \x7b",
      "  if (x == 0) \x7b",
      "    0",
      "  \x7d else \x7b",
      "    if (x == 1) \x7b",
      "      return 1;",
      "    \x7d else \x7b",
      "      fibonacci(x - 1) + fibonacci(x - 2);",
      "    \x7d",
      "  \x7d",
      "\x7d;",
      "fibonacci(" ++ toString n ++ ");"]

/-- The program for an argument. -/
def program (argument : String) : Except Report Program := do
  let n ← (numberOfText argument).mapError fun e =>
    .causing "Input must be a non-negative integer" ⟨e.message, []⟩
  (Program.ofSource (source n)).mapError SourceError.report

/-- The line that tells the result. -/
def resultLine (engine : Engine) (duration : String) (v : Value) : String :=
  "engine=" ++ engine.name ++ ", result=" ++ v.text ++ ", duration=" ++ duration ++ "\n"

/-- What the command prints for an answer that took some time to compute. -/
def transcript (engine : Engine) (duration : String) (answer : Engine.Answer) : Transcript :=
  .ofResult answer.output.text (answer.value.map (resultLine engine duration))

/-- The whole command, given the text for the time that it takes. -/
def run (engine : Engine) (argument duration : String) : Transcript :=
  match program argument with
  | .error r => .ofResult "" (.error r)
  | .ok program => transcript engine duration (engine.start.run program).1

end ScriptLang.Benchmark
