import ScriptLang.CommandLine.Report

/-!
# Reading, evaluating and printing line by line

The interactive command. Each line is a program of its own, and the lines share one engine. A line keeps
its line feed; only a last line without one can say `exit`.
-/

namespace ScriptLang.Repl

/-- What is printed before the first line. -/
def banner (engine : Engine) : String :=
  "\nWelcome to the Monkey programming language REPL!\n"
    ++ "Running on the '" ++ engine.name ++ "' engine.\n"
    ++ "Enter 'exit' or press 'CTRL+C' to exit the REPL.\n    \nNo previous history.\n"

/-- The picture above parse errors. -/
def face : String :=
  "\n".intercalate
    ["",
      "            __,__",
      "   .--.  .-\"     \"-.  .--.",
      "  / .. \\/  .-. .-.  \\/ .. \\",
      " | |  '|  /   Y   \\  |'  | |",
      " | \\   \\  \\ 0 | 0 /  /   / |",
      "  \\ '- ,\\.-\"\"\"\"\"\"\"-./, -' /",
      "   ''-' /_   ^ ^   _\\ '-''",
      "       |  \\._   _./  |",
      "       \\   \\ '~' /   /",
      "        '._ '-=-' _.'",
      "           '-----'",
      ""]

/-- The text that tells of malformed statements. -/
def parseErrorsText (errors : List ParseError) : String :=
  errors.foldl (fun text e => text ++ "\t" ++ e.message ++ "\n")
    (face ++ "\nWoops! We ran into some monkey business here!\n parser errors:\n")

/-- What a line adds to the standard output and to the standard error. -/
structure Reply where
  stdout : String := ""
  stderr : String := ""

/-- Answers a line. -/
def answer (line : String) (state : Engine.State) : Reply × Engine.State :=
  match Program.ofSource line with
  | .error (.malformed errors) => ({ stdout := parseErrorsText errors }, state)
  | .error (.lexical e) => ({ stderr := "Error lexing: " ++ e.message ++ "\n" }, state)
  | .ok program =>
    let (answer, state) := state.run program
    let printed := answer.output.text
    match answer.result with
    | .ok v => ({ stdout := printed ++ v.text ++ "\n" }, state)
    | .error failure =>
      ({ stdout := printed, stderr := "Error: " ++ failure.message ++ "\n" }, state)

/-- Whether a line ends the session. -/
def isExit (line : String) : Bool := line == "exit"

/-- Answers lines up to one that ends the session, behind what was printed before. -/
def answers (printed : Reply) (state : Engine.State) : List String → Reply
  | [] => printed
  | line :: lines =>
    if isExit line then printed
    else
      let (reply, state) := answer line state
      answers ⟨printed.stdout ++ reply.stdout, printed.stderr ++ reply.stderr⟩ state lines

/-- Gives each of some pieces its line feed back, but the last one, which is no line if it is empty. -/
def closeLines : List String → List String
  | [] => []
  | [last] => if last.isEmpty then [] else [last]
  | piece :: rest => (piece ++ "\n") :: closeLines rest

/-- The lines of a text. -/
def linesOf (text : String) : List String := closeLines (text.splitOn "\n")

/-- A whole session, given all that is typed in. -/
def run (engine : Engine) (input : String) : Transcript :=
  let reply := answers { stdout := banner engine } engine.start (linesOf input)
  { stdout := reply.stdout, stderr := reply.stderr }

end ScriptLang.Repl
