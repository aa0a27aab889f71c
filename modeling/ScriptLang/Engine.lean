import ScriptLang.Session
import ScriptLang.Evaluator

/-!
# Engines

A program can be evaluated on its tree, or compiled and run on the machine. `Engine.State` is what
either engine keeps from one program to the next, and `Engine.State.run` is one program on it.
-/

namespace ScriptLang

/-- The ways to run a program. -/
inductive Engine where
  | eval
  | vm
  deriving DecidableEq

/-- Why a program yields no value. -/
inductive Failure where
  | compile (e : CompileError)
  | runtime (e : RuntimeError)
  /-- The machine stops although the program is not at fault. No compiled program brings that about. -/
  | halted
  deriving DecidableEq

/-- The text of a failure. -/
def Failure.message : Failure → String
  | .compile e => e.message
  | .runtime e => e.message
  | .halted => "machine halted"

namespace Engine

/-- Every engine. -/
def all : List Engine := [.eval, .vm]

/-- The name of an engine. -/
def name : Engine → String
  | .eval => "eval"
  | .vm => "vm"

/-- The engine with a given name. -/
def ofName? (name : String) : Option Engine := all.find? (·.name = name)

/-- The complaint about a name that no engine has. -/
def unknownMessage (name : String) : String :=
  "Unknown engine '" ++ name ++ "', expected one of: " ++ ", ".intercalate (all.map Engine.name)

/-- What an engine keeps from one program to the next. -/
inductive State where
  | eval (evaluator : Evaluator)
  | vm (session : Session)

/-- What an engine starts with. -/
def start : Engine → State
  | .eval => .eval {}
  | .vm => .vm {}

/-- What a program comes to: what it prints, and its value. -/
structure Answer where
  output : Output
  result : Except Failure Value

/-- What a run of the machine comes to. Its value is the last one that was popped. -/
def answerOf : Ending × Machine → Answer
  | (.finished, m) => ⟨m.output, .ok m.lastPopped⟩
  | (.failed e, m) => ⟨m.output, .error (.runtime e)⟩
  | (_, m) => ⟨m.output, .error .halted⟩

/-- Runs a program. An evaluation that fails yields an error value. -/
def State.run [StringHash] (program : Program) : State → Answer × State
  | .eval evaluator =>
    let (v, evaluator) := Evaluator.evaluate program { evaluator with output := #[] }
    (⟨evaluator.output, .ok v⟩, .eval evaluator)
  | .vm session =>
    match session.run program with
    | (.ok outcome, session) => (answerOf outcome, .vm session)
    | (.error e, session) => (⟨#[], .error (.compile e)⟩, .vm session)

end Engine

end ScriptLang
