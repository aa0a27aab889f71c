import ScriptLang.Machine

/-!
# Sessions

A session runs one program after another on the machine. The symbols and constants of a program and the
globals that it leaves are there for the next one. A program that cannot be compiled leaves nothing; one
that fails while it runs leaves its symbols and what it has stored so far.
-/

namespace ScriptLang

/-- What programs leave for the programs after them. -/
structure Session where
  compiler : Compiler := .initial
  globals : Globals := Vector.replicate _ .null
  /-- The identity of the next closure. -/
  nextIdentity : Nat := 0

namespace Session

/-- The machine that is about to run a program, or the reason why there is none. -/
def load (session : Session) (program : Program) : Except CompileError Machine × Session :=
  match session.compiler.compile program with
  | (.ok bytecode, compiler) =>
    (.ok { bytecode, globals := session.globals, nextIdentity := session.nextIdentity },
      { session with compiler })
  | (.error e, compiler) => (.error e, { session with compiler })

/-- Takes over what a machine leaves. -/
def keep (session : Session) (m : Machine) : Session :=
  { session with globals := m.globals, nextIdentity := m.nextIdentity }

/-- Runs a program. Gives the end of the run and the machine as it stands there. -/
def run [StringHash] (session : Session) (program : Program) :
    Except CompileError (Ending × Machine) × Session :=
  match session.load program with
  | (.error e, session) => (.error e, session)
  | (.ok m, session) => (.ok m.run, session.keep m.run.2)

end Session

end ScriptLang
