import ScriptLang.Bytecode.Code

/-!
# Code under construction

`Emitter` is the code of one function while it is being written. It remembers its last two instructions,
because the last one may have to be taken back or turned into another. After a `pop` is taken back only
the instruction before it is known.
-/

namespace ScriptLang

/-- An instruction that has been written, by its operation and the offset of its first byte. -/
structure Emitted where
  opcode : Opcode
  position : Nat

/-- The code of one function while it is being written. -/
structure Emitter where
  code : Code := #[]
  /-- The last instruction. -/
  last? : Option Emitted := none
  /-- The instruction that was last before the latest one was written. -/
  previous? : Option Emitted := none

namespace Emitter

/-- Where the next instruction will stand. -/
def position (e : Emitter) : Nat := e.code.size

/-- Writes an instruction behind the others. -/
def append : Emitter → Instruction → Emitter
  | ⟨code, last?, _⟩, i =>
    let position := code.size
    ⟨code.appendList i.encode, some ⟨i.opcode, position⟩, last?⟩

/-- Overwrites the instruction at a position. -/
def patch (e : Emitter) (position : Nat) (i : Instruction) : Emitter :=
  { e with code := e.code.write position i.encode }

/-- Whether the last instruction is of a certain operation. -/
def endsWith (e : Emitter) (op : Opcode) : Bool := e.last?.any (·.opcode = op)

/-- Takes the last instruction back. -/
def removeLast (e : Emitter) : Emitter :=
  match e.last? with
  | none => e
  | some last => { e with code := e.code.truncate last.position, last? := e.previous? }

/-- Makes the last instruction return its value. -/
def returnLast (e : Emitter) : Emitter :=
  match e.last? with
  | none => e
  | some last =>
    { e with
      code := e.code.write last.position Instruction.returnValue.encode
      last? := some ⟨.returnValue, last.position⟩ }

end Emitter

end ScriptLang
