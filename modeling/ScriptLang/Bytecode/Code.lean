import ScriptLang.Bytecode.Instruction

/-!
# Code

A stream of encoded instructions. Positions are offsets of bytes. `Code.listing?` writes a stream down
with one line for each instruction.
-/

namespace ScriptLang

/-- A stream of encoded instructions. -/
abbrev Code := Array UInt8

namespace Code

/-- The concatenation of some streams. -/
def ofParts (parts : List (List UInt8)) : Code := parts.foldl Array.appendList #[]

/-- Overwrites bytes from an offset on. -/
def write (code : Code) (offset : Nat) : List UInt8 → Code
  | [] => code
  | byte :: bytes => write (code.setIfInBounds offset byte) (offset + 1) bytes

/-- Overwrites bytes from a position on, unless they would reach behind the end. -/
def replace? (code : Code) (position : Nat) (bytes : List UInt8) : Option Code :=
  if position + bytes.length ≤ code.size then some (write code position bytes) else none

/-- The first bytes of a stream. -/
def truncate (code : Code) (length : Nat) : Code := code.shrink length

/-- An offset with at least four digits. -/
def offsetText (offset : Nat) : String :=
  let digits := toString offset
  String.ofList (List.replicate (4 - digits.length) '0') ++ digits

/-- The line of an instruction. -/
def lineText (offset : Nat) (i : Instruction) : String :=
  " ".intercalate (offsetText offset :: i.opcode.name :: i.operands.map toString)

/-- The lines of the code from an offset on, behind those of `acc`, which holds the last one first. A
byte that is no operation has a line of its own. There are none if operands are cut off by the end. -/
def lines? : Nat → Code → Nat → List String → Option (List String)
  | 0, _, _, acc => some acc.reverse
  | n + 1, code, offset, acc =>
    match decode code offset with
    | .finished => some acc.reverse
    | .unknown byte =>
      lines? n code (offset + 1) (("ERROR: unknown opcode " ++ toString byte.toNat) :: acc)
    | .truncated => none
    | .instruction i next => lines? n code next (lineText offset i :: acc)

/-- The lines of some code, unless operands are cut off by the end. -/
def listing? (code : Code) : Option (List String) := lines? code.size code 0 []

end Code

end ScriptLang
