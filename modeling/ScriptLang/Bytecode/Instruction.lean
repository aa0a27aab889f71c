import ScriptLang.Bytecode.Opcode

/-!
# Instructions and their encoding

An instruction is an operation with its operands. `Instruction.encode` writes its bytes, the operands
in big-endian order and cut to their widths; `Instruction.overflow?` tells which operand is too large
for that. `decode` reads the instruction at an offset back.
-/

namespace ScriptLang

/-- An operation with its operands. -/
inductive Instruction where
  /-- Pushes a constant. -/
  | constant (index : Nat)
  | add
  | pop
  | sub
  | mul
  | div
  | true
  | false
  | equal
  | notEqual
  | greaterThan
  | minus
  | bang
  | jumpNotTruthy (target : Nat)
  | jump (target : Nat)
  | null
  | getGlobal (index : Nat)
  | setGlobal (index : Nat)
  /-- Collects the topmost values into an array. -/
  | array (length : Nat)
  /-- Collects the topmost values, keys and values in turn, into a hash. -/
  | hash (length : Nat)
  | index
  /-- Calls what lies below the arguments. -/
  | call (numArguments : Nat)
  | returnValue
  | return
  | getLocal (index : Nat)
  | setLocal (index : Nat)
  | getBuiltin (index : Nat)
  /-- Makes a closure of a function among the constants and of the topmost values. -/
  | closure (index : Nat) (numFree : Nat)
  | getFree (index : Nat)
  | currentClosure
  deriving DecidableEq

namespace Instruction

/-- The operation of an instruction. -/
def opcode : Instruction → Opcode
  | .constant _ => .constant
  | .add => .add
  | .pop => .pop
  | .sub => .sub
  | .mul => .mul
  | .div => .div
  | .true => .true
  | .false => .false
  | .equal => .equal
  | .notEqual => .notEqual
  | .greaterThan => .greaterThan
  | .minus => .minus
  | .bang => .bang
  | .jumpNotTruthy _ => .jumpNotTruthy
  | .jump _ => .jump
  | .null => .null
  | .getGlobal _ => .getGlobal
  | .setGlobal _ => .setGlobal
  | .array _ => .array
  | .hash _ => .hash
  | .index => .index
  | .call _ => .call
  | .returnValue => .returnValue
  | .return => .return
  | .getLocal _ => .getLocal
  | .setLocal _ => .setLocal
  | .getBuiltin _ => .getBuiltin
  | .closure _ _ => .closure
  | .getFree _ => .getFree
  | .currentClosure => .currentClosure

/-- The operands of an instruction. -/
def operands : Instruction → List Nat
  | .constant i | .jumpNotTruthy i | .jump i | .getGlobal i | .setGlobal i | .array i | .hash i
  | .call i | .getLocal i | .setLocal i | .getBuiltin i | .getFree i => [i]
  | .closure i n => [i, n]
  | _ => []

/-- The instruction of an operation and operands, if their number is right. -/
def of? : Opcode → List Nat → Option Instruction
  | .constant, [i] => some (.constant i)
  | .add, [] => some .add
  | .pop, [] => some .pop
  | .sub, [] => some .sub
  | .mul, [] => some .mul
  | .div, [] => some .div
  | .true, [] => some .true
  | .false, [] => some .false
  | .equal, [] => some .equal
  | .notEqual, [] => some .notEqual
  | .greaterThan, [] => some .greaterThan
  | .minus, [] => some .minus
  | .bang, [] => some .bang
  | .jumpNotTruthy, [i] => some (.jumpNotTruthy i)
  | .jump, [i] => some (.jump i)
  | .null, [] => some .null
  | .getGlobal, [i] => some (.getGlobal i)
  | .setGlobal, [i] => some (.setGlobal i)
  | .array, [i] => some (.array i)
  | .hash, [i] => some (.hash i)
  | .index, [] => some .index
  | .call, [i] => some (.call i)
  | .returnValue, [] => some .returnValue
  | .return, [] => some .return
  | .getLocal, [i] => some (.getLocal i)
  | .setLocal, [i] => some (.setLocal i)
  | .getBuiltin, [i] => some (.getBuiltin i)
  | .closure, [i, n] => some (.closure i n)
  | .getFree, [i] => some (.getFree i)
  | .currentClosure, [] => some .currentClosure
  | _, _ => none

@[simp] theorem of?_opcode_operands (i : Instruction) : of? i.opcode i.operands = some i := by
  cases i <;> rfl

theorem length_operands (i : Instruction) : i.operands.length = i.opcode.widths.length := by
  cases i <;> rfl

end Instruction

/-! ### Encoding -/

/-- The bytes of an operand, cut to its width, the most significant one first. -/
def Width.encode : Width → Nat → List UInt8
  | .byte, operand => [UInt8.ofNat operand]
  | .word, operand => [UInt8.ofNat (operand / 256), UInt8.ofNat operand]

/-- The bytes of some operands. -/
def encodeOperands : List Width → List Nat → List UInt8
  | width :: widths, operand :: operands => width.encode operand ++ encodeOperands widths operands
  | _, _ => []

namespace Instruction

/-- The bytes of an instruction. -/
def encode (i : Instruction) : List UInt8 :=
  i.opcode.toByte :: encodeOperands i.opcode.widths i.operands

/-- The first operand that does not fit its width, with that width. -/
def overflow? (i : Instruction) : Option (Nat × Width) :=
  (i.operands.zip i.opcode.widths).find? fun (operand, width) => width.bound ≤ operand

end Instruction

/-! ### Decoding -/

/-- The operand of a given width at an offset, unless the bytes end before. -/
def Width.decode? (code : Array UInt8) (offset : Nat) : Width → Option Nat
  | .byte => do
    let byte ← code[offset]?
    return byte.toNat
  | .word => do
    let high ← code[offset]?
    let low ← code[offset + 1]?
    return 256 * high.toNat + low.toNat

/-- The operands of given widths from an offset on, and the offset behind them, unless the bytes end
before. -/
def decodeOperands? (code : Array UInt8) (offset : Nat) : List Width → Option (List Nat × Nat)
  | [] => some ([], offset)
  | width :: widths => do
    let operand ← width.decode? code offset
    let (operands, next) ← decodeOperands? code (offset + width.size) widths
    return (operand :: operands, next)

/-- What stands at an offset of some code. -/
inductive Decoded where
  /-- An instruction, and the offset behind it. -/
  | instruction (i : Instruction) (next : Nat)
  /-- A byte that is no operation. -/
  | unknown (byte : UInt8)
  /-- An operation whose operands are cut off by the end of the code. -/
  | truncated
  /-- The code ends there, or before. -/
  | finished

/-- What stands at an offset of some code. -/
def decode (code : Array UInt8) (offset : Nat) : Decoded :=
  match code[offset]? with
  | none => .finished
  | some byte =>
    match Opcode.ofByte? byte with
    | none => .unknown byte
    | some op =>
      match decodeOperands? code (offset + 1) op.widths with
      | none => .truncated
      | some (operands, next) =>
        match Instruction.of? op operands with
        | none => .truncated
        | some i => .instruction i next

end ScriptLang
