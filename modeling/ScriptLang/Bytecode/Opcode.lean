/-!
# Opcodes

The operations of the machine. Each has a byte, a name and operands of one or two bytes.
-/

namespace ScriptLang

/-- The operations of the machine. -/
inductive Opcode where
  | constant
  | add
  | pop
  | sub
  | mul
  | div
  | true
  | false
  | equal
  | notEqual
  | greaterThan
  | minus
  | bang
  | jumpNotTruthy
  | jump
  | null
  | getGlobal
  | setGlobal
  | array
  | hash
  | index
  | call
  | returnValue
  | return
  | getLocal
  | setLocal
  | getBuiltin
  | closure
  | getFree
  | currentClosure
  deriving DecidableEq

/-- The width of an encoded operand. -/
inductive Width where
  | byte
  | word
  deriving DecidableEq

namespace Width

/-- The number of bytes of an operand. -/
def size : Width → Nat
  | .byte => 1
  | .word => 2

/-- The width of a given number of bytes, if there is one. -/
def ofSize? : Nat → Option Width
  | 1 => some .byte
  | 2 => some .word
  | _ => none

/-- The number of operands that fit, which are those below it. -/
def bound : Width → Nat
  | .byte => 256
  | .word => 65536

end Width

/-- Every operation, in the order of their bytes, which count from one. -/
def Opcode.all : List Opcode :=
  [.constant, .add, .pop, .sub, .mul, .div, .true, .false, .equal, .notEqual, .greaterThan, .minus,
    .bang, .jumpNotTruthy, .jump, .null, .getGlobal, .setGlobal, .array, .hash, .index, .call,
    .returnValue, .return, .getLocal, .setLocal, .getBuiltin, .closure, .getFree, .currentClosure]

/-- `Opcode.all` as an array. -/
def Opcode.table : Array Opcode := Opcode.all.toArray

/-- The byte of an operation. -/
def Opcode.toByte : Opcode → UInt8
  | .constant => 1
  | .add => 2
  | .pop => 3
  | .sub => 4
  | .mul => 5
  | .div => 6
  | .true => 7
  | .false => 8
  | .equal => 9
  | .notEqual => 10
  | .greaterThan => 11
  | .minus => 12
  | .bang => 13
  | .jumpNotTruthy => 14
  | .jump => 15
  | .null => 16
  | .getGlobal => 17
  | .setGlobal => 18
  | .array => 19
  | .hash => 20
  | .index => 21
  | .call => 22
  | .returnValue => 23
  | .return => 24
  | .getLocal => 25
  | .setLocal => 26
  | .getBuiltin => 27
  | .closure => 28
  | .getFree => 29
  | .currentClosure => 30

/-- The operation of a byte, if it has one. -/
def Opcode.ofByte? (byte : UInt8) : Option Opcode :=
  if byte = 0 then none else Opcode.table[byte.toNat - 1]?

@[simp] theorem Opcode.ofByte?_toByte (op : Opcode) : Opcode.ofByte? op.toByte = some op := by
  cases op <;> rfl

/-- The name of an operation. -/
def Opcode.name : Opcode → String
  | .constant => "OpConstant"
  | .add => "OpAdd"
  | .pop => "OpPop"
  | .sub => "OpSub"
  | .mul => "OpMul"
  | .div => "OpDiv"
  | .true => "OpTrue"
  | .false => "OpFalse"
  | .equal => "OpEqual"
  | .notEqual => "OpNotEqual"
  | .greaterThan => "OpGreaterThan"
  | .minus => "OpMinus"
  | .bang => "OpBang"
  | .jumpNotTruthy => "OpJumpNotTruthy"
  | .jump => "OpJump"
  | .null => "OpNull"
  | .getGlobal => "OpGetGlobal"
  | .setGlobal => "OpSetGlobal"
  | .array => "OpArray"
  | .hash => "OpHash"
  | .index => "OpIndex"
  | .call => "OpCall"
  | .returnValue => "OpReturnValue"
  | .return => "OpReturn"
  | .getLocal => "OpGetLocal"
  | .setLocal => "OpSetLocal"
  | .getBuiltin => "OpGetBuiltin"
  | .closure => "OpClosure"
  | .getFree => "OpGetFree"
  | .currentClosure => "OpCurrentClosure"

/-- The widths of the operands of an operation. -/
def Opcode.widths : Opcode → List Width
  | .constant | .jumpNotTruthy | .jump | .getGlobal | .setGlobal | .array | .hash => [.word]
  | .call | .getLocal | .setLocal | .getBuiltin | .getFree => [.byte]
  | .closure => [.word, .byte]
  | _ => []

/-- The length of an encoded instruction, its first byte included. -/
def Opcode.length (op : Opcode) : Nat := op.widths.foldl (fun length width => length + width.size) 1

end ScriptLang
