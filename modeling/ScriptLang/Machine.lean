import ScriptLang.Value.Element
import ScriptLang.Value.Equality
import ScriptLang.Compiler

/-!
# The machine

A stack machine for bytecode. The stack has a fixed number of slots, of which those below `Machine.top`
hold values in use; the slots above keep what was left in them. Each call has a frame, whose base is
where its arguments and locals begin.

`Machine.step` executes one instruction and stops with a fault if it cannot. A runtime error leaves the
machine behind the failing instruction, so that it can go on. Code that refers to what does not exist is
malformed; the compiler writes none.
-/

namespace ScriptLang

/-- The number of slots of the stack. -/
abbrev stackSize : Nat := 2048

/-- The number of globals. -/
abbrev numGlobals : Nat := 65536

/-- The number of frames that may be in use at a time. -/
def maxFrames : Nat := 1024

/-- The bound of the numbers that a slot may have. -/
def slotBound : Nat := UInt64.size

/-! ### Faults -/

/-- Why a program stops. -/
inductive RuntimeError where
  | stackOverflow
  | stackUnderflow
  | frameOverflow
  | wrongArgumentCount (want got : Nat)
  | notCallable (kind : Kind)
  | unsupportedBinaryTypes (left right : Kind)
  | unknownOperator (operator : Opcode) (left right : Kind)
  | unsupportedNegation (kind : Kind)
  | unusableHashKey (kind : Kind)
  | indexNotSupported (kind : Kind)
  | divisionByZero
  /-- A closure is to be made of something that is no function. -/
  | notAFunction (kind : Kind)
  | unknownOpcode (byte : UInt8)
  | noFreeVariable (index : Nat)
  /-- The main program asks for the closure that it is executing. -/
  | noCurrentClosure
  deriving DecidableEq

/-- The text of a runtime error. -/
def RuntimeError.message : RuntimeError → String
  | .stackOverflow => "stack overflow"
  | .stackUnderflow => "stack underflow"
  | .frameOverflow => "frame overflow: call depth exceeded " ++ toString maxFrames
  | .wrongArgumentCount want got =>
    "wrong number of arguments: want=" ++ toString want ++ ", got=" ++ toString got
  | .notCallable kind => "calling non-function and non-built-in: " ++ kind.name
  | .unsupportedBinaryTypes left right =>
    "unsupported types for binary operation: " ++ left.name ++ " " ++ right.name
  | .unknownOperator operator left right =>
    "unknown operator: " ++ operator.name ++ " (" ++ left.name ++ " " ++ right.name ++ ")"
  | .unsupportedNegation kind => "unsupported type for negation: " ++ kind.name
  | .unusableHashKey kind => "unusable as hash key: " ++ kind.name
  | .indexNotSupported kind => "index operator not supported: " ++ kind.name
  | .divisionByZero => "division by zero"
  | .notAFunction kind => "not a function: " ++ kind.name
  | .unknownOpcode byte => "unknown opcode: " ++ toString byte.toNat
  | .noFreeVariable index => "No free variable " ++ toString index ++ " in the current frame"
  | .noCurrentClosure => "No closure is executing in the main program"

/-- What code may refer to although it does not exist. -/
inductive Malformed where
  /-- A constant outside the pool. -/
  | constant
  /-- Operands that are cut off by the end of the code. -/
  | operand
  /-- A built-in function without a number. -/
  | builtin
  /-- A local slot outside the stack. -/
  | localSlot
  /-- A function with fewer local slots than parameters, or with so many that they have no numbers. -/
  | function
  deriving DecidableEq

/-- Why the machine stops in the middle of a program. -/
inductive Fault where
  | error (e : RuntimeError)
  | malformed (cause : Malformed)
  deriving DecidableEq

/-! ### States -/

/-- A closure as the machine executes it. -/
structure Closure where
  identity : Nat
  function : CompiledFunction
  free : List Value

/-- A closure as a value. -/
def Closure.toValue (c : Closure) : Value := .closure c.identity c.function c.free

/-- One running call, or the main program. -/
structure Frame where
  /-- What is executed, if it is not the main program. -/
  closure? : Option Closure := none
  /-- The offset of the next instruction. -/
  ip : Nat := 0
  /-- The slot of the first argument or local. -/
  base : Nat := 0

/-- The values of the global definitions. -/
abbrev Globals := Vector Value numGlobals

/-- Globals of which the first ones are given. -/
def Globals.ofList (values : List Value) : Globals :=
  values.zipIdx.foldl (fun globals (v, i) => globals.setIfInBounds i v) (Vector.replicate _ .null)

/-- A machine at work. -/
structure Machine where
  bytecode : Bytecode
  stack : Vector Value stackSize := Vector.replicate _ .null
  /-- How many slots are in use. -/
  top : Nat := 0
  globals : Globals := Vector.replicate _ .null
  /-- The frame of the running call. -/
  frame : Frame := {}
  /-- The frames of the calls around it, the main program last. -/
  callers : List Frame := []
  output : Output := #[]
  /-- The identity of the next closure. -/
  nextIdentity : Nat := 0

/-- Steps of the machine. -/
abbrev MachineM := EStateM Fault Machine

namespace Machine

/-- The code of the running call. -/
def code (m : Machine) : Code :=
  match m.frame.closure? with
  | some closure => closure.function.code
  | none => m.bytecode.code

/-- The topmost value, if the stack is not empty. -/
def stackTop? (m : Machine) : Option Value := if m.top = 0 then none else m.stack[m.top - 1]?

/-- What stands in the first slot that is not in use. There the result of the last expression statement
was left. -/
def lastPopped (m : Machine) : Value := m.stack[m.top]?.getD .null

end Machine

namespace MachineM

variable [StringHash]

/-- Stops with a runtime error. -/
def fail {α : Type} (e : RuntimeError) : MachineM α := throw (.error e)

/-- Goes on at an offset of the running code. -/
def jump (offset : Nat) : MachineM Unit :=
  modify fun m => { m with frame := { m.frame with ip := offset } }

/-- Puts a value on the stack. -/
def push (v : Value) : MachineM Unit := do
  let m ← get
  if h : m.top < stackSize then
    set { m with stack := m.stack.set m.top v h, top := m.top + 1 }
  else
    fail .stackOverflow

/-- Takes the topmost value off the stack. Its slot keeps it. -/
def pop : MachineM Value := do
  let m ← get
  if m.top = 0 then
    fail .stackUnderflow
  else
    set { m with top := m.top - 1 }
    return m.stack[m.top - 1]?.getD .null

/-- The values of `n` slots from `start` on, in front of those of `acc`. -/
def slots (stack : Vector Value stackSize) (start : Nat) : Nat → List Value → List Value
  | 0, acc => acc
  | n + 1, acc => slots stack start n (stack[start + n]?.getD .null :: acc)

/-- Takes the `n` topmost values off the stack, the topmost one last. -/
def popMany (n : Nat) : MachineM (List Value) := do
  let m ← get
  if m.top < n then
    fail .stackUnderflow
  else
    set { m with top := m.top - n }
    return slots m.stack (m.top - n) n []

/-! ### Operators -/

/-- The result of an arithmetic operation on integers, which wraps around. -/
def integerResult (op : Opcode) (l r : Int64) : MachineM Value :=
  match op with
  | .add => return .integer (l + r)
  | .sub => return .integer (l - r)
  | .mul => return .integer (l * r)
  | .div => if r = 0 then fail .divisionByZero else return .integer (l / r)
  | _ => fail (.unknownOperator op .integer .integer)

/-- Replaces two values by the result of an arithmetic operation, or of joining two strings. -/
def arithmetic (op : Opcode) : MachineM Unit := do
  let right ← pop
  let left ← pop
  match left, right with
  | .integer l, .integer r => push (← integerResult op l r)
  | .string l, .string r =>
    if op = .add then push (.string (l ++ r)) else fail (.unknownOperator op .string .string)
  | _, _ => fail (.unsupportedBinaryTypes left.kind right.kind)

/-- Replaces two values by the result of comparing them. -/
def compare (op : Opcode) : MachineM Unit := do
  let right ← pop
  let left ← pop
  match op, left, right with
  | .greaterThan, .integer l, .integer r => push (.boolean (decide (r < l)))
  | .equal, _, _ => push (.boolean (left == right))
  | .notEqual, _, _ => push (.boolean (left != right))
  | _, _, _ => fail (.unknownOperator op left.kind right.kind)

/-- The element of an array or a hash. -/
def element (collection key : Value) : MachineM Value :=
  match collection.element key with
  | .ok v => return v
  | .error (.unusableHashKey kind) => fail (.unusableHashKey kind)
  | .error (.indexNotSupported kind) => fail (.indexNotSupported kind)

/-- Pairs up keys and values that stand in turn. -/
def pairUp : List Value → List (Value × Value)
  | key :: value :: rest => (key, value) :: pairUp rest
  | _ => []

/-- The hash of keys and values that stand in turn. -/
def buildHash (items : List Value) : MachineM Value :=
  match Value.hashOfPairs [] (pairUp items) with
  | .ok hash => return hash
  | .error key => fail (.unusableHashKey key.kind)

/-! ### Calls -/

/-- Empties `n` slots from `start` on. -/
def clear (start : Nat) : Nat → Vector Value stackSize → Vector Value stackSize
  | 0, stack => stack
  | n + 1, stack => clear start n (stack.setIfInBounds (start + n) .null)

/-- Calls a closure. Its arguments become its first locals, the other locals start empty. -/
def callClosure (closure : Closure) (numArguments : Nat) : MachineM Unit := do
  let function := closure.function
  if numArguments ≠ function.numParameters then
    fail (.wrongArgumentCount function.numParameters numArguments)
  let m ← get
  if maxFrames ≤ m.callers.length + 1 then
    fail .frameOverflow
  let base := m.top - numArguments
  let top := base + function.numLocals
  if slotBound ≤ top then
    throw (.malformed .function)
  if stackSize < top then
    fail .stackOverflow
  if top < m.top then
    throw (.malformed .function)
  set { m with
    stack := clear m.top (top - m.top) m.stack
    top
    frame := { closure? := some closure, base }
    callers := m.frame :: m.callers }

/-- Calls a built-in function. -/
def callBuiltin (b : Builtin) (numArguments : Nat) : MachineM Unit := do
  let arguments ← popMany numArguments
  modify fun m => { m with top := m.top - 1 }
  push (b.result arguments)
  modify fun m => { m with output := b.print arguments m.output }

/-- Calls what lies below the arguments. -/
def call (numArguments : Nat) : MachineM Unit := do
  let m ← get
  if m.top ≤ numArguments then
    fail .stackUnderflow
  match m.stack[m.top - 1 - numArguments]?.getD .null with
  | .closure identity function free => callClosure ⟨identity, function, free⟩ numArguments
  | .builtin b => callBuiltin b numArguments
  | other => fail (.notCallable other.kind)

/-- Ends the running call with a result. In the main program the result is left as the last value that
was popped, and nothing more is executed. -/
def returnWith (v : Value) : MachineM Unit := do
  let m ← get
  match m.callers with
  | [] =>
    set { m with
      stack := m.stack.setIfInBounds m.top v
      frame := { m.frame with ip := m.code.size } }
  | caller :: callers =>
    set { m with top := m.frame.base - 1, frame := caller, callers }
    push v

/-- Makes a closure of a constant and the topmost values. -/
def pushClosure (index numFree : Nat) : MachineM Unit := do
  let m ← get
  match m.bytecode.constants[index]? with
  | none => throw (.malformed .constant)
  | some (.compiledFunction function) =>
    let free ← popMany numFree
    push (.closure m.nextIdentity function free)
    modify fun m => { m with nextIdentity := m.nextIdentity + 1 }
  | some other => fail (.notAFunction other.kind)

/-! ### Instructions -/

/-- Executes one instruction. -/
def execute : Instruction → MachineM Unit
  | .constant index => do
    match (← get).bytecode.constants[index]? with
    | some v => push v
    | none => throw (.malformed .constant)
  | .pop => discard pop
  | .add => arithmetic .add
  | .sub => arithmetic .sub
  | .mul => arithmetic .mul
  | .div => arithmetic .div
  | .equal => compare .equal
  | .notEqual => compare .notEqual
  | .greaterThan => compare .greaterThan
  | .bang => do
    let operand ← pop
    push (.boolean (!operand.isTruthy))
  | .minus => do
    match ← pop with
    | .integer value => push (.integer (-value))
    | other => fail (.unsupportedNegation other.kind)
  | .true => push (.boolean true)
  | .false => push (.boolean false)
  | .null => push .null
  | .jump target => jump target
  | .jumpNotTruthy target => do
    unless (← pop).isTruthy do
      jump target
  | .setGlobal index => do
    let v ← pop
    modify fun m => { m with globals := m.globals.setIfInBounds index v }
  | .getGlobal index => do
    push ((← get).globals[index]?.getD .null)
  | .setLocal index => do
    let v ← pop
    let m ← get
    if h : m.frame.base + index < stackSize then
      set { m with stack := m.stack.set (m.frame.base + index) v h }
    else
      throw (.malformed .localSlot)
  | .getLocal index => do
    let m ← get
    match m.stack[m.frame.base + index]? with
    | some v => push v
    | none => throw (.malformed .localSlot)
  | .getBuiltin index =>
    match Builtin.ofIndex? index with
    | some b => push (.builtin b)
    | none => throw (.malformed .builtin)
  | .getFree index => do
    match (← get).frame.closure? with
    | some closure =>
      match closure.free[index]? with
      | some v => push v
      | none => fail (.noFreeVariable index)
    | none => fail (.noFreeVariable index)
  | .currentClosure => do
    match (← get).frame.closure? with
    | some closure => push closure.toValue
    | none => fail .noCurrentClosure
  | .array length => do
    push (.array (← popMany length))
  | .hash length => do
    let items ← popMany length
    push (← buildHash items)
  | .index => do
    let key ← pop
    let collection ← pop
    push (← element collection key)
  | .call numArguments => call numArguments
  | .returnValue => do
    returnWith (← pop)
  | .return => returnWith .null
  | .closure index numFree => pushClosure index numFree

/-- Executes the next instruction, unless the running code is at its end. Tells whether there was
one. -/
def step : MachineM Bool := do
  let m ← get
  let ip := m.frame.ip
  match decode m.code ip with
  | .finished => return false
  | .unknown byte =>
    jump (ip + 1)
    fail (.unknownOpcode byte)
  | .truncated => throw (.malformed .operand)
  | .instruction i next =>
    jump next
    execute i
    return true

/-- Executes up to `2 ^ k` instructions. Tells whether the end was not reached. -/
def advance : Nat → MachineM Bool
  | 0 => step
  | k + 1 => do
    if ← advance k then advance k else return false

end MachineM

/-! ### Runs -/

/-- How a run ends. -/
inductive Ending where
  | finished
  | failed (e : RuntimeError)
  | malformed (cause : Malformed)
  /-- There was more to execute than the machine grants. -/
  | unfinished
  deriving DecidableEq

namespace Machine

/-- The length of the longest code of a program, its functions included. -/
def longestCode (bytecode : Bytecode) : Nat :=
  bytecode.constants.foldl (fun longest constant =>
    match constant with
    | .compiledFunction function => max longest function.code.size
    | _ => longest) bytecode.code.size

/-- The logarithm of the number of instructions that a run may execute. If no code jumps back, a call
executes each of its instructions at most once, and this is enough for all calls that can happen before
the frames run out. -/
def budget (m : Machine) : Nat := maxFrames * (Nat.log2 (longestCode m.bytecode + 1) + 1) + 1

/-- Runs the machine to the end of its program or to the first fault. -/
def run [StringHash] (m : Machine) : Ending × Machine :=
  match MachineM.advance m.budget m with
  | .ok false m => (.finished, m)
  | .ok true m => (.unfinished, m)
  | .error (.error e) m => (.failed e, m)
  | .error (.malformed cause) m => (.malformed cause, m)

end Machine

end ScriptLang
