import ScriptLang.Syntax.Text
import ScriptLang.Builtin
import ScriptLang.Symbols
import ScriptLang.Bytecode.Emitter

/-!
# From programs to bytecode

The code of an expression leaves one value on the stack, the code of an expression statement takes it
off again. A branch of an `if` keeps the value of its last statement instead, and so does the body of a
function, which returns it.

`Assembly.compile` carries the symbols and the constants from one program to the next. A compilation that
fails stops in the middle, with functions half written, names captured for them and constants added, so
the state from before it is put back. `Compiler` is the part of the state that outlives the compilation of
a program, and `Compiler.compile` is one program between two such states.
-/

namespace ScriptLang

/-! ### Errors -/

/-- Why a program cannot be compiled. -/
inductive CompileError where
  /-- A name is used that stands for nothing there. -/
  | undefinedVariable (name : String)
  /-- An operator has no meaning in its position. -/
  | unknownOperator (operator : Operator)
  /-- An operator never accepts two such literals. -/
  | unsupportedOperands (left : Kind) (operator : Operator) (right : Kind)
  /-- An operand of an instruction is too large to be encoded. -/
  | operandOverflow (opcode : Opcode) (operand : Nat) (width : Width)
  /-- The main program is ended as if it were a function. -/
  | outermostScope
  /-- A function is ended without symbols around it. -/
  | outermostTable
  deriving DecidableEq

/-- The text of a compile error. -/
def CompileError.message : CompileError → String
  | .undefinedVariable name => "identifier not found: " ++ name
  | .unknownOperator operator => "unknown operator: " ++ operator.text
  | .unsupportedOperands left operator right =>
    "unsupported operand types: " ++ left.name ++ " " ++ operator.text ++ " " ++ right.name
  | .operandOverflow opcode operand width =>
    "operand " ++ toString operand ++ " does not fit in " ++ toString width.size ++ " byte(s) of "
      ++ opcode.name
  | .outermostScope => "Attempted to leave the outermost compilation scope!"
  | .outermostTable => "Function scope has no enclosing symbol table"

/-! ### Writing code -/

/-- What the compilation of a program works on. -/
structure Assembly where
  constants : Array Value
  symbols : Symbols
  /-- The code of the innermost function that is being written, or of the main program. -/
  emitter : Emitter := {}
  /-- The code of the functions around it, the main program last. -/
  around : List Emitter := []

/-- Steps of a compilation. A step that fails leaves what it has done so far. -/
abbrev CompileM := EStateM CompileError Assembly

namespace CompileM

/-- Fails unless every operand of an instruction fits its width. -/
def checkOperands (i : Instruction) : CompileM Unit :=
  match i.overflow? with
  | some (operand, width) => throw (.operandOverflow i.opcode operand width)
  | none => return ()

/-- Writes an instruction behind the others. -/
def emit (i : Instruction) : CompileM Unit := do
  checkOperands i
  modify fun a => { a with emitter := a.emitter.append i }

/-- Where the next instruction will stand. -/
def position : CompileM Nat := return (← get).emitter.position

/-- Overwrites the instruction at a position. -/
def patch (position : Nat) (i : Instruction) : CompileM Unit := do
  checkOperands i
  modify fun a => { a with emitter := a.emitter.patch position i }

/-- Adds a constant and gives its index. -/
def addConstant (value : Value) : CompileM Nat :=
  modifyGet fun a => (a.constants.size, { a with constants := a.constants.push value })

/-- Loads a constant. -/
def loadConstant (value : Value) : CompileM Unit := do
  emit (.constant (← addConstant value))

/-- Loads what a symbol stands for. -/
def load (symbol : Symbol) : CompileM Unit :=
  match symbol.place with
  | .global => emit (.getGlobal symbol.index)
  | .local => emit (.getLocal symbol.index)
  | .builtin => emit (.getBuiltin symbol.index)
  | .free => emit (.getFree symbol.index)
  | .function => emit .currentClosure

/-- Loads what a name stands for. -/
def loadName (name : String) : CompileM Unit := do
  let (found, symbols) := (← get).symbols.resolve name
  modify fun a => { a with symbols }
  match found with
  | some symbol => load symbol
  | none => throw (.undefinedVariable name)

/-- Defines a name and stores the topmost value under it. -/
def store (name : String) : CompileM Unit := do
  let symbol := (← get).symbols.definedSymbol name
  modify fun a => { a with symbols := a.symbols.define name }
  match symbol.place with
  | .global => emit (.setGlobal symbol.index)
  | _ => emit (.setLocal symbol.index)

/-- Ends a branch of an `if`, which leaves the value of its last expression statement, or `null` if it
ends with another statement or has none. -/
def endBranch : CompileM Unit := do
  if (← get).emitter.endsWith .pop then
    modify fun a => { a with emitter := a.emitter.removeLast }
  else
    emit .null

/-- Begins the code of a function. -/
def beginFunction (name : Option String) (parameters : List String) : CompileM Unit :=
  modify fun a =>
    let symbols := a.symbols.enter
    let symbols := match name with
      | some name => symbols.defineFunctionName name
      | none => symbols
    { a with
      symbols := parameters.foldl Symbols.define symbols
      emitter := {}
      around := a.emitter :: a.around }

/-- Ends the body of a function, which returns the value of its last expression statement. -/
def endBody : CompileM Unit := do
  if (← get).emitter.endsWith .pop then
    modify fun a => { a with emitter := a.emitter.returnLast }
  unless (← get).emitter.endsWith .returnValue do
    emit .return

/-- Ends the code of a function and goes on with the code and the symbols around it. Gives the code of the
function and its symbols. -/
def endFunction : CompileM (Code × SymbolTable) := do
  let a ← get
  match a.around with
  | [] => throw .outermostScope
  | emitter :: around =>
    set { a with emitter, around }
    match a.symbols.leave? with
    | none => throw .outermostTable
    | some symbols =>
      set { a with emitter, around, symbols }
      return (a.emitter.code, a.symbols.inner)

/-- Makes a closure of a function and of the values that it captures. -/
def loadFunction (code : Code) (table : SymbolTable) (numParameters : Nat) : CompileM Unit := do
  table.captures.forM load
  let index ← addConstant (.compiledFunction ⟨code, table.numDefinitions, numParameters⟩)
  emit (.closure index table.captures.length)

end CompileM

/-! ### Operators -/

/-- The kind of a literal, if an expression is one. -/
def Expr.literalKind? : Expr → Option Kind
  | .integer _ => some .integer
  | .boolean _ => some .boolean
  | .string _ => some .string
  | .array _ => some .array
  | .hash _ => some .hash
  | _ => none

/-- Whether an operator may accept operands of two kinds. -/
def Operator.accepts (left right : Kind) : Operator → Bool
  | .equal | .notEqual => true
  | .plus => left == right && (left == .integer || left == .string)
  | .minus | .asterisk | .slash | .lessThan | .greaterThan => left == .integer && right == .integer
  | .bang => false

/-- Fails if both operands are literals that the operator never accepts. -/
def checkLiteralOperands (left : Expr) (operator : Operator) (right : Expr) : CompileM Unit :=
  match left.literalKind?, right.literalKind? with
  | some l, some r =>
    if operator.accepts l r then return () else throw (.unsupportedOperands l operator r)
  | _, _ => return ()

/-- The instruction of an operator in front of its operand. -/
def Operator.unaryInstruction : Operator → Except CompileError Instruction
  | .bang => .ok .bang
  | .minus => .ok .minus
  | operator => .error (.unknownOperator operator)

/-- The instruction of an operator between its operands. It compares two values the other way round
for `<`. -/
def Operator.binaryInstruction : Operator → Except CompileError Instruction
  | .plus => .ok .add
  | .minus => .ok .sub
  | .asterisk => .ok .mul
  | .slash => .ok .div
  | .lessThan | .greaterThan => .ok .greaterThan
  | .equal => .ok .equal
  | .notEqual => .ok .notEqual
  | .bang => .error (.unknownOperator .bang)

/-! ### Expressions and statements -/

mutual

/-- Writes the code of an expression. -/
def Expr.compile : Expr → CompileM Unit
  | .identifier name => .loadName name
  | .integer value => .loadConstant (.integer value)
  | .string contents => .loadConstant (.string contents)
  | .boolean true => .emit .true
  | .boolean false => .emit .false
  | .array elements => do
    Expr.compileAll elements
    .emit (.array elements.length)
  | .hash pairs => do
    Expr.compilePairs pairs
    .emit (.hash (pairs.length * 2))
  | .unary operator operand => do
    operand.compile
    .emit (← MonadExcept.ofExcept operator.unaryInstruction)
  | .binary left operator right => do
    checkLiteralOperands left operator right
    -- `a < b` is computed as `b > a`, so the right operand comes first
    if operator = .lessThan then
      right.compile
      left.compile
    else
      left.compile
      right.compile
    .emit (← MonadExcept.ofExcept operator.binaryInstruction)
  | .if condition consequence alternative => do
    condition.compile
    -- the targets of both jumps are filled in when they are known
    let jumpToAlternative ← CompileM.position
    .emit (.jumpNotTruthy 9999)
    Stmt.compileAll consequence
    CompileM.endBranch
    let jumpToEnd ← CompileM.position
    .emit (.jump 9999)
    .patch jumpToAlternative (.jumpNotTruthy (← CompileM.position))
    Stmt.compileAlternative alternative
    .patch jumpToEnd (.jump (← CompileM.position))
  | .function name parameters body => do
    CompileM.beginFunction name parameters
    Stmt.compileAll body
    CompileM.endBody
    let (code, table) ← CompileM.endFunction
    .loadFunction code table parameters.length
  | .call callee arguments => do
    callee.compile
    Expr.compileAll arguments
    .emit (.call arguments.length)
  | .index collection key => do
    collection.compile
    key.compile
    .emit .index

/-- Writes the code of some expressions, one behind the other. -/
def Expr.compileAll : List Expr → CompileM Unit
  | [] => return ()
  | e :: es => do
    e.compile
    Expr.compileAll es

/-- Writes the code of the keys and values of a hash literal, one behind the other. -/
def Expr.compilePairs : List (Expr × Expr) → CompileM Unit
  | [] => return ()
  | (key, value) :: pairs => do
    key.compile
    value.compile
    Expr.compilePairs pairs

/-- Writes the code of the alternative of an `if`, which is `null` if there is none. -/
def Stmt.compileAlternative : Option (List Stmt) → CompileM Unit
  | some alternative => do
    Stmt.compileAll alternative
    CompileM.endBranch
  | none => .emit .null

/-- Writes the code of a statement. -/
def Stmt.compile : Stmt → CompileM Unit
  | .let name value => do
    value.compile
    .store name
  | .return none => .emit .return
  | .return (some value) => do
    value.compile
    .emit .returnValue
  | .expr value => do
    value.compile
    .emit .pop

/-- Writes the code of some statements, one behind the other. -/
def Stmt.compileAll : List Stmt → CompileM Unit
  | [] => return ()
  | s :: ss => do
    s.compile
    Stmt.compileAll ss

end

/-! ### Whole programs -/

/-- The code of a program with the constants that it refers to. -/
structure Bytecode where
  code : Code
  constants : Array Value

/-- What a compiled program leaves for the programs after it. -/
structure Compiler where
  symbols : Symbols
  constants : Array Value := #[]

namespace Assembly

/-- A compilation that goes on from what an earlier one has left. -/
def resume (compiler : Compiler) : Assembly := ⟨compiler.constants, compiler.symbols, {}, []⟩

/-- What a compilation leaves. -/
def compiler (a : Assembly) : Compiler := ⟨a.symbols, a.constants⟩

/-- Compiles a program. The code that was written is handed out, or given up if the compilation fails.
What a failed compilation has added to the constants is dropped, and the symbols are those from before. -/
def compile (a : Assembly) (program : Program) : Except CompileError Bytecode × Assembly :=
  match Stmt.compileAll program a with
  | .ok () a' => (.ok ⟨a'.emitter.code, a'.constants⟩, { a' with emitter := {}, around := [] })
  | .error e a' =>
    (.error e, ⟨a'.constants.shrink a.constants.size, a.symbols, {}, []⟩)

end Assembly

namespace Compiler

/-- Knows the built-in functions and nothing else. -/
def initial : Compiler where
  symbols := Builtin.all.foldl (fun symbols b => symbols.defineBuiltin b.index b.name) {}

/-- Compiles a program after those whose symbols and constants are there. -/
def compile (compiler : Compiler) (program : Program) : Except CompileError Bytecode × Compiler :=
  let (result, a) := (Assembly.resume compiler).compile program
  (result, a.compiler)

end Compiler

end ScriptLang
