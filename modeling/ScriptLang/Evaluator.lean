import ScriptLang.Value.Element
import ScriptLang.Value.Equality
import ScriptLang.Bindings
import ScriptLang.Builtin

/-!
# The evaluator

Computes values from the tree of a program. Every call has a scope of its own, inside the scope that the
function was made in; scopes are numbered in the order in which they are opened, and the scope `0` is
the one of the main program. A call that makes no function closes its scope again.

Evaluating an expression recurses on the expression, except that a call evaluates the body of whatever
function it finds. `callFunction` takes a number for that, which drops with every call. It starts above
`maxCallDepth`, so that the limit on the depth of calls is reached before it is used up.
-/

namespace ScriptLang

/-- How many calls of functions may be active at a time. -/
def maxCallDepth : Nat := 200

/-! ### Errors and states -/

/-- Why an evaluation stops. -/
inductive EvalError where
  | identifierNotFound (name : String)
  | notAFunction (kind : Kind)
  | wrongArgumentCount (want got : Nat)
  | callDepthExceeded
  /-- A built-in function reports a failure. -/
  | builtin (message : String)
  | unknownUnaryOperator (operator : Operator) (kind : Kind)
  | unknownBinaryOperator (left : Kind) (operator : Operator) (right : Kind)
  | typeMismatch (left : Kind) (operator : Operator) (right : Kind)
  | divisionByZero
  | unusableHashKey (kind : Kind)
  | indexNotSupported (kind : Kind)
  /-- Calls go deeper than the evaluator can follow. The limit on their depth comes first. -/
  | exhausted
  deriving DecidableEq

/-- The text of an evaluation error. -/
def EvalError.message : EvalError → String
  | .identifierNotFound name => "identifier not found: " ++ name
  | .notAFunction kind => "not a function: " ++ kind.name
  | .wrongArgumentCount want got =>
    "wrong number of arguments: want=" ++ toString want ++ ", got=" ++ toString got
  | .callDepthExceeded => "stack overflow"
  | .builtin message => message
  | .unknownUnaryOperator operator kind => "unknown operator: " ++ operator.text ++ kind.name
  | .unknownBinaryOperator left operator right =>
    "unknown operator: " ++ left.name ++ " " ++ operator.text ++ " " ++ right.name
  | .typeMismatch left operator right =>
    "type mismatch: " ++ left.name ++ " " ++ operator.text ++ " " ++ right.name
  | .divisionByZero => "division by zero"
  | .unusableHashKey kind => "unusable as hash key: " ++ kind.name
  | .indexNotSupported kind => "index operator not supported: " ++ kind.name
  | .exhausted => "evaluation exhausted"

/-- The names of one call, or of the main program. -/
structure Scope where
  bindings : Bindings Value := []
  /-- The scope around it. -/
  outer : Option Nat := none

/-- What an evaluation works on, and what it leaves for the next one. -/
structure Evaluator where
  scopes : Array Scope := #[{}]
  /-- How many functions have been made. -/
  functionsMade : Nat := 0
  /-- How many calls are active. -/
  depth : Nat := 0
  output : Output := #[]

/-- What stops a sequence of statements early. -/
inductive Signal where
  | return (v : Value)
  | error (e : EvalError)

/-- Steps of an evaluation. -/
abbrev EvalM := EStateM Signal Evaluator

namespace EvalM

variable [StringHash]

/-- Stops with an error. -/
def fail {α : Type} (e : EvalError) : EvalM α := throw (.error e)

/-! ### Names -/

/-- What a name stands for in a scope or in the `n - 1` scopes around it. -/
def lookup? (scopes : Array Scope) (name : String) : Nat → Nat → Option Value
  | 0, _ => none
  | n + 1, index => do
    let scope ← scopes[index]?
    match scope.bindings.get? name with
    | some v => return v
    | none => lookup? scopes name n (← scope.outer)

/-- The value of a name: the innermost binding, or else a built-in function. -/
def loadName (name : String) (scope : Nat) : EvalM Value := do
  match lookup? (← get).scopes name (scope + 1) scope with
  | some v => return v
  | none =>
    match Builtin.ofName? name with
    | some b => return .builtin b
    | none => fail (.identifierNotFound name)

/-- Binds a name in a scope. -/
def store (name : String) (v : Value) (scope : Nat) : EvalM Unit :=
  modify fun st => { st with
    scopes := st.scopes.modify scope fun s => { s with bindings := s.bindings.insert name v } }

/-- Makes a function in a scope. -/
def makeFunction (parameters : List String) (body : List Stmt) (scope : Nat) : EvalM Value :=
  modifyGet fun st =>
    (.function st.functionsMade parameters body scope,
      { st with functionsMade := st.functionsMade + 1 })

/-! ### Operators -/

/-- Applies an operator to the operand behind it. -/
def unary (operator : Operator) (operand : Value) : EvalM Value :=
  match operator, operand with
  | .bang, _ => return .boolean (!operand.isTruthy)
  | .minus, .integer value => return .integer (-value)
  | _, _ => fail (.unknownUnaryOperator operator operand.kind)

/-- Applies an operator to two integers. Arithmetic wraps around. -/
def integerBinary (operator : Operator) (l r : Int64) : EvalM Value :=
  match operator with
  | .plus => return .integer (l + r)
  | .minus => return .integer (l - r)
  | .asterisk => return .integer (l * r)
  | .slash => if r = 0 then fail .divisionByZero else return .integer (l / r)
  | .lessThan => return .boolean (decide (l < r))
  | .greaterThan => return .boolean (decide (r < l))
  | .equal => return .boolean (l == r)
  | .notEqual => return .boolean (l != r)
  | .bang => fail (.unknownBinaryOperator .integer .bang .integer)

/-- Applies an operator to the operands around it. -/
def binary (operator : Operator) (left right : Value) : EvalM Value :=
  match operator, left, right with
  | _, .integer l, .integer r => integerBinary operator l r
  | .plus, .string l, .string r => return .string (l ++ r)
  | .equal, _, _ => return .boolean (left == right)
  | .notEqual, _, _ => return .boolean (left != right)
  | _, _, _ =>
    if left.kind = right.kind then fail (.unknownBinaryOperator left.kind operator right.kind)
    else fail (.typeMismatch left.kind operator right.kind)

/-- The element of an array or a hash. -/
def element (collection key : Value) : EvalM Value :=
  match collection.element key with
  | .ok v => return v
  | .error (.unusableHashKey kind) => fail (.unusableHashKey kind)
  | .error (.indexNotSupported kind) => fail (.indexNotSupported kind)

/-! ### Expressions and statements

What a call does is a parameter here, and so is the scope. -/

mutual

/-- The value of an expression. -/
def evalExpr (call : Value → List Value → EvalM Value) (scope : Nat) : Expr → EvalM Value
  | .identifier name => loadName name scope
  | .integer value => return .integer value
  | .boolean value => return .boolean value
  | .string contents => return .string contents
  | .array elements => return .array (← evalExprs call scope [] elements)
  | .hash pairs => return .hash (← evalPairs call scope [] pairs)
  | .unary operator operand => do
    unary operator (← evalExpr call scope operand)
  | .binary left operator right => do
    let l ← evalExpr call scope left
    let r ← evalExpr call scope right
    binary operator l r
  | .if condition consequence none => do
    if (← evalExpr call scope condition).isTruthy then
      evalBlock call scope .null consequence
    else
      return .null
  | .if condition consequence (some alternative) => do
    if (← evalExpr call scope condition).isTruthy then
      evalBlock call scope .null consequence
    else
      evalBlock call scope .null alternative
  | .function _ parameters body => makeFunction parameters body scope
  | .call callee arguments => do
    let f ← evalExpr call scope callee
    call f (← evalExprs call scope [] arguments)
  | .index collection key => do
    let c ← evalExpr call scope collection
    element c (← evalExpr call scope key)

/-- The values of some expressions, behind those of `acc`, which holds the last one first. -/
def evalExprs (call : Value → List Value → EvalM Value) (scope : Nat) (acc : List Value) :
    List Expr → EvalM (List Value)
  | [] => return acc.reverse
  | e :: es => do
    let v ← evalExpr call scope e
    evalExprs call scope (v :: acc) es

/-- Puts the pairs of a hash literal into `entries`. A key is checked before its value is computed. -/
def evalPairs (call : Value → List Value → EvalM Value) (scope : Nat) (entries : Dictionary Value) :
    List (Expr × Expr) → EvalM (Dictionary Value)
  | [] => return entries
  | (key, value) :: pairs => do
    let k ← evalExpr call scope key
    match k.key? with
    | none => fail (.unusableHashKey k.kind)
    | some hashKey =>
      let v ← evalExpr call scope value
      evalPairs call scope (Dictionary.insert ⟨hashKey, k⟩ v entries) pairs

/-- The value of a statement. -/
def evalStmt (call : Value → List Value → EvalM Value) (scope : Nat) : Stmt → EvalM Value
  | .let name value => do
    let v ← evalExpr call scope value
    store name v scope
    return .null
  | .return none => throw (.return .null)
  | .return (some value) => do
    throw (.return (← evalExpr call scope value))
  | .expr value => evalExpr call scope value

/-- The value of the last one of some statements, or `last` if there is none. -/
def evalBlock (call : Value → List Value → EvalM Value) (scope : Nat) (last : Value) :
    List Stmt → EvalM Value
  | [] => return last
  | s :: ss => do
    let v ← evalStmt call scope s
    evalBlock call scope v ss

end

/-! ### Calls -/

/-- Opens the scope of a call. -/
def enterCall (parameters : List String) (arguments : List Value) (scope : Nat) (st : Evaluator) :
    Evaluator :=
  let bindings := (parameters.zip arguments).foldl
    (fun bindings (name, v) => Bindings.insert name v bindings) []
  { st with scopes := st.scopes.push ⟨bindings, some scope⟩, depth := st.depth + 1 }

/-- Leaves a call that was entered with `numScopes` scopes and `functionsMade` functions. If it made
no function, nothing refers to the scopes that it opened. -/
def leaveCall (numScopes functionsMade : Nat) (st : Evaluator) : Evaluator :=
  { st with
    depth := st.depth - 1
    scopes := if st.functionsMade = functionsMade then st.scopes.shrink numScopes else st.scopes }

/-- The value of the body of a function, in the scope of the call. -/
def runBody (body : Nat → EvalM Value) (parameters : List String) (arguments : List Value)
    (scope : Nat) : EvalM Value := fun st =>
  let numScopes := st.scopes.size
  let functionsMade := st.functionsMade
  match body numScopes (enterCall parameters arguments scope st) with
  | .ok v st => .ok v (leaveCall numScopes functionsMade st)
  | .error (.return v) st => .ok v (leaveCall numScopes functionsMade st)
  | .error (.error e) st => .error (.error e) (leaveCall numScopes functionsMade st)

/-- Calls a function whose calls go at most `n - 1` deep. -/
def callFunction : Nat → Value → List Value → EvalM Value
  | 0, _, _ => fail .exhausted
  | n + 1, .function _ parameters body scope, arguments => do
    if arguments.length ≠ parameters.length then
      fail (.wrongArgumentCount parameters.length arguments.length)
    if maxCallDepth ≤ (← get).depth then
      fail .callDepthExceeded
    runBody (fun inner => evalBlock (callFunction n) inner .null body) parameters arguments scope
  | _ + 1, .builtin b, arguments => do
    modify fun st => { st with output := b.print arguments st.output }
    match b.result arguments with
    | .error message => fail (.builtin message)
    | v => return v
  | _ + 1, other, _ => fail (.notAFunction other.kind)

end EvalM

/-! ### Whole programs -/

namespace Evaluator

variable [StringHash]

/-- The value of the last statement of a program, or of the `return` that ends it. -/
def run (program : Program) (st : Evaluator) : Except EvalError Value × Evaluator :=
  match EvalM.evalBlock (EvalM.callFunction (maxCallDepth + 1)) 0 .null program st with
  | .ok v st => (.ok v, st)
  | .error (.return v) st => (.ok v, st)
  | .error (.error e) st => (.error e, st)

/-- The value of a program, in which a failure is an error value. -/
def evaluate (program : Program) (st : Evaluator) : Value × Evaluator :=
  match run program st with
  | (.ok v, st) => (v, st)
  | (.error e, st) => (.error e.message, st)

end Evaluator

end ScriptLang
