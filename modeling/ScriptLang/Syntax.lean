/-!
# Programs as trees

A program is a list of statements, and blocks and function bodies are such lists as well. The trees
allow more than any text yields: an operator may stand in a position where it has no meaning, and a
function literal may record any name.
-/

namespace ScriptLang

/-- The operators, in front of one operand or between two. -/
inductive Operator where
  | plus
  | minus
  | asterisk
  | slash
  | bang
  | lessThan
  | greaterThan
  | equal
  | notEqual
  deriving DecidableEq

mutual

/-- Expressions. -/
inductive Expr where
  | identifier (name : String)
  | integer (value : Int64)
  | boolean (value : Bool)
  | string (contents : String)
  | array (elements : List Expr)
  /-- A hash literal, its pairs in the order of the text. -/
  | hash (pairs : List (Expr × Expr))
  /-- An operator in front of its operand. -/
  | unary (operator : Operator) (operand : Expr)
  /-- An operator between its operands. -/
  | binary (left : Expr) (operator : Operator) (right : Expr)
  | if (condition : Expr) (consequence : List Stmt) (alternative : Option (List Stmt))
  /-- A function literal; `name` is the name that a `let` gives it directly. -/
  | function (name : Option String) (parameters : List String) (body : List Stmt)
  | call (callee : Expr) (arguments : List Expr)
  | index (collection : Expr) (key : Expr)

/-- Statements. -/
inductive Stmt where
  | let (name : String) (value : Expr)
  | return (value : Option Expr)
  | expr (value : Expr)

end

/-- A whole program. -/
abbrev Program := List Stmt

/-- A function literal takes the name it is bound to; any other expression has no place for one. -/
def Expr.named (name : String) : Expr → Expr
  | .function _ parameters body => .function (some name) parameters body
  | e => e

end ScriptLang
