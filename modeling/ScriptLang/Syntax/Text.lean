import ScriptLang.Syntax

/-!
# Programs as text

`Stmt.text` and `Expr.text` write a tree on one line, with parentheses around every operator so that no
grouping is left to precedence. Lists of nodes are rendered front to back onto a list of texts that
holds the last one first.
-/

namespace ScriptLang

/-- The spelling of an operator. -/
def Operator.text : Operator → String
  | .plus => "+"
  | .minus => "-"
  | .asterisk => "*"
  | .slash => "/"
  | .bang => "!"
  | .lessThan => "<"
  | .greaterThan => ">"
  | .equal => "=="
  | .notEqual => "!="

/-- Text between braces. -/
def braced (text : String) : String := "\x7b" ++ text ++ "\x7d"

/-- The literal of a function: its recorded name, parameters and body. -/
def functionText (name : Option String) (parameters : List String) (body : String) : String :=
  let label := match name with
    | none => ""
    | some name => if name.isEmpty then "" else "<" ++ name ++ ">"
  "fn" ++ label ++ "(" ++ ", ".intercalate parameters ++ ") " ++ braced (" " ++ body ++ " ")

mutual

/-- The text of an expression. -/
def Expr.text : Expr → String
  | .identifier name => name
  | .integer value => toString value.toInt
  | .boolean value => toString value
  | .string contents => "\"" ++ contents ++ "\""
  | .array elements => "[" ++ ", ".intercalate (Expr.texts [] elements) ++ "]"
  | .hash pairs => braced (", ".intercalate (Expr.pairTexts [] pairs))
  | .unary operator operand => "(" ++ operator.text ++ operand.text ++ ")"
  | .binary left operator right =>
    "(" ++ left.text ++ " " ++ operator.text ++ " " ++ right.text ++ ")"
  | .if condition consequence none =>
    "if " ++ condition.text ++ " " ++ braced (" " ++ " ".intercalate (Stmt.texts [] consequence) ++ " ")
  | .if condition consequence (some alternative) =>
    "if " ++ condition.text ++ " " ++ braced (" " ++ " ".intercalate (Stmt.texts [] consequence) ++ " ")
      ++ " else " ++ braced (" " ++ " ".intercalate (Stmt.texts [] alternative) ++ " ")
  | .function name parameters body =>
    functionText name parameters (" ".intercalate (Stmt.texts [] body))
  | .call callee arguments => callee.text ++ "(" ++ ", ".intercalate (Expr.texts [] arguments) ++ ")"
  | .index collection key => "(" ++ collection.text ++ "[" ++ key.text ++ "])"

/-- The texts of some expressions, behind those of `acc`, which holds the last one first. -/
def Expr.texts (acc : List String) : List Expr → List String
  | [] => acc.reverse
  | e :: es => Expr.texts (e.text :: acc) es

/-- The texts of the pairs of a hash literal, behind those of `acc`. -/
def Expr.pairTexts (acc : List String) : List (Expr × Expr) → List String
  | [] => acc.reverse
  | (key, value) :: pairs => Expr.pairTexts ((key.text ++ ": " ++ value.text) :: acc) pairs

/-- The text of a statement. -/
def Stmt.text : Stmt → String
  | .let name value => "let " ++ name ++ " = " ++ value.text ++ ";"
  | .return none => "return;"
  | .return (some value) => "return " ++ value.text ++ ";"
  | .expr value => value.text

/-- The texts of some statements, behind those of `acc`. -/
def Stmt.texts (acc : List String) : List Stmt → List String
  | [] => acc.reverse
  | s :: ss => Stmt.texts (s.text :: acc) ss

end

/-- The text of a block or a function body, without braces. -/
def blockText (body : List Stmt) : String := " ".intercalate (Stmt.texts [] body)

end ScriptLang
