import ScriptLang.Token
import ScriptLang.Syntax

/-!
# From tokens to programs

Expressions are read by precedence: after an operand, `operators` goes on as long as the next token
binds tighter than what stands to the left. A list of tokens reads as if it were followed by
end-of-file tokens for ever, and reading past its end consumes nothing.

Every parser takes a bound, which has to be at least the number of tokens left. The recursion is on the
bound, and with the bound `0` no token is left, so that the answer is the one for the end of the file.

`Program.ofTokens` collects the first error of each malformed statement and goes on behind the next
semicolon.
-/

namespace ScriptLang

/-! ### Errors -/

/-- Why a statement is malformed. -/
inductive ParseError where
  /-- A certain token is missing. -/
  | expected (token found : Token)
  /-- No name follows `let`. -/
  | expectedName (found : Token)
  /-- An expression starts with a token that starts none. -/
  | notAnExpression (found : Token)
  /-- The tokens end inside a block. -/
  | unclosedBlock
  /-- A parameter list holds something else than a name. -/
  | expectedParameter (found : Token)
  /-- A parameter list does not go on behind a name. -/
  | expectedParameterEnd (found : Token)
  /-- A list of expressions that ends with `close` does not go on behind an expression. -/
  | expectedListEnd (close : Mark) (found : Token)
  deriving DecidableEq

/-- The text of a parse error. -/
def ParseError.message : ParseError → String
  | .expected token found =>
    "Expected '" ++ token.text ++ "' token! Found '" ++ found.text ++ "'."
  | .expectedName found => "Expected an identifier after 'let'! Found '" ++ found.text ++ "'."
  | .notAnExpression found => "Token not valid for an expression: '" ++ found.text ++ "'"
  | .unclosedBlock => "Expected '\x7d' to close a block! Found end of file."
  | .expectedParameter found => "Expected a parameter name! Found '" ++ found.text ++ "'."
  | .expectedParameterEnd found =>
    "Expected ',' or ')' in parameter list! Found '" ++ found.text ++ "'."
  | .expectedListEnd close found =>
    "Expected ',' or '" ++ close.text ++ "'! Found '" ++ found.text ++ "'."

/-! ### Precedence -/

/-- How tightly an operator binds, loosest first. -/
inductive Precedence where
  | lowest
  | equality
  | comparison
  | sum
  | product
  | unary
  | call
  | index
  deriving DecidableEq

/-- The place of a precedence in the order of binding. -/
def Precedence.rank : Precedence → Nat
  | .lowest => 0
  | .equality => 1
  | .comparison => 2
  | .sum => 3
  | .product => 4
  | .unary => 5
  | .call => 6
  | .index => 7

instance : LT Precedence := ⟨fun p q => p.rank < q.rank⟩

instance (p q : Precedence) : Decidable (p < q) := inferInstanceAs (Decidable (p.rank < q.rank))

/-- How tightly a token binds what stands to its left. Tokens that bind nothing are lowest. -/
def Token.precedence : Token → Precedence
  | .mark .equal | .mark .notEqual => .equality
  | .mark .lessThan | .mark .greaterThan => .comparison
  | .mark .plus | .mark .minus => .sum
  | .mark .slash | .mark .asterisk => .product
  | .mark .leftParen => .call
  | .mark .leftBracket => .index
  | _ => .lowest

/-- The operator that a token stands for between two operands, if it is one. -/
def Token.binaryOperator? : Token → Option Operator
  | .mark .plus => some .plus
  | .mark .minus => some .minus
  | .mark .asterisk => some .asterisk
  | .mark .slash => some .slash
  | .mark .lessThan => some .lessThan
  | .mark .greaterThan => some .greaterThan
  | .mark .equal => some .equal
  | .mark .notEqual => some .notEqual
  | _ => none

/-! ### Reading tokens -/

/-- Parsers: they read from a list of tokens and may fail, which does not put tokens back. -/
abbrev Parse := EStateM ParseError (List Token)

namespace Parse

/-- The next token, which stays unread. -/
def peek : Parse Token := do
  match ← get with
  | [] => return .endOfFile
  | token :: _ => return token

/-- Reads the next token. -/
def read : Parse Token := do
  match ← get with
  | [] => return .endOfFile
  | token :: rest =>
    set rest
    return token

/-- Reads a certain mark. -/
def expect (m : Mark) : Parse Unit := do
  let found ← read
  unless found = .mark m do
    throw (.expected (.mark m) found)

/-- Reads a semicolon if one comes next. -/
def skipSemicolon : Parse Unit := do
  if (← peek) = .mark .semicolon then
    discard read

/-- The rest of a parameter list, behind `acc`, which holds the last name first. -/
def parameters (acc : List String) : List Token → EStateM.Result ParseError (List Token) (List String)
  | .identifier name :: .mark .comma :: rest => parameters (name :: acc) rest
  | .identifier name :: .mark .rightParen :: rest => .ok (name :: acc).reverse rest
  | .identifier _ :: found :: rest => .error (.expectedParameterEnd found) rest
  | [.identifier _] => .error (.expectedParameterEnd .endOfFile) []
  | found :: rest => .error (.expectedParameter found) rest
  | [] => .error (.expectedParameter .endOfFile) []

/-- A parameter list in parentheses. -/
def parameterList : Parse (List String) := do
  expect .leftParen
  if (← peek) = .mark .rightParen then
    discard read
    return []
  else
    parameters []

/-! ### Expressions and statements -/

/-- One operand, given the parsers for what may stand inside it. -/
def operand (expression : Precedence → Parse Expr) (block : Parse (List Stmt))
    (elements : Mark → Parse (List Expr)) (pairs : Parse (List (Expr × Expr))) : Parse Expr := do
  match ← read with
  | .identifier name => return .identifier name
  | .integer value => return .integer value
  | .string contents => return .string contents
  | .keyword .true => return .boolean Bool.true
  | .keyword .false => return .boolean Bool.false
  | .mark .bang => return .unary .bang (← expression .unary)
  | .mark .minus => return .unary .minus (← expression .unary)
  | .mark .leftParen =>
    let inner ← expression .lowest
    expect .rightParen
    return inner
  | .keyword .if =>
    expect .leftParen
    let condition ← expression .lowest
    expect .rightParen
    let consequence ← block
    if (← peek) = .keyword .else then
      discard read
      return .if condition consequence (some (← block))
    else
      return .if condition consequence none
  | .keyword .fn =>
    let names ← parameterList
    return .function none names (← block)
  | .mark .leftBracket => return .array (← elements .rightBracket)
  | .mark .leftBrace => return .hash (← pairs)
  | found => throw (.notAnExpression found)

/-- One statement with the semicolon behind it, if there is one, given the parser for expressions. -/
def statement (expression : Precedence → Parse Expr) : Parse Stmt := do
  match ← peek with
  | .keyword .let =>
    discard read
    let name ← match ← read with
      | .identifier name => pure name
      | found => throw (.expectedName found)
    expect .assign
    let value ← expression .lowest
    skipSemicolon
    return .let name (value.named name)
  | .keyword .return =>
    discard read
    let next ← peek
    if next = .mark .semicolon ∨ next = .mark .rightBrace ∨ next = .endOfFile then
      skipSemicolon
      return .return none
    else
      let value ← expression .lowest
      skipSemicolon
      return .return (some value)
  | _ =>
    let value ← expression .lowest
    skipSemicolon
    return .expr value

mutual

/-- An expression whose operators bind tighter than `p`. -/
def expression : Nat → Precedence → Parse Expr
  | 0, _ => throw (.notAnExpression .endOfFile)
  | n + 1, p => do
    let left ← operand (expression n) (block n) (elements n · []) (pairs n [])
    operators n p left

/-- What goes on behind `left` by operators that bind tighter than `p`. -/
def operators : Nat → Precedence → Expr → Parse Expr
  | 0, _, left => return left
  | n + 1, p, left => do
    let next ← peek
    if p < next.precedence then
      match next with
      | .mark .leftParen =>
        discard read
        let arguments ← elements n .rightParen []
        operators n p (.call left arguments)
      | .mark .leftBracket =>
        discard read
        let key ← expression n .lowest
        expect .rightBracket
        operators n p (.index left key)
      | _ =>
        match next.binaryOperator? with
        | some operator =>
          discard read
          let right ← expression n next.precedence
          operators n p (.binary left operator right)
        | none => return left
    else
      return left

/-- Expressions separated by commas and closed by `close`, behind those of `acc`, which holds the last
one first. Only a list without any expression may close at once. -/
def elements : Nat → Mark → List Expr → Parse (List Expr)
  | 0, _, _ => throw (.notAnExpression .endOfFile)
  | n + 1, close, acc => do
    if acc.isEmpty ∧ (← peek) = .mark close then
      discard read
      return []
    let left ← operand (expression n) (block n) (elements n · []) (pairs n [])
    let element ← operators n .lowest left
    let next ← read
    if next = .mark .comma then
      elements n close (element :: acc)
    else if next = .mark close then
      return (element :: acc).reverse
    else
      throw (.expectedListEnd close next)

/-- The pairs of a hash literal up to its closing brace, behind those of `acc`. A comma may stand
behind the last pair. -/
def pairs : Nat → List (Expr × Expr) → Parse (List (Expr × Expr))
  | 0, _ => throw (.notAnExpression .endOfFile)
  | n + 1, acc => do
    if (← peek) = .mark .rightBrace then
      discard read
      return acc.reverse
    let left ← operand (expression n) (block n) (elements n · []) (pairs n [])
    let key ← operators n .lowest left
    expect .colon
    let value ← expression n .lowest
    unless (← peek) = .mark .rightBrace do
      expect .comma
    pairs n ((key, value) :: acc)

/-- A block in braces. -/
def block : Nat → Parse (List Stmt)
  | 0 => throw (.expected (.mark .leftBrace) .endOfFile)
  | n + 1 => do
    expect .leftBrace
    statements n []

/-- The statements of a block up to its closing brace, behind those of `acc`. -/
def statements : Nat → List Stmt → Parse (List Stmt)
  | 0, _ => throw .unclosedBlock
  | n + 1, acc => do
    match ← peek with
    | .mark .rightBrace =>
      discard read
      return acc.reverse
    | .endOfFile => throw .unclosedBlock
    | _ =>
      let s ← statement fun p => do
        let left ← operand (expression n) (block n) (elements n · []) (pairs n [])
        operators n p left
      statements n (s :: acc)

end

/-! ### Whole programs -/

/-- What is left behind the next semicolon or end-of-file token. -/
def synchronize : List Token → List Token
  | [] => []
  | token :: rest =>
    if token = .mark .semicolon ∨ token = .endOfFile then rest else synchronize rest

/-- What reading a whole list of tokens comes to. -/
structure Outcome where
  /-- The well-formed statements. -/
  statements : List Stmt
  /-- The first error of each malformed statement. -/
  errors : List ParseError
  /-- The tokens that stay unread, from an end-of-file token on. -/
  left : List Token

/-- Reads statements up to the end of the file, behind those of `found` and the errors of `errors`,
which both hold the last one first. -/
def program : Nat → List Stmt → List ParseError → List Token → Outcome
  | _, found, errors, [] => ⟨found.reverse, errors.reverse, []⟩
  | _, found, errors, .endOfFile :: rest => ⟨found.reverse, errors.reverse, .endOfFile :: rest⟩
  | 0, found, errors, left => ⟨found.reverse, errors.reverse, left⟩
  | n + 1, found, errors, tokens =>
    match statement (expression (n + 1)) tokens with
    | .ok s rest => program n (s :: found) errors rest
    | .error e rest => program n found (e :: errors) (synchronize rest)

end Parse

/-- Reads a whole list of tokens. -/
def Program.read (tokens : List Token) : Parse.Outcome := Parse.program tokens.length [] [] tokens

/-- The program that a list of tokens spells, or the error of each malformed statement. -/
def Program.ofTokens (tokens : List Token) : Except (List ParseError) Program :=
  let outcome := Program.read tokens
  if outcome.errors.isEmpty then .ok outcome.statements else .error outcome.errors

end ScriptLang
