/-!
# Tokens

A token is a reserved word, a mark (an operator or a delimiter), an identifier, a literal, a character
that starts no token, or the end of the text. `Keyword.text` and `Mark.text` give the fixed spellings;
`Token.text` is how a token is quoted in a message.
-/

namespace ScriptLang

/-- The reserved words. -/
inductive Keyword where
  | fn
  | let
  | true
  | false
  | return
  | if
  | else
  deriving DecidableEq

/-- The spelling of a reserved word. -/
def Keyword.text : Keyword → String
  | .fn => "fn"
  | .let => "let"
  | .true => "true"
  | .false => "false"
  | .return => "return"
  | .if => "if"
  | .else => "else"

/-- Every reserved word. -/
def Keyword.all : List Keyword := [.fn, .let, .true, .false, .return, .if, .else]

/-- The reserved word spelled `s`, if there is one. -/
def Keyword.ofText? (s : String) : Option Keyword := Keyword.all.find? (·.text = s)

/-- The operators and delimiters. -/
inductive Mark where
  | assign
  | plus
  | minus
  | bang
  | asterisk
  | slash
  | lessThan
  | greaterThan
  | equal
  | notEqual
  | comma
  | colon
  | semicolon
  | leftParen
  | rightParen
  | leftBrace
  | rightBrace
  | leftBracket
  | rightBracket
  deriving DecidableEq

/-- The spelling of a mark. -/
def Mark.text : Mark → String
  | .assign => "="
  | .plus => "+"
  | .minus => "-"
  | .bang => "!"
  | .asterisk => "*"
  | .slash => "/"
  | .lessThan => "<"
  | .greaterThan => ">"
  | .equal => "=="
  | .notEqual => "!="
  | .comma => ","
  | .colon => ":"
  | .semicolon => ";"
  | .leftParen => "("
  | .rightParen => ")"
  | .leftBrace => "\x7b"
  | .rightBrace => "\x7d"
  | .leftBracket => "["
  | .rightBracket => "]"

/-- The mark spelled with the single character `c`, if there is one. -/
def Mark.ofChar? : Char → Option Mark
  | '=' => some .assign
  | '+' => some .plus
  | '-' => some .minus
  | '!' => some .bang
  | '*' => some .asterisk
  | '/' => some .slash
  | '<' => some .lessThan
  | '>' => some .greaterThan
  | ',' => some .comma
  | ':' => some .colon
  | ';' => some .semicolon
  | '(' => some .leftParen
  | ')' => some .rightParen
  | '\x7b' => some .leftBrace
  | '\x7d' => some .rightBrace
  | '[' => some .leftBracket
  | ']' => some .rightBracket
  | _ => none

/-- The tokens of the language. -/
inductive Token where
  | keyword (word : Keyword)
  | mark (m : Mark)
  | identifier (name : String)
  | integer (value : Int64)
  | string (contents : String)
  /-- Text that belongs to no other token. -/
  | illegal (text : String)
  | endOfFile
  deriving DecidableEq

/-- The text of a token as messages quote it. -/
def Token.text : Token → String
  | .keyword word => word.text
  | .mark m => m.text
  | .identifier name => name
  | .integer value => toString value.toInt
  | .string contents => "\"" ++ contents ++ "\""
  | .illegal text => text
  | .endOfFile => "end of file"

end ScriptLang
