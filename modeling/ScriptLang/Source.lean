import ScriptLang.Token.Lexer
import ScriptLang.Syntax.Parser

/-!
# Programs from text

`Program.ofSource` reads a program from its text: characters to tokens, tokens to statements.
-/

namespace ScriptLang

/-- Why a text is no program. -/
inductive SourceError where
  /-- It cannot be split into tokens. -/
  | lexical (e : LexError)
  /-- Some of its statements are malformed. -/
  | malformed (errors : List ParseError)
  deriving DecidableEq

/-- The text of an error in a source, one line for each malformed statement. -/
def SourceError.message : SourceError → String
  | .lexical e => e.message
  | .malformed errors => "\n".intercalate (errors.map ParseError.message)

/-- What lies behind an error in a source, if there is more to say. -/
def SourceError.causes : SourceError → List String
  | .lexical e => e.causes
  | .malformed _ => []

/-- The program that a text spells. -/
def Program.ofSource (source : String) : Except SourceError Program := do
  let tokens ← (tokenize source).mapError .lexical
  (Program.ofTokens tokens).mapError .malformed

end ScriptLang
