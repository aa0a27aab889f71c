import ScriptLang.Token

/-!
# From characters to tokens

`Lexer.next` splits the first token off a text, after the blanks in front of it, by longest match.
`tokenize` repeats it to the end of the text and stops at the first error.

Only ASCII letters, `_` and ASCII digits build words and numbers, and only space, tab, line feed and
carriage return are blank. Any other character is an illegal token of its own, so that the only errors
are a number that does not fit and a string that is never closed.
-/

namespace ScriptLang

/-- Why a text cannot be split into tokens. -/
inductive LexError where
  /-- A run of digits stands for a number above the largest integer. -/
  | integerOutOfRange (digits : String)
  /-- The text ends inside a string literal, which holds `contents` so far. -/
  | unterminatedString (contents : String)
  deriving DecidableEq

/-- The text of a lexical error. -/
def LexError.message : LexError → String
  | .integerOutOfRange digits => "Integer literal out of range: " ++ digits
  | .unterminatedString contents => "Unterminated string literal: \"" ++ contents

/-- What lies behind a lexical error, if there is more to say. -/
def LexError.causes : LexError → List String
  | .integerOutOfRange _ => ["number too large to fit in target type"]
  | .unterminatedString _ => []

namespace Lexer

/-! ### Character classes -/

/-- The characters that separate tokens and mean nothing else. -/
def isBlank (c : Char) : Bool := c == ' ' || c == '\t' || c == '\n' || c == '\r'

/-- The characters of identifiers and reserved words. -/
def isLetter (c : Char) : Bool := c.isAlpha || c == '_'

/-! ### Token classes -/

/-- The token spelled by a run of letters: a reserved word if it is one, else an identifier. -/
def word (letters : List Char) : Token :=
  let name := String.ofList letters
  match Keyword.ofText? name with
  | some keyword => .keyword keyword
  | none => .identifier name

/-- The number that a run of decimal digits stands for. -/
def decimalValue (digits : List Char) : Nat :=
  digits.foldl (fun value digit => 10 * value + (digit.toNat - '0'.toNat)) 0

/-- The integer token spelled by a run of digits, if the number is at most the largest integer. -/
def number (digits : List Char) : Except LexError Token :=
  let value := decimalValue digits
  if value < 0x8000000000000000 then .ok (.integer (Int64.ofNat value))
  else .error (.integerOutOfRange (String.ofList digits))

/-- The string literal whose opening quote has been read: the text up to the next quote. There are no
escapes. -/
def quoted (cs : List Char) : Except LexError Token × List Char :=
  let contents := String.ofList (cs.takeWhile (· != '"'))
  match cs.dropWhile (· != '"') with
  | [] => (.error (.unterminatedString contents), [])
  | _ :: rest => (.ok (.string contents), rest)

/-- The mark that begins with `c`, of two characters where possible, or `c` as an illegal token. -/
def symbol (c : Char) (cs : List Char) : Token × List Char :=
  match c, cs with
  | '=', '=' :: rest => (.mark .equal, rest)
  | '!', '=' :: rest => (.mark .notEqual, rest)
  | c, cs =>
    match Mark.ofChar? c with
    | some m => (.mark m, cs)
    | none => (.illegal (String.singleton c), cs)

/-- The first token of a text, and the text behind it. Behind an error, the text goes on after the
characters at fault. -/
def next (cs : List Char) : Except LexError Token × List Char :=
  match cs.dropWhile isBlank with
  | [] => (.ok .endOfFile, [])
  | c :: rest =>
    if c = '"' then quoted rest
    else if isLetter c then
      (.ok (word (c :: rest.takeWhile isLetter)), rest.dropWhile isLetter)
    else if c.isDigit then
      (number (c :: rest.takeWhile Char.isDigit), rest.dropWhile Char.isDigit)
    else
      let (token, rest) := symbol c rest
      (.ok token, rest)

/-! ### Progress -/

theorem length_dropWhile_le (p : Char → Bool) (cs : List Char) :
    (cs.dropWhile p).length ≤ cs.length :=
  (List.dropWhile_sublist p).length_le

/-- A string takes no more characters than there are. -/
theorem length_quoted_le (cs : List Char) : (quoted cs).2.length ≤ cs.length := by
  have h := length_dropWhile_le (· != '"') cs
  unfold quoted
  split
  · exact Nat.zero_le _
  · next hd => rw [hd] at h; exact Nat.le_of_succ_le h

theorem length_symbol_le (c : Char) (cs : List Char) : (symbol c cs).2.length ≤ cs.length := by
  unfold symbol
  split
  · simp
  · simp
  · split <;> simp

/-- Unless it reports the end of the text, `next` reads at least one character. -/
theorem length_next_lt (cs : List Char) (h : (next cs).1 ≠ .ok .endOfFile) :
    (next cs).2.length < cs.length := by
  have hle := length_dropWhile_le isBlank cs
  unfold next at h ⊢
  split at h
  · exact absurd rfl h
  · next c tail hd =>
    rw [hd, List.length_cons] at hle
    refine Nat.lt_of_lt_of_le (Nat.lt_succ_of_le ?_) hle
    split
    · exact length_quoted_le tail
    · split
      · exact length_dropWhile_le _ tail
      · split
        · exact length_dropWhile_le _ tail
        · exact length_symbol_le c tail

/-! ### Whole texts -/

/-- The tokens of a text, behind those of `acc`, which holds the last one first. -/
def tokens (acc : List Token) (cs : List Char) : Except LexError (List Token) :=
  match h : next cs with
  | (.error e, _) => .error e
  | (.ok token, rest) =>
    if hend : token = .endOfFile then .ok acc.reverse
    else
      have : rest.length < cs.length := by
        simpa [h] using length_next_lt cs (by simpa [h] using hend)
      tokens (token :: acc) rest
termination_by cs.length

end Lexer

/-- Splits a text into its tokens. The end of the text is not one of them. -/
def tokenize (source : String) : Except LexError (List Token) := Lexer.tokens [] source.toList

end ScriptLang
