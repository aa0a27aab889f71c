import ScriptLang.Value.Text

/-!
# Built-in functions

`Builtin.apply` is what a call of a built-in function yields. A failure is an error value, which a
caller may treat as data. Only `puts` has an effect: it adds its arguments to the output.
-/

namespace ScriptLang

/-- What a program has printed: the arguments of every call of `puts`, in order. -/
abbrev Output := Array (List Value)

/-- The lines that a program has printed. -/
def Output.text (output : Output) : String :=
  output.foldl (fun text arguments => arguments.foldl (fun text v => text ++ v.text ++ "\n") text) ""

namespace Builtin

/-- The built-in functions in the order of their numbers. -/
def all : List Builtin := [.len, .puts, .first, .last, .rest, .push]

/-- The name of a built-in function. -/
def name : Builtin → String
  | .len => "len"
  | .puts => "puts"
  | .first => "first"
  | .last => "last"
  | .rest => "rest"
  | .push => "push"

/-- The number of a built-in function. -/
def index : Builtin → Nat
  | .len => 0
  | .puts => 1
  | .first => 2
  | .last => 3
  | .rest => 4
  | .push => 5

/-- The built-in function with a given number. -/
def ofIndex? (i : Nat) : Option Builtin := all[i]?

/-- The built-in function with a given name. -/
def ofName? (name : String) : Option Builtin := all.find? (·.name = name)

/-- The complaint about a wrong number of arguments. -/
def arityError (got want : Nat) : Value :=
  .error ("wrong number of arguments. got=" ++ toString got ++ ", want=" ++ toString want)

/-- The complaint about an argument that is no array. -/
def arrayError (name : String) (argument : Value) : Value :=
  .error ("argument to \x60" ++ name ++ "\x60 must be ARRAY, got " ++ argument.kind.name)

/-- What a call yields, apart from its output. -/
def result : Builtin → List Value → Value
  | .len, [.string contents] => .integer (Int64.ofNat contents.length)
  | .len, [.array elements] => .integer (Int64.ofNat elements.length)
  | .len, [argument] =>
    .error ("argument to \x60len\x60 not supported, got " ++ argument.kind.name)
  | .len, arguments => arityError arguments.length 1
  | .puts, _ => .null
  | .first, [.array elements] => elements.head?.getD .null
  | .first, [argument] => arrayError "first" argument
  | .first, arguments => arityError arguments.length 1
  | .last, [.array elements] => elements.getLast?.getD .null
  | .last, [argument] => arrayError "last" argument
  | .last, arguments => arityError arguments.length 1
  | .rest, [.array []] => .null
  | .rest, [.array (_ :: elements)] => .array elements
  | .rest, [argument] => arrayError "rest" argument
  | .rest, arguments => arityError arguments.length 1
  | .push, [.array elements, value] => .array (elements ++ [value])
  | .push, [argument, _] => arrayError "push" argument
  | .push, arguments => arityError arguments.length 2

/-- The output after a call. -/
def print : Builtin → List Value → Output → Output
  | .puts, arguments, output => output.push arguments
  | _, _, output => output

end Builtin

end ScriptLang
