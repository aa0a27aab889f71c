import ScriptLang.Syntax

/-!
# Values

What programs compute with. `Value.key?` says which values can be keys of a hash, and what the entries with these
keys are found under: the numbers and truth values themselves, but only a hash of 64 bits of a string. Hence an
entry keeps the key that it was given beside its value. A hash lists its entries by these keys
(`ScriptLang.Value.Dictionary`), so that the order of insertion leaves no trace.

Nothing is known of the hashes of strings (`StringHash`): they are a parameter of all that computes with hashes.

The two engines have functions of their own: a closure pairs a compiled function with the values it
captured, a function of the evaluator refers to the scope it was made in. Both carry the number of the
evaluation that made them, and that number alone is their identity.
-/

namespace ScriptLang

/-- The kinds of values. -/
inductive Kind where
  | null
  | integer
  | boolean
  | string
  | array
  | hash
  | error
  | builtin
  | compiledFunction
  | closure
  | function
  deriving DecidableEq

/-- The name of a kind in messages. -/
def Kind.name : Kind → String
  | .null => "NULL"
  | .integer => "INTEGER"
  | .boolean => "BOOLEAN"
  | .string => "STRING"
  | .array => "ARRAY"
  | .hash => "HASH"
  | .error => "ERROR"
  | .builtin => "BUILTIN"
  | .compiledFunction => "COMPILED_FUNCTION"
  | .closure => "CLOSURE"
  | .function => "FUNCTION"

/-- The built-in functions. -/
inductive Builtin where
  | len
  | puts
  | first
  | last
  | rest
  | push
  deriving DecidableEq

/-- The hash of a string. Two strings may have the same one. -/
class StringHash where
  hash : String → UInt64

/-- What the entries of a hash are found under. -/
inductive HashKey where
  | integer (value : Int64)
  | boolean (value : Bool)
  | string (hash : UInt64)
  deriving DecidableEq

/-- The key of an entry of a hash, for keys that are values in `α`. -/
@[ext]
structure StoredKey (α : Type) where
  /-- What the entry is found under. -/
  hashKey : HashKey
  /-- The key that was given for it. -/
  toValue : α

/-- The code of a function literal. -/
structure CompiledFunction where
  /-- The encoded instructions of the body. -/
  code : Array UInt8
  /-- How many local slots a call takes, those of the parameters included. -/
  numLocals : Nat
  /-- How many arguments a call takes. -/
  numParameters : Nat
  deriving DecidableEq

/-- Values. -/
inductive Value where
  | null
  | integer (value : Int64)
  | boolean (value : Bool)
  | string (contents : String)
  | array (elements : List Value)
  | hash (entries : List (StoredKey Value × Value))
  | error (message : String)
  | builtin (function : Builtin)
  | compiledFunction (function : CompiledFunction)
  | closure (identity : Nat) (function : CompiledFunction) (free : List Value)
  | function (identity : Nat) (parameters : List String) (body : List Stmt) (scope : Nat)

instance : Inhabited Value := ⟨.null⟩

namespace Value

/-- The kind of a value. -/
def kind : Value → Kind
  | .null => .null
  | .integer _ => .integer
  | .boolean _ => .boolean
  | .string _ => .string
  | .array _ => .array
  | .hash _ => .hash
  | .error _ => .error
  | .builtin _ => .builtin
  | .compiledFunction _ => .compiledFunction
  | .closure .. => .closure
  | .function .. => .function

/-- Whether a value counts as true: all but `null` and `false` do. -/
def isTruthy : Value → Bool
  | .null => false
  | .boolean value => value
  | _ => true

/-- Whether a value reports a failure. -/
def isError : Value → Bool
  | .error _ => true
  | _ => false

/-- What an entry with a value as its key is found under, if the value can be a key. -/
def key? [StringHash] : Value → Option HashKey
  | .integer value => some (.integer value)
  | .boolean value => some (.boolean value)
  | .string contents => some (.string (StringHash.hash contents))
  | _ => none

end Value

end ScriptLang
