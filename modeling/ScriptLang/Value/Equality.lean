import ScriptLang.Value

/-!
# Equality of values

`Value.same` compares data by contents, and compiled functions by their code. Closures and functions are
the same only if the same evaluation made them.
-/

namespace ScriptLang

mutual

/-- Whether two values are equal for the operator `==`. -/
def Value.same : Value → Value → Bool
  | .null, .null => true
  | .integer m, .integer n => m == n
  | .boolean a, .boolean b => a == b
  | .string s, .string t => s == t
  | .array vs, .array ws => Value.sameElements vs ws
  | .hash es, .hash fs => Value.sameEntries es fs
  | .error s, .error t => s == t
  | .builtin f, .builtin g => f == g
  | .compiledFunction f, .compiledFunction g => f == g
  | .closure i _ _, .closure j _ _ => i == j
  | .function i _ _ _, .function j _ _ _ => i == j
  | _, _ => false

/-- Whether two lists of values are equal element by element. -/
def Value.sameElements : List Value → List Value → Bool
  | [], [] => true
  | v :: vs, w :: ws => Value.same v w && Value.sameElements vs ws
  | _, _ => false

/-- Whether two hashes have equal keys and values in their entries. -/
def Value.sameEntries : List (StoredKey Value × Value) → List (StoredKey Value × Value) → Bool
  | [], [] => true
  | (⟨k, key⟩, v) :: es, (⟨l, key'⟩, w) :: fs =>
    k == l && Value.same key key' && Value.same v w && Value.sameEntries es fs
  | _, _ => false

end

instance : BEq Value := ⟨Value.same⟩

end ScriptLang
