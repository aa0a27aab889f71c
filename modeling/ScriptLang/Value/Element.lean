import ScriptLang.Value.Dictionary

/-!
# Elements

What an array holds at an index and a hash under a key. What is not there is `null`; only a collection
of the wrong kind, or a key that cannot be one, is an error.
-/

namespace ScriptLang

/-- Why a value has no element. -/
inductive ElementError where
  | unusableHashKey (kind : Kind)
  | indexNotSupported (kind : Kind)
  deriving DecidableEq

/-- The element of an array at an index, or `null` outside. -/
def Value.elementAt (elements : List Value) (i : Int64) : Value :=
  if i < 0 then .null else elements[i.toInt.toNat]?.getD .null

/-- The element of an array or a hash. -/
def Value.element [StringHash] (collection key : Value) : Except ElementError Value :=
  match collection, key with
  | .array elements, .integer i => .ok (elementAt elements i)
  | .hash entries, _ =>
    match key.key? with
    | some k => .ok ((Dictionary.get? k entries).getD .null)
    | none => .error (.unusableHashKey key.kind)
  | _, _ => .error (.indexNotSupported collection.kind)

end ScriptLang
