import ScriptLang.Syntax.Text
import ScriptLang.Value

/-!
# Values as text

How values are printed. The entries of a hash come in the order of their texts. A closure shows a
handle instead of its code, which tells it from other closures: a number of twelve hexadecimal digits
that grows with its identity.
-/

namespace ScriptLang

/-- Texts in ascending order. -/
def sortedTexts (texts : List String) : List String := texts.mergeSort (fun s t => decide (s ≤ t))

/-- The handle of the first object. -/
def firstHandle : Nat := 0x555555554000

/-- The text of the handle of an object. All handles that a program can come to see have twelve
digits, so that their order as texts is the order of identities. -/
def handleText (identity : Nat) : String :=
  "0x" ++ String.ofList (Nat.toDigits 16 (firstHandle + 64 * identity))

mutual

/-- The text of a value. -/
def Value.text : Value → String
  | .null => "null"
  | .integer value => toString value.toInt
  | .boolean value => toString value
  | .string contents => contents
  | .array elements => "[" ++ ", ".intercalate (Value.texts [] elements) ++ "]"
  | .hash entries => braced (", ".intercalate (sortedTexts (Value.entryTexts [] entries)))
  | .error message => "ERROR: " ++ message
  | .builtin _ => "builtin function"
  -- compiled functions differ by their contents alone, and share one handle
  | .compiledFunction _ => "CompiledFunction[" ++ handleText 0 ++ "]"
  | .closure identity _ _ => "Closure[" ++ handleText identity ++ "]"
  | .function _ parameters body _ => functionText none parameters (blockText body)

/-- The texts of some values, behind those of `acc`, which holds the last one first. -/
def Value.texts (acc : List String) : List Value → List String
  | [] => acc.reverse
  | v :: vs => Value.texts (v.text :: acc) vs

/-- The texts of the entries of a hash, behind those of `acc`. -/
def Value.entryTexts (acc : List String) : List (StoredKey Value × Value) → List String
  | [] => acc.reverse
  | (⟨_, key⟩, value) :: entries => Value.entryTexts ((key.text ++ ": " ++ value.text) :: acc) entries

end

namespace Value

/-- The text of an entry of a hash. -/
def entryText (entry : StoredKey Value × Value) : String := entry.1.toValue.text ++ ": " ++ entry.2.text

theorem texts_eq_map (acc : List String) (vs : List Value) : texts acc vs = acc.reverse ++ vs.map text := by
  induction vs generalizing acc with
  | nil => exact (List.append_nil _).symm
  | cons v vs ih => rw [texts, ih, List.reverse_cons, List.append_assoc, List.map_cons, List.singleton_append]

theorem entryTexts_eq_map (acc : List String) (entries : List (StoredKey Value × Value)) :
    entryTexts acc entries = acc.reverse ++ entries.map entryText := by
  induction entries generalizing acc with
  | nil => exact (List.append_nil _).symm
  | cons e entries ih =>
      rw [entryTexts, ih, List.reverse_cons, List.append_assoc, List.map_cons, List.singleton_append,
        entryText]

/-- An array shows its elements in brackets. -/
theorem text_array (elements : List Value) :
    (array elements).text = "[" ++ ", ".intercalate (elements.map text) ++ "]" := by
  show "[" ++ ", ".intercalate (texts [] elements) ++ "]" = _
  rw [texts_eq_map, List.reverse_nil, List.nil_append]

/-- A hash shows its entries in braces, in the order of their texts. -/
theorem text_hash (entries : List (StoredKey Value × Value)) :
    (hash entries).text = braced (", ".intercalate (sortedTexts (entries.map entryText))) := by
  show braced (", ".intercalate (sortedTexts (entryTexts [] entries))) = _
  rw [entryTexts_eq_map, List.reverse_nil, List.nil_append]

end Value

end ScriptLang
