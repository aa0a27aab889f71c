import ScriptLang.Evaluator

/-!
# Scopes of functions in values

A function refers to the scope that it was made in by a number. `Value.renumber` gives the scopes of all
functions in a value other numbers, and `Value.ForFunctions` says something of all functions in a value, at
any depth inside arrays and hashes.

What the evaluator does with values does not depend on these numbers: each of its operations commutes with
`Value.renumber`. Hence an operation makes no function of its own either, since what holds of the functions in
its operands is a fixed point of a renumbering (`Value.forFunctions_iff_renumber`).
-/

namespace ScriptLang

/-- The key that is another value, under the same `HashKey`. -/
def StoredKey.map {α β : Type} (f : α → β) (key : StoredKey α) : StoredKey β := ⟨key.hashKey, f key.toValue⟩

namespace Value

/-! ## Renumbering

Renumbering changes the scopes of functions and nothing else in a value, wherever the functions are. Values
are nested through lists, so the definitions come with their counterparts for lists, and the lemmas below say
that these are the usual `List.map` and `∀ v ∈ vs`. -/

mutual

/-- A value in which the functions have other scopes. The new number may depend on the identity of the
function and on the old number. -/
def renumber (f : Nat → Nat → Nat) : Value → Value
  | .null => .null
  | .integer value => .integer value
  | .boolean value => .boolean value
  | .string contents => .string contents
  | .array elements => .array (renumberAll f elements)
  | .hash entries => .hash (renumberEntries f entries)
  | .error message => .error message
  | .builtin b => .builtin b
  | .compiledFunction code => .compiledFunction code
  | .closure identity code free => .closure identity code (renumberAll f free)
  | .function identity parameters body scope => .function identity parameters body (f identity scope)

def renumberAll (f : Nat → Nat → Nat) : List Value → List Value
  | [] => []
  | v :: vs => v.renumber f :: renumberAll f vs

def renumberEntries (f : Nat → Nat → Nat) : List (StoredKey Value × Value) → List (StoredKey Value × Value)
  | [] => []
  | (⟨hashKey, key⟩, v) :: entries => (⟨hashKey, key.renumber f⟩, v.renumber f) :: renumberEntries f entries

end

mutual

/-- Something holds of the identity and the scope of every function in a value. -/
def ForFunctions (p : Nat → Nat → Prop) : Value → Prop
  | .null | .integer _ | .boolean _ | .string _ | .error _ | .builtin _ | .compiledFunction _ => True
  | .array elements => AllForFunctions p elements
  | .hash entries => EntriesForFunctions p entries
  | .closure _ _ free => AllForFunctions p free
  | .function identity _ _ scope => p identity scope

def AllForFunctions (p : Nat → Nat → Prop) : List Value → Prop
  | [] => True
  | v :: vs => v.ForFunctions p ∧ AllForFunctions p vs

def EntriesForFunctions (p : Nat → Nat → Prop) : List (StoredKey Value × Value) → Prop
  | [] => True
  | (⟨_, key⟩, v) :: entries => key.ForFunctions p ∧ v.ForFunctions p ∧ EntriesForFunctions p entries

end

/-- An entry of a hash in which the functions have other scopes. -/
def renumberEntry (f : Nat → Nat → Nat) : StoredKey Value × Value → StoredKey Value × Value :=
  Prod.map (StoredKey.map (renumber f)) (renumber f)

/-- A value without the numbers of scopes. -/
def erase (v : Value) : Value := v.renumber fun _ _ => 0

variable {f g : Nat → Nat → Nat} {p q : Nat → Nat → Prop} {v w : Value} {vs : List Value}
  {entries : List (StoredKey Value × Value)}

@[simp] theorem renumberAll_eq_map : ∀ vs : List Value, renumberAll f vs = vs.map (renumber f)
  | [] => rfl
  | v :: vs => congrArg (v.renumber f :: ·) (renumberAll_eq_map vs)

@[simp] theorem renumberEntries_eq_map : ∀ entries : List (StoredKey Value × Value),
    renumberEntries f entries = entries.map (renumberEntry f)
  | [] => rfl
  | entry :: entries => congrArg (renumberEntry f entry :: ·) (renumberEntries_eq_map entries)

@[simp] theorem allForFunctions_iff : ∀ vs : List Value, AllForFunctions p vs ↔ ∀ v ∈ vs, v.ForFunctions p
  | [] => by simp [AllForFunctions]
  | v :: vs => by simp [AllForFunctions, allForFunctions_iff vs]

@[simp] theorem entriesForFunctions_iff : ∀ entries : List (StoredKey Value × Value),
    EntriesForFunctions p entries ↔
      ∀ entry ∈ entries, entry.1.toValue.ForFunctions p ∧ entry.2.ForFunctions p
  | [] => by simp [EntriesForFunctions]
  | (key, v) :: entries => by simp [EntriesForFunctions, entriesForFunctions_iff entries, and_assoc]

/-! ## Induction -/

section

variable {motive : Value → Prop}
  (null : motive .null) (integer : ∀ value, motive (.integer value))
  (boolean : ∀ value, motive (.boolean value)) (string : ∀ contents, motive (.string contents))
  (array : ∀ elements, (∀ v ∈ elements, motive v) → motive (.array elements))
  (hash : ∀ entries, (∀ entry ∈ entries, motive entry.1.toValue ∧ motive entry.2) → motive (.hash entries))
  (error : ∀ message, motive (.error message)) (builtin : ∀ b, motive (.builtin b))
  (compiledFunction : ∀ code, motive (.compiledFunction code))
  (closure : ∀ identity code free, (∀ v ∈ free, motive v) → motive (.closure identity code free))
  (function : ∀ identity parameters body scope, motive (.function identity parameters body scope))

include null integer boolean string array hash error builtin compiledFunction closure function

/-- Induction on values, with the elements of a collection at once. -/
@[elab_as_elim]
theorem byElements (v : Value) : motive v := by
  -- the lists inside of values have motives of their own
  apply @Value.rec motive (fun vs => ∀ v ∈ vs, motive v)
    (fun entries => ∀ entry ∈ entries, motive entry.1.toValue ∧ motive entry.2)
    (fun entry => motive entry.1.toValue ∧ motive entry.2) (fun key => motive key.toValue)
  all_goals first | assumption | skip
  · exact List.forall_mem_nil _
  · exact fun v vs hv hvs => List.forall_mem_cons.mpr ⟨hv, hvs⟩
  · exact List.forall_mem_nil _
  · exact fun entry entries hentry hentries => List.forall_mem_cons.mpr ⟨hentry, hentries⟩
  · exact fun _ _ hkey hv => ⟨hkey, hv⟩
  · exact fun _ _ h => h

end

/-! ## Laws

Renumbering is an action of the functions on numbers: it composes, and the identity does nothing. What holds
of all functions in a value is the fixed point of a renumbering, so facts about functions need no induction of
their own. -/

theorem renumberEntry_eq_iff {e e' : StoredKey Value × Value} : renumberEntry f e = e' ↔
    e.1.hashKey = e'.1.hashKey ∧ e.1.toValue.renumber f = e'.1.toValue ∧ e.2.renumber f = e'.2 := by
  rw [renumberEntry, Prod.ext_iff, StoredKey.ext_iff, and_assoc]
  rfl

/-- Two renumberings agree on a value if they agree on its functions. -/
theorem renumber_eq_renumber_iff : v.renumber f = v.renumber g ↔
    v.ForFunctions fun identity scope => f identity scope = g identity scope := by
  induction v using byElements with
  | array elements ih => simpa [renumber, ForFunctions] using forall₂_congr ih
  | hash entries ih =>
      simp only [renumber, ForFunctions, renumberEntries_eq_map, entriesForFunctions_iff, hash.injEq,
        List.map_inj_left]
      refine forall₂_congr fun entry hentry => ?_
      rw [← (ih entry hentry).1, ← (ih entry hentry).2, renumberEntry_eq_iff]
      exact and_iff_right rfl
  | closure identity code free ih => simpa [renumber, ForFunctions] using forall₂_congr ih
  | function => simp [renumber, ForFunctions]
  | _ => simp [renumber, ForFunctions]

/-- Renumbering twice is renumbering once. -/
theorem renumber_renumber : (v.renumber f).renumber g =
    v.renumber fun identity scope => g identity (f identity scope) := by
  induction v using byElements with
  | array elements ih => simpa [renumber] using ih
  | hash entries ih =>
      simp only [renumber, renumberEntries_eq_map, List.map_map, hash.injEq, List.map_inj_left]
      exact fun entry hentry => renumberEntry_eq_iff.mpr ⟨rfl, ih entry hentry⟩
  | closure identity code free ih => simpa [renumber] using ih
  | _ => rfl

@[simp] theorem renumber_self : (v.renumber fun _ scope => scope) = v := by
  induction v using byElements with
  | array elements ih => simpa [renumber] using List.map_congr_left (g := id) ih
  | hash entries ih =>
      have hentries : entries.map (renumberEntry fun _ scope => scope) = entries.map id :=
        List.map_congr_left fun entry hentry => renumberEntry_eq_iff.mpr ⟨rfl, ih entry hentry⟩
      rw [renumber, renumberEntries_eq_map]
      exact congrArg hash (hentries.trans (List.map_id _))
  | closure identity code free ih => simpa [renumber] using List.map_congr_left (g := id) ih
  | _ => rfl

@[simp] theorem erase_renumber : (v.renumber f).erase = v.erase := renumber_renumber

theorem renumber_congr (h : v.ForFunctions fun identity scope => f identity scope = g identity scope) :
    v.renumber f = v.renumber g := renumber_eq_renumber_iff.mpr h

/-- What holds of all functions in a value may be weakened. -/
theorem ForFunctions.mono (h : v.ForFunctions p) (hpq : ∀ identity scope, p identity scope → q identity scope) :
    v.ForFunctions q := by
  induction v using byElements with
  | array elements ih =>
      simp only [ForFunctions, allForFunctions_iff] at h ⊢
      exact fun v hv => ih v hv (h v hv)
  | hash entries ih =>
      simp only [ForFunctions, entriesForFunctions_iff] at h ⊢
      exact fun entry hentry => (h entry hentry).imp (ih entry hentry).1 (ih entry hentry).2
  | closure identity code free ih =>
      simp only [ForFunctions, allForFunctions_iff] at h ⊢
      exact fun v hv => ih v hv (h v hv)
  | function identity parameters body scope => exact hpq identity scope h
  | _ => exact trivial

open Classical in
/-- A renumbering that leaves a function alone if `p` holds of it, and no other one. -/
noncomputable def pin (p : Nat → Nat → Prop) (identity scope : Nat) : Nat :=
  if p identity scope then scope else scope + 1

/-- What holds of all functions in a value is a fixed point of a renumbering. -/
theorem forFunctions_iff_renumber : v.ForFunctions p ↔ v.renumber (pin p) = v := by
  have hpin : (fun identity scope => pin p identity scope = scope) = p := by
    funext identity scope
    simp [pin]
  rw [← hpin, ← renumber_eq_renumber_iff, renumber_self, hpin]

/-! ## Kinds, keys and equality

None of the questions that the evaluator asks of values looks at the scope of a function. -/

@[simp] theorem kind_renumber : (v.renumber f).kind = v.kind := by
  cases v <;> rfl

@[simp] theorem isTruthy_renumber : (v.renumber f).isTruthy = v.isTruthy := by
  cases v <;> rfl

/-- Functions are no keys of hashes, so a renumbered value can be used for the same entries. -/
@[simp] theorem key?_renumber [StringHash] : (v.renumber f).key? = v.key? := by
  cases v <;> rfl

@[simp] theorem before_renumber : (v.renumber f).before (w.renumber f) = v.before w := by
  cases v <;> cases w <;> rfl

/-- Lists are compared element by element. -/
theorem sameElements_map {vs ws : List Value}
    (h : ∀ v ∈ vs, ∀ w, (v.renumber f).same (w.renumber f) = v.same w) :
    sameElements (vs.map (renumber f)) (ws.map (renumber f)) = sameElements vs ws := by
  induction vs generalizing ws with
  | nil => cases ws <;> rfl
  | cons v vs ih =>
      obtain ⟨hv, hvs⟩ := List.forall_mem_cons.mp h
      cases ws with
      | nil => rfl
      | cons w ws => simp only [List.map_cons, sameElements, hv, ih hvs]

/-- Hashes are compared entry by entry, keys first. -/
theorem sameEntries_map {es fs : List (StoredKey Value × Value)}
    (h : ∀ entry ∈ es, (∀ w, (entry.1.toValue.renumber f).same (w.renumber f) = entry.1.toValue.same w) ∧
      ∀ w, (entry.2.renumber f).same (w.renumber f) = entry.2.same w) :
    sameEntries (es.map (renumberEntry f)) (fs.map (renumberEntry f)) = sameEntries es fs := by
  induction es generalizing fs with
  | nil => cases fs <;> rfl
  | cons e es ih =>
      obtain ⟨he, hes⟩ := List.forall_mem_cons.mp h
      cases fs with
      | nil => rfl
      | cons e' fs =>
          have hkey : (renumberEntry f e).1.toValue.same (renumberEntry f e').1.toValue =
              e.1.toValue.same e'.1.toValue := he.1 _
          have hvalue : (renumberEntry f e).2.same (renumberEntry f e').2 = e.2.same e'.2 := he.2 _
          rw [List.map_cons, List.map_cons, sameEntries, hkey, hvalue, ih hes, sameEntries]
          rfl

/-- The identity alone tells functions apart. -/
@[simp] theorem same_renumber : (v.renumber f == w.renumber f) = (v == w) := by
  show (v.renumber f).same (w.renumber f) = v.same w
  induction v using byElements generalizing w with
  | array elements ih =>
      cases w with
      | array ws => simpa [renumber, same] using sameElements_map ih
      | _ => rfl
  | hash entries ih =>
      cases w with
      | hash fs =>
          simpa [renumber, same] using sameEntries_map fun e he => ⟨fun _ => (ih e he).1, fun _ => (ih e he).2⟩
      | _ => rfl
  | _ => cases w <;> rfl

/-! ## Texts -/

/-- No function shows its scope. -/
@[simp] theorem text_renumber : (v.renumber f).text = v.text := by
  induction v using byElements with
  | array elements ih =>
      have htexts : elements.map (text ∘ renumber f) = elements.map text := List.map_congr_left ih
      rw [renumber, renumberAll_eq_map, text_array, text_array, List.map_map, htexts]
  | hash entries ih =>
      have htexts : entries.map (entryText ∘ renumberEntry f) = entries.map entryText :=
        List.map_congr_left fun e he => by
          show (e.1.toValue.renumber f).text ++ ": " ++ (e.2.renumber f).text = _
          rw [(ih e he).1, (ih e he).2, entryText]
      rw [renumber, renumberEntries_eq_map, text_hash, text_hash, List.map_map, htexts]
  | _ => rfl

end Value

/-! ## Collections

Looking up and inserting commute with changes of the values, and with changes of the keys that keep their
order. -/

namespace Dictionary

variable {α β : Type} (g : Value → Value) (f : α → β)

/-- The hash key alone decides which entry is found. -/
theorem get?_map (key : HashKey) (entries : Dictionary α) :
    get? key (entries.map (Prod.map (StoredKey.map g) f)) = (get? key entries).map f := by
  have hpair : pair? key (entries.map (Prod.map (StoredKey.map g) f)) =
      (pair? key entries).map (Prod.map (StoredKey.map g) f) := List.find?_map ..
  rw [get?, hpair, get?, Option.map_map, Option.map_map]
  rfl

/-- An entry is placed by the order of keys. -/
theorem place_map (hg : ∀ v w, (g v).before (g w) = v.before w) (entry : StoredKey Value × α)
    (entries : Dictionary α) : place (Prod.map (StoredKey.map g) f entry)
      (entries.map (Prod.map (StoredKey.map g) f)) = (place entry entries).map (Prod.map (StoredKey.map g) f) := by
  induction entries with
  | nil => rfl
  | cons other entries ih =>
      have hbefore : (Prod.map (StoredKey.map g) f entry).1.toValue.before
          (Prod.map (StoredKey.map g) f other).1.toValue = entry.1.toValue.before other.1.toValue := hg _ _
      rw [List.map_cons, place, hbefore, place]
      split
      · rfl
      · exact congrArg _ ih

/-- What leaves the order of keys as it is can be done before or after an entry is put. -/
theorem insert_map (hg : ∀ v w, (g v).before (g w) = v.before w) (stored : StoredKey Value) (a : α)
    (entries : Dictionary α) : insert (stored.map g) (f a) (entries.map (Prod.map (StoredKey.map g) f)) =
      (insert stored a entries).map (Prod.map (StoredKey.map g) f) := by
  have herase : erase stored.hashKey (entries.map (Prod.map (StoredKey.map g) f)) =
      (erase stored.hashKey entries).map (Prod.map (StoredKey.map g) f) := List.filter_map ..
  rw [insert, insert, ← place_map g f hg, ← herase]
  rfl

end Dictionary

namespace Bindings

variable {α β : Type} (f : α → β)

/-- The name alone decides which value is found. -/
theorem get?_map (name : String) (bindings : Bindings α) :
    get? name (bindings.map (Prod.map id f)) = (get? name bindings).map f := by
  induction bindings with
  | nil => rfl
  | cons b bindings ih =>
      rw [List.map_cons, get?, get?, ih]
      simp only [Prod.map, id]
      split <;> rfl

/-- A value can be changed before or after it is bound to a name. -/
theorem insert_map (name : String) (a : α) (bindings : Bindings α) :
    insert name (f a) (bindings.map (Prod.map id f)) = (insert name a bindings).map (Prod.map id f) := by
  rw [insert, insert, List.map_cons, List.filter_map]
  rfl

end Bindings

namespace Value

variable {f : Nat → Nat → Nat}

theorem getD_renumber (o : Option Value) : (o.map (renumber f)).getD .null = (o.getD .null).renumber f := by
  cases o <;> rfl

/-- What is found in a renumbered hash is the renumbered value. -/
theorem get?_renumber (key : HashKey) (entries : Dictionary Value) :
    Dictionary.get? key (entries.map (renumberEntry f)) = (Dictionary.get? key entries).map (renumber f) :=
  Dictionary.get?_map (renumber f) (renumber f) key entries

/-- Indexing commutes with renumbering. -/
theorem element_renumber [StringHash] (collection key : Value) :
    (collection.renumber f).element (key.renumber f) = (collection.element key).map (renumber f) := by
  cases collection with
  | array elements =>
      cases key with
      | integer i =>
          simp only [renumber, element, elementAt, renumberAll_eq_map, List.getElem?_map, getD_renumber,
            Except.map]
          split <;> rfl
      | _ => rfl
  | hash entries =>
      simp only [renumber, element, key?_renumber, kind_renumber, renumberEntries_eq_map, get?_renumber]
      cases key.key? with
      | some k => exact congrArg Except.ok (getD_renumber _)
      | none => rfl
  | _ => rfl

end Value

/-! ## Built-in functions -/

/-- Built-in functions move values around or look at their kinds and sizes. -/
theorem Builtin.result_renumber (b : Builtin) (f : Nat → Nat → Nat) (arguments : List Value) :
    b.result (arguments.map (Value.renumber f)) = (b.result arguments).renumber f := by
  rcases arguments with _ | ⟨v, _ | ⟨w, rest⟩⟩
  · cases b <;> rfl
  · cases b with
    | len | puts | push => cases v <;> simp [result, Value.renumber, Value.kind, arityError]
    | first | last => cases v <;> simp [result, Value.renumber, arrayError, Value.getD_renumber, Value.kind]
    | rest =>
        cases v with
        | array elements => cases elements <;> simp [result, Value.renumber]
        | _ => rfl
  · cases b with
    | push =>
        cases rest with
        | nil => cases v <;> simp [result, Value.renumber, arrayError, Value.kind]
        | cons => simp [result, Value.renumber, arityError]
    | _ => simp [result, Value.renumber, arityError]

/-- What is printed shows no scope. -/
theorem Builtin.text_print_renumber (b : Builtin) (f : Nat → Nat → Nat) (arguments : List Value)
    {output output' : Output} (h : output'.text = output.text) :
    (b.print (arguments.map (Value.renumber f)) output').text = (b.print arguments output).text := by
  cases b with
  | puts =>
      unfold Output.text at h
      simp [print, Output.text, h, List.foldl_map]
  | _ => exact h

/-! ## Operators

An operator yields a value, or it fails for kinds that a renumbering leaves as they are. -/

namespace EvalM

variable {f : Nat → Nat → Nat}

/-- Two steps fail with the same error, or they yield a value and the one with other numbers in it. Neither
looks at the state. -/
def Shifts (f : Nat → Nat → Nat) (x y : EvalM Value) : Prop :=
  (∃ e, x = fail e ∧ y = fail e) ∨ ∃ v, x = pure v ∧ y = pure (v.renumber f)

/-- Prefix operators look at the kind of their operand, or at an integer. -/
theorem unary_shifts (operator : Operator) (v : Value) :
    Shifts f (unary operator v) (unary operator (v.renumber f)) := by
  cases operator with
  | bang =>
      refine .inr ⟨_, rfl, ?_⟩
      rw [unary, Value.isTruthy_renumber]
      rfl
  | minus =>
      cases v with
      | integer n => exact .inr ⟨_, rfl, rfl⟩
      | _ => exact .inl ⟨_, rfl, rfl⟩
  | _ =>
      refine .inl ⟨_, rfl, ?_⟩
      rw [unary, Value.kind_renumber]
      all_goals exact nofun

theorem integerBinary_shifts (operator : Operator) (l r : Int64) :
    Shifts f (integerBinary operator l r) (integerBinary operator l r) := by
  cases operator with
  | slash =>
      simp only [integerBinary]
      split
      · exact .inl ⟨_, rfl, rfl⟩
      · exact .inr ⟨_, rfl, rfl⟩
  | bang => exact .inl ⟨_, rfl, rfl⟩
  | _ => exact .inr ⟨_, rfl, rfl⟩

/-- An operator between operands that are not both integers, nor strings to be put together. -/
theorem binary_eq {operator : Operator} {left right : Value}
    (hintegers : ∀ l r, left = .integer l → right ≠ .integer r)
    (hstrings : ∀ s t, operator = .plus → left = .string s → right ≠ .string t) :
    binary operator left right = match operator with
      | .equal => pure (.boolean (left == right))
      | .notEqual => pure (.boolean (left != right))
      | _ =>
        if left.kind = right.kind then fail (.unknownBinaryOperator left.kind operator right.kind)
        else fail (.typeMismatch left.kind operator right.kind) := by
  unfold binary
  split
  · exact absurd rfl (hintegers _ _ rfl)
  · exact absurd rfl (hstrings _ _ rfl rfl)
  · rfl
  · rfl
  · next hequal hnot _ _ => cases operator <;> first | rfl | exact absurd rfl hequal | exact absurd rfl hnot

theorem binary_shifts (operator : Operator) (left right : Value) :
    Shifts f (binary operator left right) (binary operator (left.renumber f) (right.renumber f)) := by
  by_cases hintegers : ∃ l r, left = .integer l ∧ right = .integer r
  · obtain ⟨l, r, rfl, rfl⟩ := hintegers
    exact integerBinary_shifts operator l r
  by_cases hstrings : ∃ s t, operator = .plus ∧ left = .string s ∧ right = .string t
  · obtain ⟨s, t, rfl, rfl, rfl⟩ := hstrings
    exact .inr ⟨_, rfl, rfl⟩
  rw [binary_eq (by grind) (by grind), binary_eq]
  · cases operator <;> simp only [Value.kind_renumber, bne, Value.same_renumber] <;>
      first
      | exact .inr ⟨_, rfl, rfl⟩
      | split <;> exact .inl ⟨_, rfl, rfl⟩
  · intro l r hl hr
    cases left <;> cases right <;> cases hl <;> cases hr
    exact hintegers ⟨_, _, rfl, rfl⟩
  · intro s t hop hs ht
    cases left <;> cases right <;> cases hs <;> cases ht
    exact hstrings ⟨_, _, hop, rfl, rfl⟩

/-- Indexing fails for the same reason, or yields the renumbered element. -/
theorem element_shifts [StringHash] (collection key : Value) :
    Shifts f (element collection key) (element (collection.renumber f) (key.renumber f)) := by
  rw [element, element, Value.element_renumber]
  cases collection.element key with
  | ok v => exact .inr ⟨_, rfl, rfl⟩
  | error e => cases e <;> exact .inl ⟨_, rfl, rfl⟩

end EvalM

end ScriptLang
