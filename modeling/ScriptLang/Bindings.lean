/-!
# Bindings of names

`Bindings α` gives some names a value each. It is an association list without repeated names, the
latest binding first: `get?` is how it is seen, `insert` replaces what the name stood for.
-/

namespace ScriptLang

/-- What some names stand for. -/
abbrev Bindings (α : Type) := List (String × α)

namespace Bindings

variable {α : Type}

/-- What `name` stands for, if it is bound. -/
def get? (name : String) : Bindings α → Option α
  | [] => none
  | (other, value) :: rest => if other = name then some value else get? name rest

/-- Makes `name` stand for `value`. -/
def insert (name : String) (value : α) (bindings : Bindings α) : Bindings α :=
  (name, value) :: bindings.filter (·.1 ≠ name)

@[simp] theorem get?_nil (name : String) : get? name ([] : Bindings α) = none := rfl

/-- Taking a name out does not matter to other names. -/
theorem get?_filter_ne {name other : String} (h : other ≠ name) :
    ∀ bindings : Bindings α, get? other (bindings.filter (·.1 ≠ name)) = get? other bindings
  | [] => rfl
  | (first, value) :: rest => by
    have ih := get?_filter_ne h rest
    by_cases hf : first = name
    · subst hf
      simp only [ne_eq, decide_not] at ih
      simp [get?, Ne.symm h, ih]
    · simp only [ne_eq, decide_not] at ih
      simp [hf, get?, ih]

/-- A name stands for what was inserted last. -/
@[simp] theorem get?_insert_self (name : String) (value : α) (bindings : Bindings α) :
    get? name (insert name value bindings) = some value := by simp [insert, get?]

theorem get?_insert_of_ne {name other : String} (h : other ≠ name) (value : α)
    (bindings : Bindings α) : get? other (insert name value bindings) = get? other bindings := by
  rw [insert, get?, if_neg (Ne.symm h), get?_filter_ne h]

end Bindings

end ScriptLang
