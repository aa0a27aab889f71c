import ScriptLang.Proofs.Compiler.WellFormed
import ScriptLang.Proofs.Machine.Steps

/-!
# Values that compiled code can work with

`Value.Safe pool v` says that every closure inside `v` is made of a function of the pool and of as many
captured values as its code refers to. Main statement: `Instruction.Valid.result` — an instruction that
refers to what exists, and finds safe values, has a safe result, or fails with an error that the language
has a meaning for.
-/

namespace ScriptLang

/-! ## Errors -/

/-- Whether an error is due to what a program computes, and not to how it was compiled. -/
def RuntimeError.isLegitimate : RuntimeError → Bool
  | .stackOverflow | .frameOverflow | .wrongArgumentCount _ _ | .notCallable _
  | .unsupportedBinaryTypes _ _ | .unknownOperator _ _ _ | .unsupportedNegation _
  | .unusableHashKey _ | .indexNotSupported _ | .divisionByZero => true
  | .stackUnderflow | .notAFunction _ | .unknownOpcode _ | .noFreeVariable _
  | .noCurrentClosure => false

/-! ## Safe values

A closure refers to its captured values by number, and to a function of the pool. What makes running it safe
is therefore a property of the value, which the machine keeps up wherever values are put together or taken
apart. -/

/-- Every closure inside a value is made of a function of the pool, and has captured as many values as the
code of that function refers to. -/
inductive Value.Safe (pool : Array Value) : Value → Prop where
  | data {v : Value} : v.kind ≠ .array → v.kind ≠ .hash → v.kind ≠ .closure → Safe pool v
  | array {elements : List Value} : (∀ v ∈ elements, Safe pool v) → Safe pool (.array elements)
  | hash {entries : List (StoredKey Value × Value)} :
      (∀ e ∈ entries, Safe pool e.1.toValue) → (∀ e ∈ entries, Safe pool e.2) → Safe pool (.hash entries)
  | closure {identity : Nat} {f : CompiledFunction} {free : List Value} :
      .compiledFunction f ∈ pool.toList → Code.FreeBelow f.code free.length → (∀ v ∈ free, Safe pool v) →
      Safe pool (.closure identity f free)

namespace Value.Safe

variable {pool pool' : Array Value}

theorem null : Safe pool .null := .data (by simp [kind]) (by simp [kind]) (by simp [kind])

theorem integer (value : Int64) : Safe pool (.integer value) :=
  .data (by simp [kind]) (by simp [kind]) (by simp [kind])

theorem boolean (value : Bool) : Safe pool (.boolean value) :=
  .data (by simp [kind]) (by simp [kind]) (by simp [kind])

theorem string (contents : String) : Safe pool (.string contents) :=
  .data (by simp [kind]) (by simp [kind]) (by simp [kind])

theorem error (message : String) : Safe pool (.error message) :=
  .data (by simp [kind]) (by simp [kind]) (by simp [kind])

theorem builtin (b : Builtin) : Safe pool (.builtin b) :=
  .data (by simp [kind]) (by simp [kind]) (by simp [kind])

/-- Values stay safe when constants are added. -/
theorem mono {v : Value} (h : Safe pool v) (hpool : pool.toList <+: pool'.toList) : Safe pool' v := by
  induction h with
  | data h₁ h₂ h₃ => exact .data h₁ h₂ h₃
  | array _ ih => exact .array ih
  | hash _ _ ihkeys ihvalues => exact .hash ihkeys ihvalues
  | closure hf hfree _ ih => exact .closure (hpool.subset hf) hfree ih

/-- The elements of a safe array are safe. -/
theorem of_array {elements : List Value} (h : Safe pool (.array elements)) :
    ∀ v ∈ elements, Safe pool v := by
  cases h with
  | data h => exact absurd rfl h
  | array h => exact h

/-- The keys and values of a safe hash are safe. -/
theorem of_hash {entries : List (StoredKey Value × Value)} (h : Safe pool (.hash entries)) :
    ∀ e ∈ entries, Safe pool e.1.toValue ∧ Safe pool e.2 := by
  cases h with
  | data _ h => exact absurd rfl h
  | hash hkeys hvalues => exact fun e he => ⟨hkeys e he, hvalues e he⟩

/-- A safe closure has a function of the pool, and captured as many safe values as its code refers to. -/
theorem of_closure {identity : Nat} {f : CompiledFunction} {free : List Value}
    (h : Safe pool (.closure identity f free)) :
    .compiledFunction f ∈ pool.toList ∧ Code.FreeBelow f.code free.length ∧ ∀ v ∈ free, Safe pool v := by
  cases h with
  | data _ _ h => exact absurd rfl h
  | closure hf hfree h => exact ⟨hf, hfree, h⟩

end Value.Safe

/-- The values of all slots are safe. -/
def SafeSlots (pool : Array Value) {n : Nat} (slots : Vector Value n) : Prop :=
  ∀ k : Nat, (slots[k]?.getD Value.null).Safe pool

namespace SafeSlots

variable {pool : Array Value} {n : Nat} {slots : Vector Value n}

/-- Storing a safe value. -/
theorem set (h : SafeSlots pool slots) {v : Value} (hv : v.Safe pool) (k : Nat) :
    SafeSlots pool (slots.setIfInBounds k v) := by
  intro j
  rw [Vector.getElem?_setIfInBounds]
  by_cases hj : k = j
  · by_cases hn : k < n
    · simpa [hj, hj ▸ hn] using hv
    · simpa [hj, hj ▸ hn] using Value.Safe.null
  · simpa [hj] using h j

/-- Clearing slots, as a call does with its locals. -/
theorem clear {slots : Vector Value stackSize} (h : SafeSlots pool slots) (start : Nat) :
    ∀ n, SafeSlots pool (MachineM.clear start n slots)
  | 0 => h
  | n + 1 => clear (h.set .null (start + n)) start n

/-- Slots as they are at the start. -/
theorem replicate (pool : Array Value) (n : Nat) : SafeSlots pool (Vector.replicate n Value.null) := by
  intro k
  rw [Vector.getElem?_replicate]
  split <;> exact .null

theorem mono {pool' : Array Value} (h : SafeSlots pool slots) (hpool : pool.toList <+: pool'.toList) :
    SafeSlots pool' slots := fun k => (h k).mono hpool

end SafeSlots

/-! ## Collections

Taking a value out of a collection, and building a hash from what is on the stack. -/

section collections

variable {pool : Array Value}

/-- An element of safe values, or `null` where there is none. -/
theorem safe_getD {vs : List Value} (h : ∀ v ∈ vs, v.Safe pool) (k : Nat) :
    (vs[k]?.getD .null).Safe pool := by
  cases hv : vs[k]? with
  | none => exact .null
  | some v => exact h v (List.mem_of_getElem? hv)

/-- A hash keeps safe keys and safe values. -/
theorem Value.hashOfPairs_safe [StringHash] : ∀ (pairs : List (Value × Value)) {entries : Dictionary Value} {v : Value},
    (∀ e ∈ entries, e.1.toValue.Safe pool ∧ e.2.Safe pool) → (∀ p ∈ pairs, p.1.Safe pool ∧ p.2.Safe pool) →
    Value.hashOfPairs entries pairs = .ok v → v.Safe pool
  | [], entries, v, he, _, h => by
      cases h
      exact .hash (fun e hmem => (he e hmem).1) fun e hmem => (he e hmem).2
  | (key, value) :: rest, entries, v, he, hp, h => by
      rw [hashOfPairs] at h
      cases hk : key.key? with
      | none =>
          rw [hk] at h
          cases h
      | some k =>
          rw [hk] at h
          refine hashOfPairs_safe rest (fun e hmem => ?_) (fun p hmem => hp p (List.mem_cons_of_mem _ hmem)) h
          rcases Dictionary.mem_insert.mp hmem with rfl | ⟨hmem, -⟩
          · exact hp (key, value) List.mem_cons_self
          · exact he e hmem

/-- The keys and values of the pairs were on the stack. -/
theorem MachineM.mem_of_mem_pairUp {p : Value × Value} : ∀ {items : List Value},
    p ∈ MachineM.pairUp items → p.1 ∈ items ∧ p.2 ∈ items
  | key :: value :: rest, h => by
      rcases List.mem_cons.mp h with rfl | h
      · simp
      · exact (mem_of_mem_pairUp h).imp (fun h => List.mem_cons_of_mem _ (List.mem_cons_of_mem _ h))
          fun h => List.mem_cons_of_mem _ (List.mem_cons_of_mem _ h)

/-! ## Results of operations

Every operation has a safe result if its operands are safe. Where operands do not suit, its error is one that
the language has a meaning for. -/

/-- A result is safe, and an error is a legitimate one. -/
def SafeResult (pool : Array Value) : Except RuntimeError Value → Prop
  | .ok v => v.Safe pool
  | .error e => e.isLegitimate = true

/-- Numbers and strings are safe whatever they are. -/
theorem Opcode.arithmeticResult_safe (op : Opcode) (left right : Value) :
    SafeResult pool (op.arithmeticResult left right) := by
  cases left with
  | integer l =>
      cases right with
      | integer r =>
          cases op with
          | div =>
              simp only [arithmeticResult]
              split
              · rfl
              · exact Value.Safe.integer _
          | add => exact Value.Safe.integer _
          | sub => exact Value.Safe.integer _
          | mul => exact Value.Safe.integer _
          | _ => rfl
      | _ => rfl
  | string l =>
      cases right with
      | string r =>
          simp only [arithmeticResult]
          split
          · exact Value.Safe.string _
          · rfl
      | _ => rfl
  | _ => rfl

theorem Opcode.comparisonResult_safe (op : Opcode) (left right : Value) :
    SafeResult pool (op.comparisonResult left right) := by
  unfold comparisonResult
  split
  · exact Value.Safe.boolean _
  · exact Value.Safe.boolean _
  · exact Value.Safe.boolean _
  · rfl

/-- An element of a safe collection is safe. -/
theorem Value.elementResult_safe [StringHash] {collection : Value} (h : collection.Safe pool) (key : Value) :
    SafeResult pool (collection.elementResult key) := by
  rw [elementResult]
  cases hres : collection.element key with
  | error e => cases e <;> rfl
  | ok v =>
      show v.Safe pool
      cases collection with
      | array elements =>
          cases key with
          | integer i =>
              simp only [element, elementAt, Except.ok.injEq] at hres
              subst hres
              split
              · exact .null
              · exact safe_getD h.of_array _
          | _ => cases hres
      | hash entries =>
          rw [element] at hres
          cases hk : key.key? with
          | none => simp [hk] at hres
          | some k =>
              simp only [hk, Except.ok.injEq] at hres
              subst hres
              cases hget : Dictionary.get? k entries with
              | none => exact .null
              | some v =>
                  obtain ⟨stored, hmem⟩ := Dictionary.mem_of_get? hget
                  exact (h.of_hash _ hmem).2
      | _ => cases hres

/-- A hash of safe values is safe. -/
theorem Value.hashResult_safe [StringHash] {items : List Value} (h : ∀ v ∈ items, v.Safe pool) :
    SafeResult pool (hashResult items) := by
  rw [hashResult]
  cases hres : hashOfPairs [] (MachineM.pairUp items) with
  | error key => rfl
  | ok v =>
      exact hashOfPairs_safe _ (by simp) (fun p hp => (MachineM.mem_of_mem_pairUp hp).imp (h _) (h _)) hres

theorem Value.negationResult_safe (v : Value) : SafeResult pool v.negationResult := by
  cases v with
  | integer value => exact Value.Safe.integer _
  | _ => rfl

/-- Built-in functions put elements of their arguments together, or make new data. -/
theorem Builtin.result_safe (b : Builtin) {arguments : List Value}
    (h : ∀ v ∈ arguments, v.Safe pool) : (b.result arguments).Safe pool := by
  unfold result
  split
  · exact .integer _
  · exact .integer _
  · exact .error _
  · exact .error _
  · exact .null
  · next elements =>
      rw [List.head?_eq_getElem?]
      exact safe_getD (h _ List.mem_cons_self).of_array 0
  · exact .error _
  · exact .error _
  · next elements =>
      rw [List.getLast?_eq_getElem?]
      exact safe_getD (h _ List.mem_cons_self).of_array _
  · exact .error _
  · exact .error _
  · exact .null
  · next first elements =>
      exact .array fun v hv => (h _ List.mem_cons_self).of_array v (List.mem_cons_of_mem _ hv)
  · exact .error _
  · exact .error _
  · next elements value =>
      refine .array fun v hv => ?_
      rcases List.mem_append.mp hv with hv | hv
      · exact (h _ List.mem_cons_self).of_array v hv
      · rw [List.mem_singleton.mp hv]
        exact h _ (List.mem_cons_of_mem _ List.mem_cons_self)
  · exact .error _
  · exact .error _

end collections

end ScriptLang
