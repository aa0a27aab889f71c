import ScriptLang.Proofs.Evaluator.Depth

/-!
# Error values

A built-in function reports a failure by an error value, and so does the evaluator to those who use it. In
between there are no such values: a call stops with the failure instead of going on with the value. So nothing
that an evaluation has in hand, that a name stands for or that was printed is an error or contains one
(`Evaluator.Underway.errorFree`), and an expression never comes to such a value
(`EvalM.evalExpr_keepsOut`).
-/

namespace ScriptLang

open EvalM (enterCall leaveCall callFunction evalExpr evalExprs evalPairs evalStmt evalBlock fail lookup?
  loadName store makeFunction unary integerBinary binary element runBody)

/-! ## Values inside values

An error could hide in an array, in the key or the value of an entry of a hash, or in what a closure captured.
`Value.ErrorFree` excludes it in all of these at once; it is a property of values that is closed under
building and under taking apart, as the lemmas below say. -/

/-- A value is the other one, or it is somewhere inside it. -/
inductive Value.Inside (v : Value) : Value → Prop where
  | refl : Inside v v
  | element {w : Value} {elements : List Value} : w ∈ elements → Inside v w → Inside v (.array elements)
  | key {e : StoredKey Value × Value} {entries : List (StoredKey Value × Value)} :
      e ∈ entries → Inside v e.1.toValue → Inside v (.hash entries)
  | entry {e : StoredKey Value × Value} {entries : List (StoredKey Value × Value)} :
      e ∈ entries → Inside v e.2 → Inside v (.hash entries)
  | captured {w : Value} {identity : Nat} {f : CompiledFunction} {free : List Value} :
      w ∈ free → Inside v w → Inside v (.closure identity f free)

/-- A value is no error, and no error is inside it. -/
def Value.ErrorFree (w : Value) : Prop := ∀ v : Value, v.Inside w → v.isError = false

/-- Some values are no errors, and no errors are inside them. -/
abbrev Value.AllErrorFree (vs : List Value) : Prop := ∀ v ∈ vs, v.ErrorFree

namespace Value.ErrorFree

variable {v w : Value} {vs elements : List Value} {entries : Dictionary Value}

/-- A value that has no parts. -/
theorem data (herror : w.isError = false)
    (hdata : w.kind ≠ .array ∧ w.kind ≠ .hash ∧ w.kind ≠ .closure) : w.ErrorFree := by
  intro v hv
  cases hv with
  | refl => exact herror
  | element => exact absurd rfl hdata.1
  | key | entry => exact absurd rfl hdata.2.1
  | captured => exact absurd rfl hdata.2.2

theorem null : Value.null.ErrorFree := data rfl (by decide)

theorem integer (value : Int64) : (Value.integer value).ErrorFree := data rfl ⟨nofun, nofun, nofun⟩

theorem boolean (value : Bool) : (Value.boolean value).ErrorFree := data rfl ⟨nofun, nofun, nofun⟩

theorem string (contents : String) : (Value.string contents).ErrorFree := data rfl ⟨nofun, nofun, nofun⟩

theorem builtin (b : Builtin) : (Value.builtin b).ErrorFree := data rfl ⟨nofun, nofun, nofun⟩

theorem array (h : AllErrorFree elements) : (Value.array elements).ErrorFree := by
  intro v hv
  cases hv with
  | refl => rfl
  | element hmem hinside => exact h _ hmem v hinside

theorem of_array (h : (Value.array elements).ErrorFree) : AllErrorFree elements :=
  fun _ hmem v hv => h v (.element hmem hv)

/-- A hash is error-free if the keys and the values of its entries are. -/
theorem hash (h : ∀ e ∈ entries, e.1.toValue.ErrorFree ∧ e.2.ErrorFree) : (Value.hash entries).ErrorFree := by
  intro v hv
  cases hv with
  | refl => rfl
  | key hmem hinside => exact (h _ hmem).1 v hinside
  | entry hmem hinside => exact (h _ hmem).2 v hinside

/-- The keys and the values of the entries of an error-free hash are. -/
theorem of_hash (h : (Value.hash entries).ErrorFree) : ∀ e ∈ entries, e.1.toValue.ErrorFree ∧ e.2.ErrorFree :=
  fun _ hmem => ⟨fun v hv => h v (.key hmem hv), fun v hv => h v (.entry hmem hv)⟩

theorem not_error {message : String} (h : v.ErrorFree) : v ≠ .error message := by
  rintro rfl
  exact Bool.noConfusion (h _ .refl)

/-- Taking an element of error-free values, or `null` where there is none. -/
theorem getD (h : AllErrorFree vs) (k : Nat) : (vs[k]?.getD .null).ErrorFree := by
  cases hv : vs[k]? with
  | none => exact null
  | some v => exact h v (List.mem_of_getElem? hv)

end Value.ErrorFree

open Value (AllErrorFree)

/-- What is inside a collection is no error if the collection is error-free. -/
theorem Value.element_errorFree [StringHash] {collection key v : Value} (hcollection : collection.ErrorFree)
    (h : collection.element key = .ok v) : v.ErrorFree := by
  unfold element at h
  split at h
  · cases h
    unfold elementAt
    split
    · exact .null
    · exact .getD hcollection.of_array _
  · next entries =>
      split at h
      · next k hk =>
          cases h
          cases hget : Dictionary.get? k entries with
          | none => exact .null
          | some v =>
              obtain ⟨stored, hmem⟩ := Dictionary.mem_of_get? hget
              exact (hcollection.of_hash _ hmem).2
      · cases h
  · cases h

/-- A built-in function reports a failure, or else it comes to an error-free value. -/
theorem Builtin.result_errorFree (b : Builtin) {arguments : List Value} (h : AllErrorFree arguments)
    (hresult : ∀ message, b.result arguments ≠ .error message) : (b.result arguments).ErrorFree := by
  unfold result at hresult ⊢
  split at hresult <;> try exact absurd rfl (hresult _)
  · exact .integer _
  · exact .integer _
  · exact .null
  · next elements =>
      rw [List.head?_eq_getElem?]
      exact .getD (h _ List.mem_cons_self).of_array 0
  · next elements =>
      rw [List.getLast?_eq_getElem?]
      exact .getD (h _ List.mem_cons_self).of_array _
  · exact .null
  · next first elements =>
      exact .array fun v hv => (h _ List.mem_cons_self).of_array v (List.mem_cons_of_mem _ hv)
  · next elements value =>
      refine .array fun v hv => ?_
      rcases List.mem_append.mp hv with hv | hv
      · exact (h _ List.mem_cons_self).of_array v hv
      · rw [List.mem_singleton.mp hv]
        exact h _ (List.mem_cons_of_mem _ List.mem_cons_self)

/-! ## Steps that keep errors out

`KeepsOut p x` says that the step `x` keeps all scopes and the output error-free and that its value has the
property `p`. An early return carries an error-free value. A step that stops with a failure has no value at
all, so nothing is asked of it: that is what keeps error values out where a built-in function fails. -/

/-- Neither what names stand for nor what was printed is an error or contains one. -/
structure Evaluator.ErrorFree (st : Evaluator) : Prop where
  bindings : ∀ s ∈ st.scopes, ∀ b ∈ s.bindings, b.2.ErrorFree
  output : ∀ arguments ∈ st.output, AllErrorFree arguments

/-- What a name stands for is in some scope, wherever it is found. -/
theorem EvalM.lookup?_errorFree {scopes : Array Scope} (h : ∀ s ∈ scopes, ∀ b ∈ s.bindings, b.2.ErrorFree)
    {name : String} {v : Value} : ∀ {n l : Nat}, lookup? scopes name n l = some v → v.ErrorFree
  | n + 1, l, hlookup => by
      rw [lookup?] at hlookup
      obtain ⟨s, hs, hlookup⟩ := Option.bind_eq_some_iff.mp hlookup
      split at hlookup
      · next w hget =>
          cases hlookup
          obtain ⟨b, hb, rfl⟩ := Bindings.mem_of_get? hget
          exact h s (Array.mem_of_getElem? hs) b hb
      · obtain ⟨o, -, houter⟩ := Option.bind_eq_some_iff.mp hlookup
        exact lookup?_errorFree h houter

namespace EvalM

variable {α β : Type} {p : α → Prop} {q : β → Prop}

/-- Where no name stands for an error, a step comes to something with the property `p`. In no case is there an
error value behind it. -/
def KeepsOut (p : α → Prop) (x : EvalM α) : Prop :=
  ∀ st : Evaluator, st.ErrorFree →
    match x st with
    | .ok a st' => p a ∧ st'.ErrorFree
    | .error signal st' => AllErrorFree signal.values ∧ st'.ErrorFree

namespace KeepsOut

theorem pure {a : α} (h : p a) : KeepsOut p (Pure.pure a) := fun _ hst => ⟨h, hst⟩

theorem fail (e : EvalError) : KeepsOut p (EvalM.fail e) := fun _ hst => ⟨List.forall_mem_nil _, hst⟩

theorem throw_return {v : Value} (h : v.ErrorFree) : KeepsOut p (throw (.return v)) :=
  fun _ hst => ⟨List.forall_mem_singleton.mpr h, hst⟩

/-- Two steps in a row; the second may rely on what the first says of its value. -/
theorem bind {x : EvalM α} {f : α → EvalM β} (hx : KeepsOut p x) (hf : ∀ a, p a → KeepsOut q (f a)) :
    KeepsOut q (x >>= f) := by
  intro st hst
  have hfirst := hx st hst
  rw [bind_apply]
  cases hr : x st with
  | ok a st₁ =>
      rw [hr] at hfirst
      exact hf a hfirst.1 st₁ hfirst.2
  | error signal st₁ =>
      rw [hr] at hfirst
      exact hfirst

/-- Behind a failure there is nothing to do. -/
theorem fail_bind {f : α → EvalM β} (e : EvalError) : KeepsOut q (EvalM.fail e >>= f) :=
  fun _ hst => ⟨List.forall_mem_nil _, hst⟩

theorem get_bind {f : Evaluator → EvalM β} (hf : ∀ st, KeepsOut q (f st)) : KeepsOut q (get >>= f) :=
  fun st hst => hf st st hst

/-- What comes of a step that succeeds. -/
theorem of_ok {x : EvalM α} {a : α} {st st₁ : Evaluator} (hx : KeepsOut p x) (hst : st.ErrorFree)
    (h : x st = .ok a st₁) : p a ∧ st₁.ErrorFree := by
  have hresult := hx st hst
  rwa [h] at hresult

/-- What comes of a step that does not. -/
theorem of_error {x : EvalM α} {signal : Signal} {st st₁ : Evaluator} (hx : KeepsOut p x)
    (hst : st.ErrorFree) (h : x st = .error signal st₁) : AllErrorFree signal.values ∧ st₁.ErrorFree := by
  have hresult := hx st hst
  rwa [h] at hresult

end KeepsOut

/-! ### Operations -/

/-- A name stands for what is stored under it, or else for a built-in function. -/
theorem loadName_keepsOut (name : String) (scope : Nat) : KeepsOut Value.ErrorFree (loadName name scope) := by
  intro st hst
  rw [loadName, bind_apply, get_apply]
  simp only
  cases hlookup : lookup? st.scopes name (scope + 1) scope with
  | some v => exact ⟨lookup?_errorFree hst.bindings hlookup, hst⟩
  | none =>
      cases Builtin.ofName? name with
      | some b => exact ⟨.builtin b, hst⟩
      | none => exact ⟨List.forall_mem_nil _, hst⟩

/-- Binding a name to an error-free value. -/
theorem errorFree_insert {bindings : Bindings Value} (h : ∀ b ∈ bindings, b.2.ErrorFree) {v : Value}
    (hv : v.ErrorFree) (name : String) : ∀ b ∈ bindings.insert name v, b.2.ErrorFree := by
  intro b hb
  rcases List.mem_cons.mp hb with rfl | hold
  · exact hv
  · exact h b (List.mem_filter.mp hold).1

theorem store_keepsOut {v : Value} (hv : v.ErrorFree) (name : String) (scope : Nat) :
    KeepsOut (fun _ => True) (store name v scope) := by
  refine fun st hst => ⟨trivial, fun s hs => ?_, hst.output⟩
  obtain ⟨k, hk⟩ := Array.getElem?_of_mem hs
  rw [Array.getElem?_modify] at hk
  split at hk
  · obtain ⟨s', hs', rfl⟩ := Option.map_eq_some_iff.mp hk
    exact errorFree_insert (hst.bindings s' (Array.mem_of_getElem? hs')) hv name
  · exact hst.bindings s (Array.mem_of_getElem? hk)

theorem unary_keepsOut (operator : Operator) (v : Value) : KeepsOut Value.ErrorFree (unary operator v) := by
  unfold unary
  split
  · exact .pure (.boolean _)
  · exact .pure (.integer _)
  · exact .fail _

/-- Operations on integers come to integers and booleans, or fail. -/
theorem integerBinary_keepsOut (operator : Operator) (l r : Int64) :
    KeepsOut Value.ErrorFree (integerBinary operator l r) := by
  cases operator with
  | slash =>
      simp only [integerBinary]
      split
      · exact .fail _
      · exact .pure (.integer _)
  | bang => exact .fail _
  | plus | minus | asterisk => exact .pure (.integer _)
  | lessThan | greaterThan | equal | notEqual => exact .pure (.boolean _)

theorem binary_keepsOut (operator : Operator) (l r : Value) :
    KeepsOut Value.ErrorFree (binary operator l r) := by
  unfold binary
  split
  · exact integerBinary_keepsOut operator _ _
  · exact .pure (.string _)
  · exact .pure (.boolean _)
  · exact .pure (.boolean _)
  · split
    · exact .fail _
    · exact .fail _

/-- What is taken out of a collection was in it, or is `null`. -/
theorem element_keepsOut [StringHash] {collection : Value} (h : collection.ErrorFree) (key : Value) :
    KeepsOut Value.ErrorFree (element collection key) := by
  unfold element
  split
  · next v hv => exact .pure (Value.element_errorFree h hv)
  · exact .fail _
  · exact .fail _

/-! ### Parts of a program -/

/-- Calls keep errors out, if they are made with error-free values. -/
def CallsKeepOut (call : Value → List Value → EvalM Value) : Prop :=
  ∀ f vs, f.ErrorFree → AllErrorFree vs → KeepsOut Value.ErrorFree (call f vs)

section

variable [StringHash] {call : Value → List Value → EvalM Value}

mutual

/-- Evaluating an expression keeps errors out if calls do. -/
theorem evalExpr_keepsOut (hcall : CallsKeepOut call) (scope : Nat) : ∀ e : Expr,
    KeepsOut Value.ErrorFree (evalExpr call scope e)
  | .identifier name => by
      unfold evalExpr
      exact loadName_keepsOut name scope
  | .integer value => by
      unfold evalExpr
      exact .pure (.integer value)
  | .boolean value => by
      unfold evalExpr
      exact .pure (.boolean value)
  | .string contents => by
      unfold evalExpr
      exact .pure (.string contents)
  | .array elements => by
      unfold evalExpr
      exact (evalExprs_keepsOut hcall scope elements (List.forall_mem_nil _)).bind fun _ hvs => .pure (.array hvs)
  | .hash pairs => by
      unfold evalExpr
      exact (evalPairs_keepsOut hcall scope pairs (List.forall_mem_nil _)).bind fun _ hes => .pure (.hash hes)
  | .unary operator operand => by
      unfold evalExpr
      exact (evalExpr_keepsOut hcall scope operand).bind fun v _ => unary_keepsOut operator v
  | .binary left operator right => by
      unfold evalExpr
      apply (evalExpr_keepsOut hcall scope left).bind
      intro l _
      exact (evalExpr_keepsOut hcall scope right).bind fun r _ => binary_keepsOut operator l r
  | .if condition consequence none => by
      unfold evalExpr
      apply (evalExpr_keepsOut hcall scope condition).bind
      intro v _
      cases v.isTruthy with
      | true => exact evalBlock_keepsOut hcall scope consequence .null
      | false => exact .pure .null
  | .if condition consequence (some alternative) => by
      unfold evalExpr
      apply (evalExpr_keepsOut hcall scope condition).bind
      intro v _
      cases v.isTruthy with
      | true => exact evalBlock_keepsOut hcall scope consequence .null
      | false => exact evalBlock_keepsOut hcall scope alternative .null
  | .function _ parameters body => by
      unfold evalExpr
      exact fun st hst => ⟨.data rfl ⟨nofun, nofun, nofun⟩, hst.bindings, hst.output⟩
  | .call callee arguments => by
      unfold evalExpr
      apply (evalExpr_keepsOut hcall scope callee).bind
      intro f hf
      exact (evalExprs_keepsOut hcall scope arguments (List.forall_mem_nil _)).bind fun vs hvs => hcall f vs hf hvs
  | .index collection key => by
      unfold evalExpr
      apply (evalExpr_keepsOut hcall scope collection).bind
      intro v hv
      exact (evalExpr_keepsOut hcall scope key).bind fun k _ => element_keepsOut hv k

/-- Elements and arguments are all error-free. -/
theorem evalExprs_keepsOut (hcall : CallsKeepOut call) (scope : Nat) :
    ∀ (es : List Expr) {acc : List Value}, AllErrorFree acc →
      KeepsOut AllErrorFree (evalExprs call scope acc es)
  | [], acc, hacc => by
      unfold evalExprs
      exact .pure fun v hv => hacc v (List.mem_reverse.mp hv)
  | e :: es, acc, hacc => by
      unfold evalExprs
      apply (evalExpr_keepsOut hcall scope e).bind
      intro v hv
      exact evalExprs_keepsOut hcall scope es (List.forall_mem_cons.mpr ⟨hv, hacc⟩)

theorem evalPairs_keepsOut (hcall : CallsKeepOut call) (scope : Nat) :
    ∀ (pairs : List (Expr × Expr)) {entries : Dictionary Value},
      (∀ e ∈ entries, e.1.toValue.ErrorFree ∧ e.2.ErrorFree) →
        KeepsOut (fun es => ∀ e ∈ es, e.1.toValue.ErrorFree ∧ e.2.ErrorFree)
          (evalPairs call scope entries pairs)
  | [], entries, hentries => by
      unfold evalPairs
      exact .pure hentries
  | (key, value) :: pairs, entries, hentries => by
      unfold evalPairs
      apply (evalExpr_keepsOut hcall scope key).bind
      intro k hk
      cases k.key? with
      | none => exact .fail _
      | some hashKey =>
          apply (evalExpr_keepsOut hcall scope value).bind
          intro v hv
          apply evalPairs_keepsOut hcall scope pairs
          intro e he
          rcases Dictionary.mem_insert.mp he with rfl | ⟨hold, -⟩
          · exact ⟨hk, hv⟩
          · exact hentries e hold

theorem evalStmt_keepsOut (hcall : CallsKeepOut call) (scope : Nat) : ∀ s : Stmt,
    KeepsOut Value.ErrorFree (evalStmt call scope s)
  | .let name value => by
      unfold evalStmt
      apply (evalExpr_keepsOut hcall scope value).bind
      intro v hv
      exact (store_keepsOut hv name scope).bind fun _ _ => .pure .null
  | .return none => by
      unfold evalStmt
      exact .throw_return .null
  | .return (some value) => by
      unfold evalStmt
      exact (evalExpr_keepsOut hcall scope value).bind fun _ hv => .throw_return hv
  | .expr value => by
      unfold evalStmt
      exact evalExpr_keepsOut hcall scope value

/-- The value of a block is the one of its last statement. -/
theorem evalBlock_keepsOut (hcall : CallsKeepOut call) (scope : Nat) :
    ∀ (ss : List Stmt) {last : Value}, last.ErrorFree →
      KeepsOut Value.ErrorFree (evalBlock call scope last ss)
  | [], last, hlast => by
      unfold evalBlock
      exact .pure hlast
  | s :: ss, last, _ => by
      unfold evalBlock
      apply (evalStmt_keepsOut hcall scope s).bind
      intro v hv
      exact evalBlock_keepsOut hcall scope ss hv

end

end

/-! ### Calls -/

/-- The scope of a call binds parameters to arguments. -/
theorem foldl_insert_errorFree (parameters : List String) {vs : List Value} {bindings : Bindings Value}
    (hvs : AllErrorFree vs) (h : ∀ b ∈ bindings, b.2.ErrorFree) :
    ∀ b ∈ (parameters.zip vs).foldl (fun bindings (name, v) => Bindings.insert name v bindings) bindings,
      b.2.ErrorFree := by
  induction parameters generalizing vs bindings with
  | nil => exact h
  | cons first parameters ih =>
      cases vs with
      | nil => exact h
      | cons v vs =>
          obtain ⟨hv, hvs⟩ := List.forall_mem_cons.mp hvs
          exact ih hvs (errorFree_insert h hv first)

theorem enterCall_errorFree {st : Evaluator} (hst : st.ErrorFree) (parameters : List String) {vs : List Value}
    (hvs : AllErrorFree vs) (home : Nat) : (enterCall parameters vs home st).ErrorFree := by
  refine ⟨fun s hs => ?_, hst.output⟩
  rcases Array.mem_push.mp hs with hold | rfl
  · exact hst.bindings s hold
  · exact foldl_insert_errorFree parameters hvs (List.forall_mem_nil _)

/-- Leaving a call only takes scopes away. -/
theorem leaveCall_errorFree {st : Evaluator} (hst : st.ErrorFree) (numScopes functionsMade : Nat) :
    (leaveCall numScopes functionsMade st).ErrorFree := by
  refine ⟨fun s hs => ?_, hst.output⟩
  rw [leaveCall] at hs
  split at hs
  · obtain ⟨k, hk, rfl⟩ := Array.mem_iff_getElem.mp hs
    rw [Array.getElem_shrink]
    exact hst.bindings _ (Array.getElem_mem _)
  · exact hst.bindings s hs

/-- What a built-in function prints are its arguments. -/
theorem print_errorFree {output : Output} (h : ∀ arguments ∈ output, AllErrorFree arguments) {vs : List Value}
    (hvs : AllErrorFree vs) (b : Builtin) : ∀ arguments ∈ b.print vs output, AllErrorFree arguments := by
  cases b with
  | puts =>
      intro arguments harguments
      rcases Array.mem_push.mp harguments with hold | rfl
      · exact h arguments hold
      · exact hvs
  | _ => exact h

/-- A call keeps errors out if its body does. -/
theorem runBody_keepsOut {body : Nat → EvalM Value} (hbody : ∀ inner, KeepsOut Value.ErrorFree (body inner))
    (parameters : List String) {vs : List Value} (hvs : AllErrorFree vs) (home : Nat) :
    KeepsOut Value.ErrorFree (runBody body parameters vs home) := by
  intro st hst
  have hresult := hbody st.scopes.size _ (enterCall_errorFree hst parameters hvs home)
  unfold runBody
  simp only
  generalize body st.scopes.size _ = r at hresult ⊢
  cases r with
  | ok v st₁ => exact ⟨hresult.1, leaveCall_errorFree hresult.2 _ _⟩
  | error signal st₁ =>
      cases signal with
      | «return» v => exact ⟨List.forall_mem_singleton.mp hresult.1, leaveCall_errorFree hresult.2 _ _⟩
      | error e => exact ⟨List.forall_mem_nil _, leaveCall_errorFree hresult.2 _ _⟩

variable [StringHash]

/-- **Calls** come to no error values: the failure of a built-in function stops the evaluation. -/
theorem callFunction_keepsOut : ∀ n : Nat, CallsKeepOut (callFunction n)
  | 0, _, _, _, _ => .fail _
  | n + 1, f, vs, hf, hvs => by
      cases f with
      | function identity parameters body home =>
          simp only [callFunction]
          split
          · exact .fail_bind _
          · refine .get_bind fun st => ?_
            split
            · exact .fail_bind _
            · exact runBody_keepsOut (fun inner => evalBlock_keepsOut (callFunction_keepsOut n) inner body .null)
                parameters hvs home
      | builtin b =>
          simp only [callFunction]
          have hprint : KeepsOut (fun _ => True)
              (modify fun st => { st with output := b.print vs st.output }) :=
            fun st hst => ⟨trivial, hst.bindings, print_errorFree hst.output hvs b⟩
          refine hprint.bind fun _ _ => ?_
          split
          · exact .fail _
          · next hresult => exact .pure (b.result_errorFree hvs hresult)
      | _ => exact .fail _

/-- **Activities** come to no error values. -/
theorem run_keepsOut (n scope : Nat) {activity : Activity} (h : AllErrorFree activity.values) :
    KeepsOut AllErrorFree (activity.run (callFunction n) scope) := by
  have hcall := callFunction_keepsOut n
  have hone : ∀ v : Value, v.ErrorFree → KeepsOut AllErrorFree (Pure.pure [v]) :=
    fun _ hv => .pure (List.forall_mem_singleton.mpr hv)
  cases activity with
  | expr e => exact (evalExpr_keepsOut hcall scope e).bind hone
  | exprs acc es => exact evalExprs_keepsOut hcall scope es h
  | pairs entries ps =>
      exact (evalPairs_keepsOut hcall scope ps (Dictionary.forall_mem_contents.mp h)).bind fun _ hes =>
        .pure (Dictionary.forall_mem_contents.mpr hes)
  | stmt s => exact (evalStmt_keepsOut hcall scope s).bind hone
  | block last ss => exact (evalBlock_keepsOut hcall scope ss (h last List.mem_cons_self)).bind hone
  | ended vs => exact .pure h

end EvalM

/-! ## Wherever an evaluation comes to -/

namespace Evaluator

open EvalM

variable [StringHash] {st : Evaluator}

/-- What comes of a program. -/
theorem ErrorFree.run (h : st.ErrorFree) (program : Program) :
    (run program st).2.ErrorFree ∧ ∀ v, (Evaluator.run program st).1 = .ok v → v.ErrorFree := by
  have hresult := evalBlock_keepsOut (callFunction_keepsOut (maxCallDepth + 1)) 0 program .null st h
  rw [Evaluator.run]
  generalize evalBlock _ _ _ _ st = r at hresult ⊢
  cases r with
  | ok v st₁ =>
      refine ⟨hresult.2, fun w hw => ?_⟩
      cases hw
      exact hresult.1
  | error signal st₁ =>
      refine ⟨by cases signal <;> exact hresult.2, fun w hw => ?_⟩
      cases signal with
      | «return» v =>
          cases hw
          exact List.forall_mem_singleton.mp hresult.1
      | error e => cases hw

/-- **Reachable states** hold no error values. -/
theorem Reachable.errorFree (h : Reachable st) : st.ErrorFree := by
  induction h with
  | initial =>
      refine ⟨fun s hs b hb => ?_, fun _ harguments => absurd harguments (Array.not_mem_empty _)⟩
      obtain rfl := Array.mem_singleton.mp hs
      exact absurd hb List.not_mem_nil
  | evaluate program _ ih =>
      rw [evaluate_snd]
      exact (ih.run program).1

/-- At every point of an evaluation, the values at hand and the state are error-free. -/
theorem errorFree_invariant : Invariant fun _ vs st => st.ErrorFree ∧ AllErrorFree vs where
  program := fun h => ⟨h.errorFree, List.forall_mem_nil _⟩
  null := fun h => ⟨h.1, List.forall_mem_cons.mpr ⟨.null, h.2⟩⟩
  mono := fun h hsubset => ⟨h.1, fun v hv => h.2 v (hsubset v hv)⟩
  run := by
    intro n scope activity held st h
    obtain ⟨hvalues, hheld⟩ := List.forall_mem_append.mp h.2
    have hrun := run_keepsOut n scope hvalues
    refine ⟨fun vs st₁ heval => ?_, fun signal st₁ heval => ?_⟩
    · obtain ⟨hvs, hst₁⟩ := hrun.of_ok h.1 heval
      exact ⟨hst₁, List.forall_mem_append.mpr ⟨hvs, hheld⟩⟩
    · obtain ⟨hvs, hst₁⟩ := hrun.of_error h.1 heval
      exact ⟨hst₁, List.forall_mem_append.mpr ⟨hvs, hheld⟩⟩
  enterCall := by
    intro scope identity home parameters body vs held st h
    exact ⟨enterCall_errorFree h.1 parameters (List.forall_mem_append.mp h.2).1 home, h.2⟩

/-- **Error values** are nowhere to be found while programs are evaluated. -/
theorem Underway.errorFree {n scope : Nat} {activity : Activity} {held : List Value}
    (h : Underway n scope activity held st) : st.ErrorFree ∧ AllErrorFree (activity.values ++ held) :=
  errorFree_invariant.underway h

end Evaluator

end ScriptLang
