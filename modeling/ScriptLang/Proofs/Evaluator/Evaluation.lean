import ScriptLang.Evaluator
import ScriptLang.Machine
import ScriptLang.Proofs.Compiler.Layout

/-!
# Evaluations

`Evaluates part scope st outcome st'` says what evaluating a part of a program comes to, as far as it does
not fail. The rules follow the layout of compiled code (`Emits`): a part yields the values that its code
leaves on the stack. Calls need no fuel here. Main statements:

* `Evaluator.run_evaluates` — whatever the evaluator computes is an evaluation;
* `Evaluates.frame` — an evaluation changes the names of its own scope, and opens others.
-/

namespace ScriptLang

/-! ## Results of operations -/

/-- The result of an operator in front of its operand. -/
def Operator.unaryResult? : Operator → Value → Option Value
  | .bang, v => some (.boolean (!v.isTruthy))
  | .minus, .integer n => some (.integer (-n))
  | _, _ => none

/-- The result of an operator between two integers. -/
def Operator.integerResult? (operator : Operator) (l r : Int64) : Option Value :=
  match operator with
  | .plus => some (.integer (l + r))
  | .minus => some (.integer (l - r))
  | .asterisk => some (.integer (l * r))
  | .slash => if r = 0 then none else some (.integer (l / r))
  | .lessThan => some (.boolean (decide (l < r)))
  | .greaterThan => some (.boolean (decide (r < l)))
  | .equal => some (.boolean (l == r))
  | .notEqual => some (.boolean (l != r))
  | .bang => none

/-- The result of an operator between its operands. -/
def Operator.binaryResult? : Operator → Value → Value → Option Value
  | operator, .integer l, .integer r => operator.integerResult? l r
  | .plus, .string l, .string r => some (.string (l ++ r))
  | .equal, left, right => some (.boolean (left == right))
  | .notEqual, left, right => some (.boolean (left != right))
  | _, _, _ => none

/-- The value of an operation, unless it fails. A call has none here. -/
def Expr.combine? [StringHash] : Expr → List Value → Option Value
  | .array _, vs => some (.array vs)
  | .hash _, vs => (Value.hashOfPairs [] (MachineM.pairUp vs)).toOption
  | .unary operator _, [v] => operator.unaryResult? v
  | .binary _ operator _, [l, r] => operator.binaryResult? l r
  | .index _ _, [collection, key] => (collection.element key).toOption
  | _, _ => none

/-! ## Evaluations -/

/-- What an evaluation comes to. -/
inductive Outcome where
  /-- The values of a part, which its code leaves on the stack. For a statement it is the value that its
  code takes off the stack again. -/
  | values (vs : List Value)
  /-- A `return` has been executed. -/
  | returned (v : Value)

/-- Whether the last one of some statements leaves a value. -/
def Stmt.endsWithExpr (ss : List Stmt) : Bool := ss.getLast?.any Stmt.isExpr

/-- A state in which a name of a scope has a new value. -/
def Evaluator.bind (st : Evaluator) (name : String) (v : Value) (scope : Nat) : Evaluator :=
  { st with
    scopes := st.scopes.modify scope fun s => { s with bindings := s.bindings.insert name v } }

open EvalM (enterCall leaveCall lookup?)

/-- The outcome of a part of a program in a scope. -/
inductive Evaluates [StringHash] : Part → Nat → Evaluator → Outcome → Evaluator → Prop where
  | bound {scope : Nat} {st : Evaluator} {name : String} {v : Value} :
      lookup? st.scopes name (scope + 1) scope = some v →
      Evaluates (.expr (.identifier name)) scope st (.values [v]) st
  | builtin {scope : Nat} {st : Evaluator} {name : String} {b : Builtin} :
      lookup? st.scopes name (scope + 1) scope = none → Builtin.ofName? name = some b →
      Evaluates (.expr (.identifier name)) scope st (.values [.builtin b]) st
  | constant {scope : Nat} {st : Evaluator} {e : Expr} {v : Value} :
      e.constant? = some v → Evaluates (.expr e) scope st (.values [v]) st
  | boolean {scope : Nat} {st : Evaluator} {value : Bool} :
      Evaluates (.expr (.boolean value)) scope st (.values [.boolean value]) st
  | function {scope : Nat} {st : Evaluator} {name : Option String} {parameters : List String}
      {body : List Stmt} :
      Evaluates (.expr (.function name parameters body)) scope st
        (.values [.function st.functionsMade parameters body scope])
        { st with functionsMade := st.functionsMade + 1 }
  | operation {scope : Nat} {st st' : Evaluator} {e : Expr} {es : List Expr} {vs : List Value}
      {v : Value} :
      e.operands? = some es → Evaluates (.exprs es) scope st (.values vs) st' →
      e.combine? vs = some v →
      Evaluates (.expr e) scope st (.values [v]) st'
  | operation_return {scope : Nat} {st st' : Evaluator} {e : Expr} {es : List Expr} {v : Value} :
      e.operands? = some es → Evaluates (.exprs es) scope st (.returned v) st' →
      Evaluates (.expr e) scope st (.returned v) st'
  | less {scope : Nat} {st st₁ st₂ : Evaluator} {left right : Expr} {l r : Int64} :
      Evaluates (.expr left) scope st (.values [.integer l]) st₁ →
      Evaluates (.expr right) scope st₁ (.values [.integer r]) st₂ →
      Evaluates (.expr (.binary left .lessThan right)) scope st
        (.values [.boolean (decide (l < r))]) st₂
  | less_left {scope : Nat} {st st₁ : Evaluator} {left right : Expr} {v : Value} :
      Evaluates (.expr left) scope st (.returned v) st₁ →
      Evaluates (.expr (.binary left .lessThan right)) scope st (.returned v) st₁
  | less_right {scope : Nat} {st st₁ st₂ : Evaluator} {left right : Expr} {l v : Value} :
      Evaluates (.expr left) scope st (.values [l]) st₁ →
      Evaluates (.expr right) scope st₁ (.returned v) st₂ →
      Evaluates (.expr (.binary left .lessThan right)) scope st (.returned v) st₂
  | call_builtin {scope : Nat} {st st₁ : Evaluator} {callee : Expr} {es : List Expr} {b : Builtin}
      {vs : List Value} :
      Evaluates (.exprs (callee :: es)) scope st (.values (.builtin b :: vs)) st₁ →
      (b.result vs).isError = false →
      Evaluates (.expr (.call callee es)) scope st (.values [b.result vs])
        { st₁ with output := b.print vs st₁.output }
  | call_function {scope : Nat} {st st₁ st₂ : Evaluator} {callee : Expr} {es : List Expr}
      {identity home : Nat} {parameters : List String} {body : List Stmt} {vs : List Value}
      {v : Value} :
      Evaluates (.exprs (callee :: es)) scope st
        (.values (.function identity parameters body home :: vs)) st₁ →
      vs.length = parameters.length → st₁.depth < maxCallDepth →
      Evaluates (.body body) st₁.scopes.size (enterCall parameters vs home st₁) (.returned v) st₂ →
      Evaluates (.expr (.call callee es)) scope st (.values [v])
        (leaveCall st₁.scopes.size st₁.functionsMade st₂)
  | if_true {scope : Nat} {st st₁ st₂ : Evaluator} {condition : Expr} {consequence : List Stmt}
      {alternative : Option (List Stmt)} {v : Value} {o : Outcome} :
      Evaluates (.expr condition) scope st (.values [v]) st₁ → v.isTruthy = true →
      Evaluates (.branch consequence) scope st₁ o st₂ →
      Evaluates (.expr (.if condition consequence alternative)) scope st o st₂
  | if_false {scope : Nat} {st st₁ st₂ : Evaluator} {condition : Expr} {consequence : List Stmt}
      {alternative : Option (List Stmt)} {v : Value} {o : Outcome} :
      Evaluates (.expr condition) scope st (.values [v]) st₁ → v.isTruthy = false →
      Evaluates (.branch (alternative.getD [])) scope st₁ o st₂ →
      Evaluates (.expr (.if condition consequence alternative)) scope st o st₂
  | if_return {scope : Nat} {st st₁ : Evaluator} {condition : Expr} {consequence : List Stmt}
      {alternative : Option (List Stmt)} {v : Value} :
      Evaluates (.expr condition) scope st (.returned v) st₁ →
      Evaluates (.expr (.if condition consequence alternative)) scope st (.returned v) st₁
  | exprs_nil {scope : Nat} {st : Evaluator} : Evaluates (.exprs []) scope st (.values []) st
  | exprs_cons {scope : Nat} {st st₁ st₂ : Evaluator} {e : Expr} {es : List Expr} {v : Value}
      {vs : List Value} :
      Evaluates (.expr e) scope st (.values [v]) st₁ →
      Evaluates (.exprs es) scope st₁ (.values vs) st₂ →
      Evaluates (.exprs (e :: es)) scope st (.values (v :: vs)) st₂
  | exprs_head {scope : Nat} {st st₁ : Evaluator} {e : Expr} {es : List Expr} {v : Value} :
      Evaluates (.expr e) scope st (.returned v) st₁ →
      Evaluates (.exprs (e :: es)) scope st (.returned v) st₁
  | exprs_tail {scope : Nat} {st st₁ st₂ : Evaluator} {e : Expr} {es : List Expr} {v w : Value} :
      Evaluates (.expr e) scope st (.values [v]) st₁ →
      Evaluates (.exprs es) scope st₁ (.returned w) st₂ →
      Evaluates (.exprs (e :: es)) scope st (.returned w) st₂
  | let {scope : Nat} {st st₁ : Evaluator} {name : String} {value : Expr} {v : Value} :
      Evaluates (.expr value) scope st (.values [v]) st₁ →
      Evaluates (.stmt (.let name value)) scope st (.values []) (st₁.bind name v scope)
  | let_return {scope : Nat} {st st₁ : Evaluator} {name : String} {value : Expr} {v : Value} :
      Evaluates (.expr value) scope st (.returned v) st₁ →
      Evaluates (.stmt (.let name value)) scope st (.returned v) st₁
  | return_none {scope : Nat} {st : Evaluator} :
      Evaluates (.stmt (.return none)) scope st (.returned .null) st
  | return_some {scope : Nat} {st st₁ : Evaluator} {value : Expr} {v : Value} :
      Evaluates (.expr value) scope st (.values [v]) st₁ →
      Evaluates (.stmt (.return (some value))) scope st (.returned v) st₁
  | return_return {scope : Nat} {st st₁ : Evaluator} {value : Expr} {v : Value} :
      Evaluates (.expr value) scope st (.returned v) st₁ →
      Evaluates (.stmt (.return (some value))) scope st (.returned v) st₁
  | expr {scope : Nat} {st st₁ : Evaluator} {value : Expr} {o : Outcome} :
      Evaluates (.expr value) scope st o st₁ → Evaluates (.stmt (.expr value)) scope st o st₁
  | stmts_nil {scope : Nat} {st : Evaluator} : Evaluates (.stmts []) scope st (.values []) st
  | stmts_last {scope : Nat} {st st₁ : Evaluator} {s : Stmt} {o : Outcome} :
      Evaluates (.stmt s) scope st o st₁ → Evaluates (.stmts [s]) scope st o st₁
  | stmts_cons {scope : Nat} {st st₁ st₂ : Evaluator} {s : Stmt} {ss : List Stmt} {vs : List Value}
      {o : Outcome} :
      ss ≠ [] → Evaluates (.stmt s) scope st (.values vs) st₁ →
      Evaluates (.stmts ss) scope st₁ o st₂ →
      Evaluates (.stmts (s :: ss)) scope st o st₂
  | stmts_return {scope : Nat} {st st₁ : Evaluator} {s : Stmt} {ss : List Stmt} {v : Value} :
      Evaluates (.stmt s) scope st (.returned v) st₁ →
      Evaluates (.stmts (s :: ss)) scope st (.returned v) st₁
  | branch_nil {scope : Nat} {st : Evaluator} :
      Evaluates (.branch []) scope st (.values [.null]) st
  | branch_value {scope : Nat} {st st₁ : Evaluator} {value : Expr} {o : Outcome} :
      Evaluates (.expr value) scope st o st₁ → Evaluates (.branch [.expr value]) scope st o st₁
  | branch_cons {scope : Nat} {st st₁ st₂ : Evaluator} {s : Stmt} {ss : List Stmt} {vs : List Value}
      {o : Outcome} :
      (ss = [] → s.isExpr = false) → Evaluates (.stmt s) scope st (.values vs) st₁ →
      Evaluates (.branch ss) scope st₁ o st₂ →
      Evaluates (.branch (s :: ss)) scope st o st₂
  | branch_return {scope : Nat} {st st₁ : Evaluator} {s : Stmt} {ss : List Stmt} {v : Value} :
      (ss = [] → s.isExpr = false) → Evaluates (.stmt s) scope st (.returned v) st₁ →
      Evaluates (.branch (s :: ss)) scope st (.returned v) st₁
  | body_nil {scope : Nat} {st : Evaluator} : Evaluates (.body []) scope st (.returned .null) st
  | body_value {scope : Nat} {st st₁ : Evaluator} {value : Expr} {v : Value} :
      Evaluates (.expr value) scope st (.values [v]) st₁ →
      Evaluates (.body [.expr value]) scope st (.returned v) st₁
  | body_value_return {scope : Nat} {st st₁ : Evaluator} {value : Expr} {v : Value} :
      Evaluates (.expr value) scope st (.returned v) st₁ →
      Evaluates (.body [.expr value]) scope st (.returned v) st₁
  | body_cons {scope : Nat} {st st₁ st₂ : Evaluator} {s : Stmt} {ss : List Stmt} {vs : List Value}
      {o : Outcome} :
      (ss = [] → s.isExpr = false ∧ s.returnsValue = false) →
      Evaluates (.stmt s) scope st (.values vs) st₁ → Evaluates (.body ss) scope st₁ o st₂ →
      Evaluates (.body (s :: ss)) scope st o st₂
  | body_return {scope : Nat} {st st₁ : Evaluator} {s : Stmt} {ss : List Stmt} {v : Value} :
      (ss = [] → s.isExpr = false) → Evaluates (.stmt s) scope st (.returned v) st₁ →
      Evaluates (.body (s :: ss)) scope st (.returned v) st₁

/-! ## The monad of the evaluator

As for the machine, a step that is applied to a state is an equation. A step may also end with a signal, which
is an early return or a failure. -/

namespace EvalM

variable {α β : Type}

/-- The second step runs on the state that the first one leaves, if that comes to a value. -/
theorem bind_apply (x : EvalM α) (f : α → EvalM β) (st : Evaluator) :
    (x >>= f) st = match x st with
      | .ok a st' => f a st'
      | .error e st' => .error e st' := by
  show EStateM.bind x f st = _
  rw [EStateM.bind]
  cases x st <;> rfl

theorem bind_eq_ok {x : EvalM α} {f : α → EvalM β} {st st₂ : Evaluator} {b : β} :
    (x >>= f) st = .ok b st₂ ↔ ∃ a st₁, x st = .ok a st₁ ∧ f a st₁ = .ok b st₂ := by
  rw [bind_apply]
  cases x st with
  | ok a st₁ =>
      refine ⟨fun h => ⟨a, st₁, rfl, h⟩, ?_⟩
      rintro ⟨_, _, hx, h⟩
      cases hx
      exact h
  | error signal st₁ => simp

/-- Two steps end with a signal if the first one does, or the second one behind it. -/
theorem bind_eq_error {x : EvalM α} {f : α → EvalM β} {st st₂ : Evaluator} {signal : Signal} :
    (x >>= f) st = .error signal st₂ ↔
      x st = .error signal st₂ ∨ ∃ a st₁, x st = .ok a st₁ ∧ f a st₁ = .error signal st₂ := by
  rw [bind_apply]
  cases x st with
  | ok a st₁ =>
      constructor
      · exact fun h => .inr ⟨a, st₁, rfl, h⟩
      · rintro (⟨⟨⟩⟩ | ⟨_, _, hx, h⟩)
        cases hx
        exact h
  | error signal' st₁ => simp

theorem pure_apply (a : α) (st : Evaluator) : (pure a : EvalM α) st = .ok a st := rfl

theorem get_apply (st : Evaluator) : (get : EvalM Evaluator) st = .ok st st := rfl

theorem modify_apply (f : Evaluator → Evaluator) (st : Evaluator) :
    (modify f : EvalM Unit) st = .ok () (f st) := rfl

theorem fail_apply (e : EvalError) (st : Evaluator) : (fail e : EvalM α) st = .error (.error e) st := rfl

section

variable [StringHash]

/-- A result is what some outcome of a part stands for, unless it is an error. The values of the outcome
are those that `p` relates to the value of the result. -/
def Yields (part : Part) (scope : Nat) (st : Evaluator) (p : α → List Value → Prop) :
    EStateM.Result Signal Evaluator α → Prop
  | .ok a st' => ∃ vs, p a vs ∧ Evaluates part scope st (.values vs) st'
  | .error (.return v) st' => Evaluates part scope st (.returned v) st'
  | .error (.error _) _ => True

/-- A step in front of the others: what remains is to be shown of its value, and of a `return` in it. -/
theorem Yields.of_bind {part part₁ : Part} {scope : Nat} {st st₁ : Evaluator}
    {p : β → List Value → Prop} {p₁ : α → List Value → Prop} {x : EvalM α} {f : α → EvalM β}
    (hx : Yields part₁ scope st₁ p₁ (x st₁))
    (hok : ∀ a vs st₂, p₁ a vs → Evaluates part₁ scope st₁ (.values vs) st₂ →
      Yields part scope st p (f a st₂))
    (hreturn : ∀ v st₂, Evaluates part₁ scope st₁ (.returned v) st₂ →
      Evaluates part scope st (.returned v) st₂) :
    Yields part scope st p ((x >>= f) st₁) := by
  rw [bind_apply]
  cases hr : x st₁ with
  | ok a st₂ =>
      rw [hr] at hx
      obtain ⟨vs, hvs, heval⟩ := hx
      exact hok a vs st₂ hvs heval
  | error signal st₂ =>
      rw [hr] at hx
      cases signal with
      | «return» v => exact hreturn v st₂ hx
      | error e => exact trivial

/-- A part whose outcome is that of another one. -/
theorem Yields.of_part {part part₁ : Part} {scope : Nat} {st st₁ : Evaluator}
    {p : α → List Value → Prop} {r : EStateM.Result Signal Evaluator α}
    (h : Yields part₁ scope st₁ p r)
    (hpart : ∀ o st₂, Evaluates part₁ scope st₁ o st₂ → Evaluates part scope st o st₂) :
    Yields part scope st p r := by
  cases r with
  | ok a st₂ =>
      obtain ⟨vs, hvs, heval⟩ := h
      exact ⟨vs, hvs, hpart _ _ heval⟩
  | error signal st₂ =>
      cases signal with
      | «return» v => exact hpart _ _ h
      | error e => exact trivial

end

/-! ### Operators -/

/-- A step has a result, or it fails if there is none. Either way it leaves the state alone. -/
def Computes (x : EvalM Value) (st : Evaluator) (result : Option Value) : Prop :=
  (result = none ∧ ∃ e, x st = .error (.error e) st) ∨ ∃ w, result = some w ∧ x st = .ok w st

/-- An operator in front of its operand fails, or it has the result that belongs to it. -/
theorem unary_computes (operator : Operator) (v : Value) (st : Evaluator) :
    Computes (unary operator v) st (operator.unaryResult? v) := by
  unfold unary
  split
  · exact .inr ⟨_, rfl, rfl⟩
  · exact .inr ⟨_, rfl, rfl⟩
  · next hbang hminus =>
      refine .inl ⟨?_, _, rfl⟩
      unfold Operator.unaryResult?
      split
      · exact absurd rfl hbang
      · exact absurd rfl (hminus _ rfl)
      · rfl

/-- Operators on integers compute their results, or fail. -/
theorem integerBinary_computes (operator : Operator) (l r : Int64) (st : Evaluator) :
    Computes (integerBinary operator l r) st (operator.integerResult? l r) := by
  cases operator with
  | slash =>
      simp only [Computes, integerBinary, Operator.integerResult?]
      by_cases hr : r = 0
      · rw [if_pos hr, if_pos hr]
        exact .inl ⟨rfl, _, rfl⟩
      · rw [if_neg hr, if_neg hr]
        exact .inr ⟨_, rfl, rfl⟩
  | bang => exact .inl ⟨rfl, _, rfl⟩
  | _ => exact .inr ⟨_, rfl, rfl⟩

/-- An operator between its operands fails, or it has the result that belongs to it. -/
theorem binary_computes (operator : Operator) (left right : Value) (st : Evaluator) :
    Computes (binary operator left right) st (operator.binaryResult? left right) := by
  unfold binary
  split
  · exact integerBinary_computes _ _ _ _
  · exact .inr ⟨_, rfl, rfl⟩
  · refine .inr ⟨_, ?_, rfl⟩
    cases left <;> cases right <;> rfl
  · refine .inr ⟨_, ?_, rfl⟩
    cases left <;> cases right <;> rfl
  · next hequal hnot hintegers hstrings =>
      have hnone : operator.binaryResult? left right = none := by
        unfold Operator.binaryResult?
        split
        · exact absurd rfl (hintegers _ _ rfl)
        · exact absurd rfl (hstrings _ _ rfl rfl)
        · exact absurd rfl hequal
        · exact absurd rfl hnot
        · rfl
      split
      · exact .inl ⟨hnone, _, rfl⟩
      · exact .inl ⟨hnone, _, rfl⟩

variable [StringHash]

theorem element_computes (collection key : Value) (st : Evaluator) :
    Computes (element collection key) st (collection.element key).toOption := by
  unfold element
  cases collection.element key with
  | ok v => exact .inr ⟨v, rfl, rfl⟩
  | error e => cases e <;> exact .inl ⟨rfl, _, rfl⟩

/-- One value alone. -/
def Single (v : Value) (vs : List Value) : Prop := vs = [v]

/-- The last step of an operation, behind its operands. -/
theorem Yields.operation {e : Expr} {es : List Expr} {vs : List Value} {scope : Nat}
    {st st₁ : Evaluator} {x : EvalM Value} (hes : e.operands? = some es)
    (heval : Evaluates (.exprs es) scope st (.values vs) st₁) (hx : Computes x st₁ (e.combine? vs)) :
    Yields (.expr e) scope st Single (x st₁) := by
  rcases hx with ⟨-, err, hx⟩ | ⟨w, hcombine, hx⟩
  · rw [hx]
    exact trivial
  · rw [hx]
    exact ⟨[w], rfl, .operation hes heval hcombine⟩

/-! ### Calls -/

/-- What a call comes to, unless it fails. No `return` gets out of it. -/
def Calls (f : Value) (arguments : List Value) (st : Evaluator) :
    EStateM.Result Signal Evaluator Value → Prop
  | .ok v st' =>
    (∃ b, f = .builtin b ∧ v = b.result arguments ∧ v.isError = false ∧
      st' = { st with output := b.print arguments st.output }) ∨
    ∃ identity parameters body home st₁, f = .function identity parameters body home ∧
      arguments.length = parameters.length ∧ st.depth < maxCallDepth ∧
      Evaluates (.body body) st.scopes.size (enterCall parameters arguments home st) (.returned v) st₁ ∧
      st' = leaveCall st.scopes.size st.functionsMade st₁
  | .error (.return _) _ => False
  | .error (.error _) _ => True

/-- A call yields what it returns, behind the evaluation of the function and of the arguments. -/
theorem Yields.call {callee : Expr} {es : List Expr} {f : Value} {vs : List Value} {scope : Nat}
    {st st₁ : Evaluator} {r : EStateM.Result Signal Evaluator Value}
    (heval : Evaluates (.exprs (callee :: es)) scope st (.values (f :: vs)) st₁)
    (h : Calls f vs st₁ r) : Yields (.expr (.call callee es)) scope st Single r := by
  cases r with
  | ok v st₂ =>
      refine ⟨[v], rfl, ?_⟩
      rcases h with ⟨b, rfl, rfl, herror, rfl⟩ |
        ⟨identity, parameters, body, home, st₃, rfl, hlength, hdepth, hbody, rfl⟩
      · exact .call_builtin heval herror
      · exact .call_function heval hlength hdepth hbody
  | error signal st₂ =>
      cases signal with
      | «return» v => exact absurd h not_false
      | error e => exact trivial

/-! ### Expressions and statements

By induction on the program, with an assumption on calls. `Yields` relates the values that a part comes to and
the ones that its code would leave on the stack. -/

/-- What the value of a statement says of the values of its outcome. -/
def OfStmt (s : Stmt) (v : Value) (vs : List Value) : Prop :=
  (s.isExpr = true → vs = [v]) ∧ (s.isExpr = false → v = .null)

variable {call : Value → List Value → EvalM Value}

mutual

theorem evalExpr_yields (hcall : ∀ f vs st, Calls f vs st (call f vs st)) (scope : Nat) :
    ∀ (e : Expr) (st : Evaluator), Yields (.expr e) scope st Single (evalExpr call scope e st)
  | .identifier name, st => by
      unfold evalExpr loadName
      rw [bind_apply, get_apply]
      cases hlookup : lookup? st.scopes name (scope + 1) scope with
      | some v =>
          simp only [hlookup]
          exact ⟨[v], rfl, .bound hlookup⟩
      | none =>
          simp only [hlookup]
          cases hbuiltin : Builtin.ofName? name with
          | some b => exact ⟨[.builtin b], rfl, .builtin hlookup hbuiltin⟩
          | none => exact trivial
  | .integer value, st => by
      unfold evalExpr
      exact ⟨_, rfl, .constant rfl⟩
  | .boolean value, st => by
      unfold evalExpr
      exact ⟨_, rfl, .boolean⟩
  | .string contents, st => by
      unfold evalExpr
      exact ⟨_, rfl, .constant rfl⟩
  | .array elements, st => by
      unfold evalExpr
      apply Yields.of_bind (evalExprs_yields hcall scope elements [] st)
      · rintro vs ws st₁ rfl heval
        exact ⟨_, rfl, .operation rfl heval rfl⟩
      · intro v st₁ heval
        exact .operation_return rfl heval
  | .hash pairs, st => by
      unfold evalExpr
      apply Yields.of_bind (evalPairs_yields hcall scope pairs [] st)
      · intro entries vs st₁ hpairs heval
        refine ⟨_, rfl, .operation rfl heval ?_⟩
        rw [Expr.combine?, hpairs]
        rfl
      · intro v st₁ heval
        exact .operation_return rfl heval
  | .unary operator operand, st => by
      unfold evalExpr
      apply Yields.of_bind (evalExpr_yields hcall scope operand st)
      · rintro v vs st₁ rfl heval
        exact .operation rfl (.exprs_cons heval .exprs_nil) (unary_computes operator v st₁)
      · intro v st₁ heval
        exact .operation_return rfl (.exprs_head heval)
  | .binary left operator right, st => by
      unfold evalExpr
      by_cases hless : operator = .lessThan
      · subst hless
        apply Yields.of_bind (evalExpr_yields hcall scope left st)
        · rintro l ls st₁ rfl hleft
          apply Yields.of_bind (evalExpr_yields hcall scope right st₁)
          · rintro r rs st₂ rfl hright
            rcases binary_computes .lessThan l r st₂ with ⟨-, e, hbinary⟩ | ⟨w, hresult, hbinary⟩
            · rw [hbinary]
              exact trivial
            · rw [hbinary]
              cases l <;> cases r <;> cases hresult
              exact ⟨_, rfl, .less hleft hright⟩
          · intro v st₂ hright
            exact .less_right hleft hright
        · intro v st₁ hleft
          exact .less_left hleft
      · have hoperands : (Expr.binary left operator right).operands? = some [left, right] :=
          if_neg hless
        apply Yields.of_bind (evalExpr_yields hcall scope left st)
        · rintro l ls st₁ rfl hleft
          apply Yields.of_bind (evalExpr_yields hcall scope right st₁)
          · rintro r rs st₂ rfl hright
            exact .operation hoperands (.exprs_cons hleft (.exprs_cons hright .exprs_nil))
              (binary_computes operator l r st₂)
          · intro v st₂ hright
            exact .operation_return hoperands (.exprs_tail hleft (.exprs_head hright))
        · intro v st₁ hleft
          exact .operation_return hoperands (.exprs_head hleft)
  | .if condition consequence none, st => by
      unfold evalExpr
      apply Yields.of_bind (evalExpr_yields hcall scope condition st)
      · rintro v vs st₁ rfl hcondition
        cases htruthy : v.isTruthy with
        | true =>
            have hbranch := evalBlock_yields hcall scope consequence .null st₁ fun _ => rfl
            exact hbranch.of_part fun o st₂ heval => .if_true hcondition htruthy heval
        | false => exact ⟨_, rfl, .if_false hcondition htruthy .branch_nil⟩
      · intro v st₁ heval
        exact .if_return heval
  | .if condition consequence (some alternative), st => by
      unfold evalExpr
      apply Yields.of_bind (evalExpr_yields hcall scope condition st)
      · rintro v vs st₁ rfl hcondition
        cases htruthy : v.isTruthy with
        | true =>
            have hbranch := evalBlock_yields hcall scope consequence .null st₁ fun _ => rfl
            exact hbranch.of_part fun o st₂ heval => .if_true hcondition htruthy heval
        | false =>
            have hbranch := evalBlock_yields hcall scope alternative .null st₁ fun _ => rfl
            exact hbranch.of_part fun o st₂ heval => .if_false hcondition htruthy heval
      · intro v st₁ heval
        exact .if_return heval
  | .function _ parameters body, st => by
      unfold evalExpr
      exact ⟨_, rfl, .function⟩
  | .call callee arguments, st => by
      unfold evalExpr
      apply Yields.of_bind (evalExpr_yields hcall scope callee st)
      · rintro f fs st₁ rfl hcallee
        apply Yields.of_bind (evalExprs_yields hcall scope arguments [] st₁)
        · intro vs ws st₂ hws harguments
          obtain rfl : vs = ws := hws
          exact .call (.exprs_cons hcallee harguments) (hcall f vs st₂)
        · intro v st₂ harguments
          exact .operation_return rfl (.exprs_tail hcallee harguments)
      · intro v st₁ hcallee
        exact .operation_return rfl (.exprs_head hcallee)
  | .index collection key, st => by
      unfold evalExpr
      apply Yields.of_bind (evalExpr_yields hcall scope collection st)
      · rintro c cs st₁ rfl hcollection
        apply Yields.of_bind (evalExpr_yields hcall scope key st₁)
        · rintro k ks st₂ rfl hkey
          exact .operation rfl (.exprs_cons hcollection (.exprs_cons hkey .exprs_nil))
            (element_computes c k st₂)
        · intro v st₂ hkey
          exact .operation_return rfl (.exprs_tail hcollection (.exprs_head hkey))
      · intro v st₁ hcollection
        exact .operation_return rfl (.exprs_head hcollection)

/-- Expressions yield their values behind those that there are already. -/
theorem evalExprs_yields (hcall : ∀ f vs st, Calls f vs st (call f vs st)) (scope : Nat) :
    ∀ (es : List Expr) (acc : List Value) (st : Evaluator),
      Yields (.exprs es) scope st (fun vs ws => vs = acc.reverse ++ ws)
        (evalExprs call scope acc es st)
  | [], acc, st => by
      unfold evalExprs
      exact ⟨[], (List.append_nil _).symm, .exprs_nil⟩
  | e :: es, acc, st => by
      unfold evalExprs
      apply Yields.of_bind (evalExpr_yields hcall scope e st)
      · rintro v vs st₁ rfl hhead
        have htail := evalExprs_yields hcall scope es (v :: acc) st₁
        cases hr : evalExprs call scope (v :: acc) es st₁ with
        | ok us st₂ =>
            rw [hr] at htail
            obtain ⟨ws, hws, heval⟩ := htail
            refine ⟨v :: ws, ?_, .exprs_cons hhead heval⟩
            rw [hws, List.reverse_cons, List.append_assoc]
            rfl
        | error signal st₂ =>
            rw [hr] at htail
            cases signal with
            | «return» w => exact .exprs_tail hhead htail
            | error err => exact trivial
      · intro v st₁ hhead
        exact .exprs_head hhead

/-- A hash literal yields the keys and values that the hash is built from. -/
theorem evalPairs_yields (hcall : ∀ f vs st, Calls f vs st (call f vs st)) (scope : Nat) :
    ∀ (pairs : List (Expr × Expr)) (entries : Dictionary Value) (st : Evaluator),
      Yields (.exprs (Expr.flatten pairs)) scope st
        (fun d vs => Value.hashOfPairs entries (MachineM.pairUp vs) = .ok (.hash d))
        (evalPairs call scope entries pairs st)
  | [], entries, st => by
      unfold evalPairs
      exact ⟨[], rfl, .exprs_nil⟩
  | (key, value) :: pairs, entries, st => by
      unfold evalPairs
      apply Yields.of_bind (evalExpr_yields hcall scope key st)
      · rintro k ks st₁ rfl hkey
        cases hhash : k.key? with
        | none => exact trivial
        | some hashKey =>
            apply Yields.of_bind (evalExpr_yields hcall scope value st₁)
            · rintro v vs st₂ rfl hvalue
              have hrest := evalPairs_yields hcall scope pairs
                (Dictionary.insert ⟨hashKey, k⟩ v entries) st₂
              cases hr : evalPairs call scope (Dictionary.insert ⟨hashKey, k⟩ v entries) pairs st₂ with
              | ok d st₃ =>
                  rw [hr] at hrest
                  obtain ⟨ws, hws, heval⟩ := hrest
                  refine ⟨k :: v :: ws, ?_, .exprs_cons hkey (.exprs_cons hvalue heval)⟩
                  simp only [MachineM.pairUp, Value.hashOfPairs, hhash, hws]
              | error signal st₃ =>
                  rw [hr] at hrest
                  cases signal with
                  | «return» w => exact .exprs_tail hkey (.exprs_tail hvalue hrest)
                  | error err => exact trivial
            · intro v st₂ hvalue
              exact .exprs_tail hkey (.exprs_head hvalue)
      · intro v st₁ hkey
        exact .exprs_head hkey

theorem evalStmt_yields (hcall : ∀ f vs st, Calls f vs st (call f vs st)) (scope : Nat) :
    ∀ (s : Stmt) (st : Evaluator), Yields (.stmt s) scope st (OfStmt s) (evalStmt call scope s st)
  | .let name value, st => by
      unfold evalStmt
      apply Yields.of_bind (evalExpr_yields hcall scope value st)
      · rintro v vs st₁ rfl heval
        exact ⟨[], ⟨fun h => absurd h Bool.false_ne_true, fun _ => rfl⟩, .let heval⟩
      · intro v st₁ heval
        exact .let_return heval
  | .return none, st => by
      unfold evalStmt
      exact .return_none
  | .return (some value), st => by
      unfold evalStmt
      apply Yields.of_bind (evalExpr_yields hcall scope value st)
      · rintro v vs st₁ rfl heval
        exact .return_some heval
      · intro v st₁ heval
        exact .return_return heval
  | .expr value, st => by
      unfold evalStmt
      have heval := evalExpr_yields hcall scope value st
      cases hr : evalExpr call scope value st with
      | ok v st₁ =>
          rw [hr] at heval
          obtain ⟨vs, hvs, heval⟩ := heval
          exact ⟨vs, ⟨fun _ => hvs, fun h => absurd h.symm Bool.false_ne_true⟩, .expr heval⟩
      | error signal st₁ =>
          rw [hr] at heval
          cases signal with
          | «return» w => exact .expr heval
          | error err => exact trivial

theorem evalBlock_yields (hcall : ∀ f vs st, Calls f vs st (call f vs st)) (scope : Nat) :
    ∀ (ss : List Stmt) (last : Value) (st : Evaluator), (ss = [] → last = .null) →
      Yields (.branch ss) scope st Single (evalBlock call scope last ss st)
  | [], last, st, hlast => by
      unfold evalBlock
      exact ⟨[.null], congrArg ([·]) (hlast rfl).symm, .branch_nil⟩
  | s :: ss, last, st, _ => by
      unfold evalBlock
      by_cases hend : ss = [] ∧ s.isExpr = true
      · obtain ⟨rfl, hs⟩ := hend
        obtain ⟨value, rfl⟩ := Stmt.isExpr_eq_true_iff.mp hs
        apply Yields.of_bind (evalStmt_yields hcall scope (.expr value) st)
        · intro v vs st₁ hvs heval
          cases heval with
          | expr heval =>
              unfold evalBlock
              exact ⟨vs, hvs.1 rfl, .branch_value heval⟩
        · intro v st₁ heval
          cases heval with
          | expr heval => exact .branch_value heval
      · have hs : ss = [] → s.isExpr = false := by
          intro hnil
          rw [Bool.eq_false_iff]
          exact fun h => hend ⟨hnil, h⟩
        apply Yields.of_bind (evalStmt_yields hcall scope s st)
        · intro v vs st₁ hvs heval
          have hrest := evalBlock_yields hcall scope ss v st₁ fun hnil => hvs.2 (hs hnil)
          exact hrest.of_part fun o st₂ h => .branch_cons hs heval h
        · intro v st₁ heval
          exact .branch_return hs heval

end

/-- What the statements of a body come to is always a `return`, unless it is an error. -/
def Returns (part : Part) (scope : Nat) (st : Evaluator) :
    EStateM.Result Signal Evaluator Value → Prop
  | .ok v st' | .error (.return v) st' => Evaluates part scope st (.returned v) st'
  | .error (.error _) _ => True

theorem Returns.of_part {part part₁ : Part} {scope : Nat} {st st₁ : Evaluator}
    {r : EStateM.Result Signal Evaluator Value} (h : Returns part₁ scope st₁ r)
    (hpart : ∀ o st₂, Evaluates part₁ scope st₁ o st₂ → Evaluates part scope st o st₂) :
    Returns part scope st r := by
  cases r with
  | ok v st₂ => exact hpart _ _ h
  | error signal st₂ =>
      cases signal with
      | «return» v => exact hpart _ _ h
      | error e => exact trivial

/-- A body returns the value of its last statement, unless it returns early. -/
theorem evalBlock_body (hcall : ∀ f vs st, Calls f vs st (call f vs st)) (scope : Nat) :
    ∀ (ss : List Stmt) (last : Value) (st : Evaluator), (ss = [] → last = .null) →
      Returns (.body ss) scope st (evalBlock call scope last ss st)
  | [], last, st, hlast => by
      unfold evalBlock
      rw [hlast rfl]
      exact .body_nil
  | s :: ss, last, st, _ => by
      have hstmt := evalStmt_yields hcall scope s st
      unfold evalBlock
      rw [bind_apply]
      cases hr : evalStmt call scope s st with
      | error signal st₁ =>
          rw [hr] at hstmt
          cases signal with
          | error e => exact trivial
          | «return» v =>
              by_cases hend : ss = [] ∧ s.isExpr = true
              · obtain ⟨rfl, hs⟩ := hend
                obtain ⟨value, rfl⟩ := Stmt.isExpr_eq_true_iff.mp hs
                cases hstmt with
                | expr heval => exact .body_value_return heval
              · refine .body_return (fun hnil => ?_) hstmt
                rw [Bool.eq_false_iff]
                exact fun h => hend ⟨hnil, h⟩
      | ok v st₁ =>
          rw [hr] at hstmt
          obtain ⟨vs, hvs, hstmt⟩ := hstmt
          by_cases hend : ss = [] ∧ s.isExpr = true
          · obtain ⟨rfl, hs⟩ := hend
            obtain ⟨value, rfl⟩ := Stmt.isExpr_eq_true_iff.mp hs
            obtain rfl := hvs.1 rfl
            cases hstmt with
            | expr heval =>
                unfold evalBlock
                exact .body_value heval
          · have hs : ss = [] → s.isExpr = false := by
              intro hnil
              rw [Bool.eq_false_iff]
              exact fun h => hend ⟨hnil, h⟩
            have hreturn : s.returnsValue = false := by
              rw [Bool.eq_false_iff]
              intro h
              obtain ⟨value, rfl⟩ := Stmt.returnsValue_eq_true_iff.mp h
              cases hstmt
            have hrest := evalBlock_body hcall scope ss v st₁ fun hnil => hvs.2 (hs hnil)
            exact hrest.of_part fun o st₂ h => .body_cons (fun hnil => ⟨hs hnil, hreturn⟩) hstmt h

/-- A program yields the value of its last statement, if that is an expression. -/
theorem evalBlock_stmts (hcall : ∀ f vs st, Calls f vs st (call f vs st)) (scope : Nat) :
    ∀ (ss : List Stmt) (last : Value) (st : Evaluator),
      Yields (.stmts ss) scope st (fun v vs => Stmt.endsWithExpr ss = true → vs = [v])
        (evalBlock call scope last ss st)
  | [], last, st => by
      unfold evalBlock
      exact ⟨[], fun h => absurd h Bool.false_ne_true, .stmts_nil⟩
  | [s], last, st => by
      unfold evalBlock
      apply Yields.of_bind (evalStmt_yields hcall scope s st)
      · intro v vs st₁ hvs heval
        unfold evalBlock
        exact ⟨vs, hvs.1, .stmts_last heval⟩
      · intro v st₁ heval
        exact .stmts_last heval
  | s :: s' :: ss, last, st => by
      unfold evalBlock
      apply Yields.of_bind (evalStmt_yields hcall scope s st)
      · intro v vs st₁ _ heval
        have hrest := evalBlock_stmts hcall scope (s' :: ss) v st₁
        exact hrest.of_part fun o st₂ h => .stmts_cons (List.cons_ne_nil _ _) heval h
      · intro v st₁ heval
        exact .stmts_return heval

/-! ### Functions -/

/-- **Calls**: a call that does not fail is an evaluation of the body of the function. -/
theorem callFunction_calls : ∀ (n : Nat) (f : Value) (vs : List Value) (st : Evaluator),
    Calls f vs st (callFunction n f vs st)
  | 0, _, _, _ => trivial
  | n + 1, f, vs, st => by
      cases f with
      | builtin b =>
          unfold callFunction
          rw [bind_apply, modify_apply]
          cases hresult : b.result vs with
          | error message => exact trivial
          | _ => exact .inl ⟨b, rfl, hresult.symm, rfl, rfl⟩
      | function identity parameters body home =>
          unfold callFunction
          by_cases hlength : vs.length = parameters.length
          · by_cases hdepth : maxCallDepth ≤ st.depth
            · simp only [if_neg (not_not_intro hlength), bind_apply, get_apply, if_pos hdepth,
                fail_apply]
              exact trivial
            · simp only [if_neg (not_not_intro hlength), bind_apply, get_apply, if_neg hdepth, runBody]
              have hbody := evalBlock_body (callFunction_calls n) st.scopes.size body .null
                (enterCall parameters vs home st) fun _ => rfl
              cases hr : evalBlock (callFunction n) st.scopes.size .null body
                  (enterCall parameters vs home st) with
              | ok v st₁ =>
                  rw [hr] at hbody
                  exact .inr ⟨identity, parameters, body, home, st₁, rfl, hlength,
                    Nat.lt_of_not_le hdepth, hbody, rfl⟩
              | error signal st₁ =>
                  rw [hr] at hbody
                  cases signal with
                  | «return» v =>
                      exact .inr ⟨identity, parameters, body, home, st₁, rfl, hlength,
                        Nat.lt_of_not_le hdepth, hbody, rfl⟩
                  | error e => exact trivial
          · simp only [if_pos hlength, bind_apply, fail_apply]
            exact trivial
      | _ => exact trivial

end EvalM

/-- **Evaluations**: the evaluator computes what the rules say. A program that ends with an expression
statement has the value of that one, unless it returns before. -/
theorem Evaluator.run_evaluates [StringHash] (program : Program) (st : Evaluator) :
    EvalM.Yields (.stmts program) 0 st (fun v vs => Stmt.endsWithExpr program = true → vs = [v])
      (EvalM.evalBlock (EvalM.callFunction (maxCallDepth + 1)) 0 .null program st) :=
  EvalM.evalBlock_stmts (EvalM.callFunction_calls _) 0 program .null st

/-! ## What an evaluation leaves alone -/

/-- An evaluation in a scope changes the names of that scope alone, and it opens others. -/
structure Evaluator.Frame (scope : Nat) (st st' : Evaluator) : Prop where
  size : st.scopes.size ≤ st'.scopes.size
  functionsMade : st.functionsMade ≤ st'.functionsMade
  depth : st'.depth = st.depth
  others : ∀ i, i < st.scopes.size → i ≠ scope → st'.scopes[i]? = st.scopes[i]?
  outer : st'.scopes[scope]?.map Scope.outer = st.scopes[scope]?.map Scope.outer

namespace Evaluator.Frame

variable {scope : Nat} {st st₁ st₂ : Evaluator}

theorem refl (scope : Nat) (st : Evaluator) : Frame scope st st :=
  ⟨Nat.le_refl _, Nat.le_refl _, rfl, fun _ _ _ => rfl, rfl⟩

theorem trans (h₁ : Frame scope st st₁) (h₂ : Frame scope st₁ st₂) : Frame scope st st₂ where
  size := Nat.le_trans h₁.size h₂.size
  functionsMade := Nat.le_trans h₁.functionsMade h₂.functionsMade
  depth := h₂.depth.trans h₁.depth
  others := fun i hi hne =>
    (h₂.others i (Nat.lt_of_lt_of_le hi h₁.size) hne).trans (h₁.others i hi hne)
  outer := h₂.outer.trans h₁.outer

/-- One evaluation behind another. The scope is still there in between. -/
theorem andThen (h₁ : Frame scope st st₁) (hscope : scope < st.scopes.size)
    (h₂ : scope < st₁.scopes.size → Frame scope st₁ st₂) : Frame scope st st₂ :=
  h₁.trans (h₂ (Nat.lt_of_lt_of_le hscope h₁.size))

theorem bind (name : String) (v : Value) : Frame scope st (st.bind name v scope) where
  size := Nat.le_of_eq (Array.size_modify ..).symm
  functionsMade := Nat.le_refl _
  depth := rfl
  others := by
    intro i _ hne
    rw [Evaluator.bind, Array.getElem?_modify, if_neg (Ne.symm hne)]
  outer := by
    rw [Evaluator.bind, Array.getElem?_modify, if_pos rfl, Option.map_map]
    rfl

variable {parameters : List String} {vs : List Value} {home : Nat}

/-- A call opens a scope. -/
theorem size_enterCall (parameters : List String) (vs : List Value) (home : Nat) (st : Evaluator) :
    (enterCall parameters vs home st).scopes.size = st.scopes.size + 1 := Array.size_push ..

theorem lt_size_enterCall (parameters : List String) (vs : List Value) (home : Nat) (st : Evaluator) :
    st.scopes.size < (enterCall parameters vs home st).scopes.size :=
  Nat.lt_of_lt_of_eq (Nat.lt_succ_self _) (size_enterCall ..).symm

/-- The scopes around a call are still there at its end. -/
theorem of_enterCall (h : Frame st.scopes.size (enterCall parameters vs home st) st₁) :
    st.scopes.size < st₁.scopes.size ∧
      ∀ i, i < st.scopes.size → st₁.scopes[i]? = st.scopes[i]? := by
  have hsize := h.size
  rw [size_enterCall] at hsize
  refine ⟨hsize, fun i hi => ?_⟩
  have hkept := h.others i (Nat.lt_trans hi (lt_size_enterCall ..)) (Nat.ne_of_lt hi)
  rwa [enterCall, Array.getElem?_push_lt hi, ← Array.getElem?_eq_getElem hi] at hkept

/-- A call that makes no function leaves the scopes as they were. -/
theorem leaveCall_scopes (h : Frame st.scopes.size (enterCall parameters vs home st) st₁)
    (hmade : st₁.functionsMade = st.functionsMade) :
    (leaveCall st.scopes.size st.functionsMade st₁).scopes = st.scopes := by
  obtain ⟨hsize, hkept⟩ := h.of_enterCall
  rw [leaveCall, if_pos hmade]
  ext i hi hi'
  · rw [Array.size_shrink]
    omega
  · have hsome := hkept i hi'
    rw [Array.getElem?_eq_getElem (by omega), Array.getElem?_eq_getElem hi'] at hsome
    rw [Array.getElem_shrink]
    exact Option.some.inj hsome

/-- A call leaves all scopes alone that were there before. -/
theorem call (hscope : scope < st.scopes.size)
    (h : Frame st.scopes.size (enterCall parameters vs home st) st₁) :
    Frame scope st (leaveCall st.scopes.size st.functionsMade st₁) := by
  have hdepth : (leaveCall st.scopes.size st.functionsMade st₁).depth = st.depth := by
    rw [leaveCall, h.depth]
    exact Nat.add_sub_cancel _ _
  by_cases hmade : st₁.functionsMade = st.functionsMade
  · have hscopes := h.leaveCall_scopes hmade
    exact ⟨Nat.le_of_eq (congrArg _ hscopes.symm), h.functionsMade, hdepth,
      fun i _ _ => by rw [hscopes], by rw [hscopes]⟩
  · obtain ⟨hsize, hkept⟩ := h.of_enterCall
    have hscopes : (leaveCall st.scopes.size st.functionsMade st₁).scopes = st₁.scopes := if_neg hmade
    refine ⟨?_, h.functionsMade, hdepth, fun i hi _ => ?_, ?_⟩
    · rw [hscopes]
      exact Nat.le_of_lt hsize
    · rw [hscopes]
      exact hkept i hi
    · rw [hscopes, hkept scope hscope]

end Evaluator.Frame

/-- **The frame** of an evaluation: it changes the names of its own scope, and it opens others. -/
theorem Evaluates.frame [StringHash] {P : Part} {scope : Nat} {st st' : Evaluator} {o : Outcome}
    (h : Evaluates P scope st o st') (hscope : scope < st.scopes.size) : st.Frame scope st' := by
  -- the scope of an activation is there from its beginning on, which calls rely on
  induction h with
  | bound => exact .refl _ _
  | builtin => exact .refl _ _
  | constant => exact .refl _ _
  | boolean => exact .refl _ _
  | function => exact ⟨Nat.le_refl _, Nat.le_succ _, rfl, fun _ _ _ => rfl, rfl⟩
  | operation _ _ _ ih => exact ih hscope
  | operation_return _ _ ih => exact ih hscope
  | less _ _ ih₁ ih₂ => exact (ih₁ hscope).andThen hscope ih₂
  | less_left _ ih => exact ih hscope
  | less_right _ _ ih₁ ih₂ => exact (ih₁ hscope).andThen hscope ih₂
  | call_builtin _ _ ih =>
      have h := ih hscope
      exact ⟨h.size, h.functionsMade, h.depth, h.others, h.outer⟩
  | call_function _ _ _ _ ih₁ ih₂ =>
      apply (ih₁ hscope).andThen hscope
      intro hscope₁
      apply Evaluator.Frame.call hscope₁
      exact ih₂ (Evaluator.Frame.lt_size_enterCall ..)
  | if_true _ _ _ ih₁ ih₂ => exact (ih₁ hscope).andThen hscope ih₂
  | if_false _ _ _ ih₁ ih₂ => exact (ih₁ hscope).andThen hscope ih₂
  | if_return _ ih => exact ih hscope
  | exprs_nil => exact .refl _ _
  | exprs_cons _ _ ih₁ ih₂ => exact (ih₁ hscope).andThen hscope ih₂
  | exprs_head _ ih => exact ih hscope
  | exprs_tail _ _ ih₁ ih₂ => exact (ih₁ hscope).andThen hscope ih₂
  | «let» _ ih => exact (ih hscope).trans (.bind _ _)
  | let_return _ ih => exact ih hscope
  | return_none => exact .refl _ _
  | return_some _ ih => exact ih hscope
  | return_return _ ih => exact ih hscope
  | expr _ ih => exact ih hscope
  | stmts_nil => exact .refl _ _
  | stmts_last _ ih => exact ih hscope
  | stmts_cons _ _ _ ih₁ ih₂ => exact (ih₁ hscope).andThen hscope ih₂
  | stmts_return _ ih => exact ih hscope
  | branch_nil => exact .refl _ _
  | branch_value _ ih => exact ih hscope
  | branch_cons _ _ _ ih₁ ih₂ => exact (ih₁ hscope).andThen hscope ih₂
  | branch_return _ _ ih => exact ih hscope
  | body_nil => exact .refl _ _
  | body_value _ ih => exact ih hscope
  | body_value_return _ ih => exact ih hscope
  | body_cons _ _ _ ih₁ ih₂ => exact (ih₁ hscope).andThen hscope ih₂
  | body_return _ _ ih => exact ih hscope

end ScriptLang
