import ScriptLang.Proofs.Evaluator.ErrorValues
import ScriptLang.Value.SipHash

/-!
# The first operation that fails

An evaluation stops at the first operation that fails. `Stops n scope activity st op st₁ st'` says so in the
order of the evaluation: parts in front of the operation `op` have come to values, `op` fails in the state
`st₁`, and `st'` is that state with the calls left that were active. No rule has a premise about anything
behind the operation.

Stops are the failures of the evaluator (`Stops.run_eq_error`), and every failure is a stop
(`EvalM.evalExpr_stops` and those beside it). Main statement: `Evaluator.errors_are_no_data`.
-/

namespace ScriptLang

open EvalM (enterCall leaveCall callFunction evalExpr evalExprs evalPairs evalStmt evalBlock fail lookup?
  loadName unary integerBinary binary element runBody bind_eq_error)

/-! ## Operations -/

/-- Why an operator in front of its operand fails, if it does. -/
def Operator.unaryError? : Operator → Value → Option EvalError
  | .bang, _ | .minus, .integer _ => none
  | operator, v => some (.unknownUnaryOperator operator v.kind)

/-- Why an operator between two integers fails, if it does. -/
def Operator.integerError? : Operator → Int64 → Option EvalError
  | .slash, r => if r = 0 then some .divisionByZero else none
  | .bang, _ => some (.unknownBinaryOperator .integer .bang .integer)
  | _, _ => none

/-- Why an operator between its operands fails, if it does. -/
def Operator.binaryError? : Operator → Value → Value → Option EvalError
  | operator, .integer _, .integer r => operator.integerError? r
  | .plus, .string _, .string _ | .equal, _, _ | .notEqual, _, _ => none
  | operator, left, right =>
    some (if left.kind = right.kind then .unknownBinaryOperator left.kind operator right.kind
      else .typeMismatch left.kind operator right.kind)

section

variable [StringHash]

/-- Why an element cannot be looked up, if so. -/
def Value.elementError? (collection key : Value) : Option EvalError :=
  match collection.element key with
  | .ok _ => none
  | .error (.unusableHashKey kind) => some (.unusableHashKey kind)
  | .error (.indexNotSupported kind) => some (.indexNotSupported kind)

/-- Why a value cannot be a key of a hash, if so. -/
def Value.keyError? (v : Value) : Option EvalError :=
  match v.key? with
  | some _ => none
  | none => some (.unusableHashKey v.kind)

/-- A key is unusable if it is not an integer, a boolean or a string. -/
theorem Value.keyError?_eq_some {v : Value} {e : EvalError} :
    v.keyError? = some e ↔ v.key? = none ∧ e = .unusableHashKey v.kind := by
  unfold keyError?
  cases v.key? with
  | some hashKey => simp
  | none => simp [eq_comm]

namespace Evaluator

/-- Why a name has no value, if so. -/
def loadError? (st : Evaluator) (name : String) (scope : Nat) : Option EvalError :=
  match lookup? st.scopes name (scope + 1) scope, Builtin.ofName? name with
  | none, none => some (.identifierNotFound name)
  | _, _ => none

/-- Why a value cannot be called, if so. A function may still fail in its body. -/
def callError? (st : Evaluator) : Value → List Value → Option EvalError
  | .function _ parameters _ _, arguments =>
    if arguments.length ≠ parameters.length then
      some (.wrongArgumentCount parameters.length arguments.length)
    else if maxCallDepth ≤ st.depth then some .callDepthExceeded
    else none
  | .builtin b, arguments =>
    match b.result arguments with
    | .error message => some (.builtin message)
    | _ => none
  | callee, _ => some (.notAFunction callee.kind)

/-- What may fail in an evaluation. -/
inductive Operation where
  | load (name : String) (scope : Nat)
  | unary (operator : Operator) (operand : Value)
  | binary (operator : Operator) (left right : Value)
  | element (collection key : Value)
  /-- A key of a hash literal is put into the hash. -/
  | key (key : Value)
  | call (callee : Value) (arguments : List Value)

/-- Why an operation fails in a state, if it does. -/
def Operation.error? (st : Evaluator) : Operation → Option EvalError
  | .load name scope => st.loadError? name scope
  | .unary operator operand => operator.unaryError? operand
  | .binary operator left right => operator.binaryError? left right
  | .element collection k => collection.elementError? k
  | .key k => k.keyError?
  | .call callee arguments => st.callError? callee arguments

/-! ## Stops -/

/-- In a scope, an activity goes on with a part of it, when the parts in front have come to values. -/
inductive GoesOn (n scope : Nat) : Activity → Evaluator → Activity → Evaluator → Prop where
  | array {st : Evaluator} {elements : List Expr} : GoesOn n scope (.expr (.array elements)) st (.exprs [] elements) st
  | hash {st : Evaluator} {pairs : List (Expr × Expr)} : GoesOn n scope (.expr (.hash pairs)) st (.pairs [] pairs) st
  | unary {st : Evaluator} {operator : Operator} {operand : Expr} :
      GoesOn n scope (.expr (.unary operator operand)) st (.expr operand) st
  | left {st : Evaluator} {left right : Expr} {operator : Operator} :
      GoesOn n scope (.expr (.binary left operator right)) st (.expr left) st
  | right {st st₁ : Evaluator} {left right : Expr} {operator : Operator} {l : Value} :
      evalExpr (callFunction n) scope left st = .ok l st₁ →
      GoesOn n scope (.expr (.binary left operator right)) st (.expr right) st₁
  | condition {st : Evaluator} {condition : Expr} {consequence : List Stmt} {alternative : Option (List Stmt)} :
      GoesOn n scope (.expr (.if condition consequence alternative)) st (.expr condition) st
  | consequence {st st₁ : Evaluator} {condition : Expr} {consequence : List Stmt}
      {alternative : Option (List Stmt)} {v : Value} :
      evalExpr (callFunction n) scope condition st = .ok v st₁ → v.isTruthy = true →
      GoesOn n scope (.expr (.if condition consequence alternative)) st (.block .null consequence) st₁
  | alternative {st st₁ : Evaluator} {condition : Expr} {consequence alternative : List Stmt} {v : Value} :
      evalExpr (callFunction n) scope condition st = .ok v st₁ → v.isTruthy = false →
      GoesOn n scope (.expr (.if condition consequence (some alternative))) st (.block .null alternative) st₁
  | callee {st : Evaluator} {callee : Expr} {arguments : List Expr} :
      GoesOn n scope (.expr (.call callee arguments)) st (.expr callee) st
  | arguments {st st₁ : Evaluator} {callee : Expr} {arguments : List Expr} {f : Value} :
      evalExpr (callFunction n) scope callee st = .ok f st₁ →
      GoesOn n scope (.expr (.call callee arguments)) st (.exprs [] arguments) st₁
  | collection {st : Evaluator} {collection key : Expr} :
      GoesOn n scope (.expr (.index collection key)) st (.expr collection) st
  | key {st st₁ : Evaluator} {collection key : Expr} {c : Value} :
      evalExpr (callFunction n) scope collection st = .ok c st₁ →
      GoesOn n scope (.expr (.index collection key)) st (.expr key) st₁
  | exprs_head {st : Evaluator} {acc : List Value} {e : Expr} {es : List Expr} :
      GoesOn n scope (.exprs acc (e :: es)) st (.expr e) st
  | exprs_tail {st st₁ : Evaluator} {acc : List Value} {e : Expr} {es : List Expr} {v : Value} :
      evalExpr (callFunction n) scope e st = .ok v st₁ →
      GoesOn n scope (.exprs acc (e :: es)) st (.exprs (v :: acc) es) st₁
  | pair_key {st : Evaluator} {entries : Dictionary Value} {key value : Expr} {pairs : List (Expr × Expr)} :
      GoesOn n scope (.pairs entries ((key, value) :: pairs)) st (.expr key) st
  | pair_value {st st₁ : Evaluator} {entries : Dictionary Value} {key value : Expr} {pairs : List (Expr × Expr)}
      {k : Value} {hashKey : HashKey} :
      evalExpr (callFunction n) scope key st = .ok k st₁ → k.key? = some hashKey →
      GoesOn n scope (.pairs entries ((key, value) :: pairs)) st (.expr value) st₁
  | pairs_tail {st st₁ st₂ : Evaluator} {entries : Dictionary Value} {key value : Expr}
      {pairs : List (Expr × Expr)} {k v : Value} {hashKey : HashKey} :
      evalExpr (callFunction n) scope key st = .ok k st₁ → k.key? = some hashKey →
      evalExpr (callFunction n) scope value st₁ = .ok v st₂ →
      GoesOn n scope (.pairs entries ((key, value) :: pairs)) st
        (.pairs (Dictionary.insert ⟨hashKey, k⟩ v entries) pairs) st₂
  | let {st : Evaluator} {name : String} {value : Expr} :
      GoesOn n scope (.stmt (.let name value)) st (.expr value) st
  | return {st : Evaluator} {value : Expr} : GoesOn n scope (.stmt (.return (some value))) st (.expr value) st
  | expr {st : Evaluator} {value : Expr} : GoesOn n scope (.stmt (.expr value)) st (.expr value) st
  | block_head {st : Evaluator} {last : Value} {s : Stmt} {ss : List Stmt} :
      GoesOn n scope (.block last (s :: ss)) st (.stmt s) st
  | block_tail {st st₁ : Evaluator} {last v : Value} {s : Stmt} {ss : List Stmt} :
      evalStmt (callFunction n) scope s st = .ok v st₁ →
      GoesOn n scope (.block last (s :: ss)) st (.block v ss) st₁

/-- In a scope, an activity comes to an operation, when all that the operation needs has come to values. -/
inductive Performs : Nat → Nat → Activity → Evaluator → Operation → Evaluator → Prop where
  | load {n scope : Nat} {st : Evaluator} {name : String} :
      Performs n scope (.expr (.identifier name)) st (.load name scope) st
  | unary {n scope : Nat} {st st₁ : Evaluator} {operator : Operator} {operand : Expr} {v : Value} :
      evalExpr (callFunction n) scope operand st = .ok v st₁ →
      Performs n scope (.expr (.unary operator operand)) st (.unary operator v) st₁
  | binary {n scope : Nat} {st st₁ st₂ : Evaluator} {left right : Expr} {operator : Operator} {l r : Value} :
      evalExpr (callFunction n) scope left st = .ok l st₁ →
      evalExpr (callFunction n) scope right st₁ = .ok r st₂ →
      Performs n scope (.expr (.binary left operator right)) st (.binary operator l r) st₂
  | element {n scope : Nat} {st st₁ st₂ : Evaluator} {collection key : Expr} {c k : Value} :
      evalExpr (callFunction n) scope collection st = .ok c st₁ →
      evalExpr (callFunction n) scope key st₁ = .ok k st₂ →
      Performs n scope (.expr (.index collection key)) st (.element c k) st₂
  | key {n scope : Nat} {st st₁ : Evaluator} {entries : Dictionary Value} {key value : Expr}
      {pairs : List (Expr × Expr)} {k : Value} :
      evalExpr (callFunction n) scope key st = .ok k st₁ →
      Performs n scope (.pairs entries ((key, value) :: pairs)) st (.key k) st₁
  | call {n scope : Nat} {st st₁ st₂ : Evaluator} {callee : Expr} {arguments : List Expr} {f : Value}
      {vs : List Value} :
      evalExpr (callFunction (n + 1)) scope callee st = .ok f st₁ →
      evalExprs (callFunction (n + 1)) scope [] arguments st₁ = .ok vs st₂ →
      Performs (n + 1) scope (.expr (.call callee arguments)) st (.call f vs) st₂

/-- An activity stops at the operation `op`, which fails in the state `st₁`, and leaves `st'` behind. -/
inductive Stops : Nat → Nat → Activity → Evaluator → Operation → Evaluator → Evaluator → Prop where
  | operation {n scope : Nat} {activity : Activity} {st st₁ : Evaluator} {op : Operation} {e : EvalError} :
      Performs n scope activity st op st₁ → op.error? st₁ = some e → Stops n scope activity st op st₁ st₁
  | part {n scope : Nat} {activity activity₁ : Activity} {st st₁ st₂ st' : Evaluator} {op : Operation} :
      GoesOn n scope activity st activity₁ st₁ → Stops n scope activity₁ st₁ op st₂ st' →
      Stops n scope activity st op st₂ st'
  | body {n scope : Nat} {activity : Activity} {st st₁ st₂ st' : Evaluator} {identity home : Nat}
      {parameters : List String} {body : List Stmt} {vs : List Value} {op : Operation} :
      Performs (n + 1) scope activity st (.call (.function identity parameters body home) vs) st₁ →
      (Operation.call (.function identity parameters body home) vs).error? st₁ = none →
      Stops n st₁.scopes.size (.block .null body) (enterCall parameters vs home st₁) op st₂ st' →
      Stops (n + 1) scope activity st op st₂ (leaveCall st₁.scopes.size st₁.functionsMade st')

variable {n scope : Nat} {activity activity₁ : Activity} {st st₁ st₂ st' : Evaluator} {op : Operation}
  {e : EvalError} {signal : Signal}

theorem Stops.error? (h : Stops n scope activity st op st₁ st') : ∃ e, op.error? st₁ = some e := by
  induction h with
  | operation _ he => exact ⟨_, he⟩
  | part _ _ ih => exact ih
  | body _ _ _ ih => exact ih

/-- **Nothing is evaluated behind the operation that fails**: nothing is printed, no function is made, and no
name is bound any more. -/
theorem Stops.frame (h : Stops n scope activity st op st₁ st') :
    st'.output = st₁.output ∧ st'.functionsMade = st₁.functionsMade ∧
      st'.scopes.toList <+: st₁.scopes.toList := by
  induction h with
  | operation => exact ⟨rfl, rfl, List.prefix_refl _⟩
  | part _ _ ih => exact ih
  | @body _ _ _ _ _ _ st' _ _ _ _ _ _ _ _ _ ih =>
      refine ⟨ih.1, ih.2.1, List.IsPrefix.trans ?_ ih.2.2⟩
      rw [leaveCall]
      split
      · rw [Array.toList_shrink]
        exact List.take_prefix _ _
      · exact List.prefix_refl _

end Evaluator

end

open Evaluator (Operation GoesOn Performs Stops)

/-! ## Operations of the evaluator -/

namespace EvalM

variable {n scope : Nat} {st st₁ st' : Evaluator} {e : EvalError} {signal : Signal}

/-- A step fails if there is an error for it, and otherwise it comes to a value. -/
def Attempts (x : EvalM Value) (st : Evaluator) : Option EvalError → Prop
  | some e => x st = .error (.error e) st
  | none => ∃ v st', x st = .ok v st'

theorem Attempts.error {x : EvalM Value} {error? : Option EvalError} (h : Attempts x st error?)
    (he : error? = some e) : x st = .error (.error e) st := by
  rw [he] at h
  exact h

/-- An operation that fails has that error, and changes nothing. -/
theorem Attempts.of_error {x : EvalM Value} {error? : Option EvalError} (h : Attempts x st error?)
    (hx : x st = .error signal st') : ∃ e, error? = some e ∧ signal = .error e ∧ st' = st := by
  cases error? with
  | none =>
      obtain ⟨v, st₁, hok⟩ := h
      rw [hok] at hx
      cases hx
  | some e =>
      have hfail : x st = .error (.error e) st := h
      rw [hfail] at hx
      cases hx
      exact ⟨e, rfl, rfl, rfl⟩

/-- Looking a name up fails if it is not bound and no built-in function has it. -/
theorem attempts_loadName (name : String) (scope : Nat) (st : Evaluator) :
    Attempts (loadName name scope) st (st.loadError? name scope) := by
  unfold Evaluator.loadError? loadName
  simp only [bind_apply, get_apply, Attempts]
  cases hlookup : lookup? st.scopes name (scope + 1) scope with
  | some v => exact ⟨v, st, rfl⟩
  | none =>
      cases Builtin.ofName? name with
      | some b => exact ⟨.builtin b, st, rfl⟩
      | none => rfl

theorem attempts_unary (operator : Operator) (v : Value) (st : Evaluator) :
    Attempts (unary operator v) st (operator.unaryError? v) := by
  cases operator <;> cases v <;> first | rfl | exact ⟨_, _, rfl⟩

theorem attempts_integerBinary (operator : Operator) (l r : Int64) (st : Evaluator) :
    Attempts (integerBinary operator l r) st (operator.integerError? r) := by
  cases operator with
  | slash =>
      unfold integerBinary Operator.integerError?
      by_cases hr : r = 0
      · simp only [if_pos hr]
        rfl
      · simp only [if_neg hr]
        exact ⟨_, _, rfl⟩
  | bang => rfl
  | _ => exact ⟨_, _, rfl⟩

/-- An infix operator fails on operands of other kinds. -/
theorem attempts_binary (operator : Operator) (left right : Value) (st : Evaluator) :
    Attempts (binary operator left right) st (operator.binaryError? left right) := by
  fun_cases binary operator left right with
  | case1 => exact attempts_integerBinary operator _ _ st
  | case2 => exact ⟨_, _, rfl⟩
  | case3 | case4 =>
      simp only [Operator.binaryError?, *]
      exact ⟨_, _, rfl⟩
  | case5 | case6 =>
      simp only [Operator.binaryError?, if_true, if_false, *]
      rfl

/-- Indexing fails on other collections, and on unusable keys. -/
theorem attempts_element [StringHash] (collection key : Value) (st : Evaluator) :
    Attempts (element collection key) st (collection.elementError? key) := by
  unfold element Value.elementError?
  cases collection.element key with
  | ok v => exact ⟨v, st, rfl⟩
  | error e => cases e <;> rfl

/-- A built-in function that fails prints nothing. -/
theorem print_of_error {b : Builtin} {vs : List Value} {message : String} (h : b.result vs = .error message)
    (output : Output) : b.print vs output = output := by
  cases b with
  | puts => cases h
  | _ => rfl

section

variable [StringHash]

/-- A built-in function fails where its result is an error value. -/
theorem attempts_builtin (n : Nat) (b : Builtin) (vs : List Value) (st : Evaluator) :
    Attempts (callFunction (n + 1) (.builtin b) vs) st (st.callError? (.builtin b) vs) := by
  cases hresult : b.result vs with
  | error message =>
      simp only [callFunction, Evaluator.callError?, hresult, Attempts, bind_apply, modify_apply,
        print_of_error hresult]
      rfl
  | _ =>
      simp only [callFunction, Evaluator.callError?, hresult]
      exact ⟨_, _, rfl⟩

/-- A call that a function refuses fails in front of its body. -/
theorem callFunction_of_callError {n : Nat} {f : Value} {vs : List Value} (h : st.callError? f vs = some e) :
    callFunction (n + 1) f vs st = .error (.error e) st := by
  cases f with
  | function identity parameters body home =>
      unfold Evaluator.callError? at h
      unfold callFunction
      by_cases hlength : vs.length = parameters.length
      · by_cases hdepth : maxCallDepth ≤ st.depth
        · simp only [if_neg (not_not_intro hlength), if_pos hdepth] at h
          cases h
          simp only [if_neg (not_not_intro hlength), bind_apply, get_apply, if_pos hdepth]
          rfl
        · simp only [if_neg (not_not_intro hlength), if_neg hdepth] at h
          cases h
      · simp only [if_pos hlength] at h
        cases h
        simp only [if_pos hlength]
        rfl
  | builtin b => exact (attempts_builtin n b vs st).error h
  | _ =>
      cases h
      rfl

/-- A call that a function does not refuse comes to what its body comes to. -/
theorem callFunction_of_not_callError {n identity home : Nat} {parameters : List String} {body : List Stmt}
    {vs : List Value} (h : st.callError? (.function identity parameters body home) vs = none) :
    callFunction (n + 1) (.function identity parameters body home) vs st =
      runBody (fun inner => evalBlock (callFunction n) inner .null body) parameters vs home st := by
  unfold Evaluator.callError? at h
  unfold callFunction
  by_cases hlength : vs.length = parameters.length
  · by_cases hdepth : maxCallDepth ≤ st.depth
    · simp only [if_neg (not_not_intro hlength), if_pos hdepth] at h
      cases h
    · simp only [if_neg (not_not_intro hlength), bind_apply, get_apply, if_neg hdepth]
  · simp only [if_pos hlength] at h
    cases h

end

/-- A call fails where its body does, and is left in any case. -/
theorem runBody_eq_error {body : Nat → EvalM Value} {parameters : List String} {vs : List Value} {home : Nat} :
    runBody body parameters vs home st = .error signal st' ↔
      ∃ e st₁, body st.scopes.size (enterCall parameters vs home st) = .error (.error e) st₁ ∧
        signal = .error e ∧ st' = leaveCall st.scopes.size st.functionsMade st₁ := by
  unfold runBody
  simp only
  generalize body st.scopes.size _ = r
  cases r with
  | ok v st₁ => simp
  | error s st₁ =>
      cases s with
      | «return» v => simp
      | error e' =>
          constructor
          · intro h
            cases h
            exact ⟨e', st₁, rfl, rfl, rfl⟩
          · rintro ⟨e, st₂, hbody, rfl, rfl⟩
            cases hbody
            rfl

/-! ## Activities that fail

An activity gathers its values in a list, which does not matter where it fails. -/

/-- A step fails where what goes into its result fails. -/
theorem bind_pure_eq_error {α β : Type} {x : EvalM α} {f : α → β} :
    (x >>= fun a => pure (f a)) st = .error signal st' ↔ x st = .error signal st' := by
  rw [bind_eq_error]
  refine or_iff_left ?_
  rintro ⟨a, st₁, -, h⟩
  cases h

theorem bind_of_ok {α β : Type} {x : EvalM α} {f : α → EvalM β} {a : α} {st₁ : Evaluator}
    (h : x st = .ok a st₁) : (x >>= f) st = f a st₁ := by
  rw [bind_apply, h]

section

variable [StringHash] {call : Value → List Value → EvalM Value}

@[simp]
theorem run_expr_eq_error {e : Expr} :
    (Activity.expr e).run call scope st = .error signal st' ↔ evalExpr call scope e st = .error signal st' :=
  bind_pure_eq_error

@[simp]
theorem run_exprs_eq_error {acc : List Value} {es : List Expr} :
    (Activity.exprs acc es).run call scope st = .error signal st' ↔
      evalExprs call scope acc es st = .error signal st' :=
  Iff.rfl

@[simp]
theorem run_pairs_eq_error {entries : Dictionary Value} {pairs : List (Expr × Expr)} :
    (Activity.pairs entries pairs).run call scope st = .error signal st' ↔
      evalPairs call scope entries pairs st = .error signal st' :=
  bind_pure_eq_error

@[simp]
theorem run_stmt_eq_error {s : Stmt} :
    (Activity.stmt s).run call scope st = .error signal st' ↔ evalStmt call scope s st = .error signal st' :=
  bind_pure_eq_error

@[simp]
theorem run_block_eq_error {last : Value} {ss : List Stmt} :
    (Activity.block last ss).run call scope st = .error signal st' ↔
      evalBlock call scope last ss st = .error signal st' :=
  bind_pure_eq_error

end

end EvalM

namespace Evaluator

open EvalM

variable {n scope : Nat} {activity activity₁ : Activity} {st st₁ st₂ st' : Evaluator} {op : Operation}
  {e : EvalError} {signal : Signal}

variable [StringHash]

/-- **A part** that does not come to values stops the whole. -/
theorem GoesOn.run_eq_error (h : GoesOn n scope activity st activity₁ st₁)
    (hpart : activity₁.run (callFunction n) scope st₁ = .error signal st') :
    activity.run (callFunction n) scope st = .error signal st' := by
  cases h with
  | array | hash | unary | left | callee | collection | exprs_head | pair_key | «let» | «return» | block_head =>
      simp only [run_expr_eq_error, run_exprs_eq_error, run_pairs_eq_error, run_stmt_eq_error,
        run_block_eq_error, evalExpr, evalExprs, evalPairs, evalStmt, evalBlock] at hpart ⊢
      exact bind_eq_error.mpr (.inl hpart)
  | expr =>
      simp only [run_stmt_eq_error, run_expr_eq_error, evalStmt] at hpart ⊢
      exact hpart
  | right heval | arguments heval | key heval =>
      simp only [run_expr_eq_error, run_exprs_eq_error, evalExpr, bind_of_ok heval] at hpart ⊢
      exact bind_eq_error.mpr (.inl hpart)
  | exprs_tail heval =>
      rw [run_exprs_eq_error, evalExprs, bind_of_ok heval]
      exact hpart
  | block_tail heval =>
      rw [run_block_eq_error] at hpart ⊢
      rw [evalBlock, bind_of_ok heval]
      exact hpart
  | @condition _ _ _ alternative =>
      rw [run_expr_eq_error] at hpart ⊢
      cases alternative <;> exact bind_eq_error.mpr (.inl hpart)
  | @consequence _ _ _ _ alternative _ heval htrue =>
      rw [run_expr_eq_error]
      rw [run_block_eq_error] at hpart
      cases alternative <;> simp only [evalExpr, bind_of_ok heval, htrue, if_true, hpart]
  | alternative heval hfalse =>
      rw [run_expr_eq_error]
      rw [run_block_eq_error] at hpart
      simp only [evalExpr, bind_of_ok heval, hfalse, Bool.false_eq_true, if_false, hpart]
  | pair_value heval hkey =>
      rw [run_pairs_eq_error, evalPairs, bind_of_ok heval, hkey]
      exact bind_eq_error.mpr (.inl (run_expr_eq_error.mp hpart))
  | pairs_tail heval hkey hvalue =>
      rw [run_pairs_eq_error, evalPairs, bind_of_ok heval, hkey]
      simp only [bind_of_ok hvalue]
      exact run_pairs_eq_error.mp hpart

/-- **An operation** that fails stops the activity that has come to it. -/
theorem Performs.run_eq_error (h : Performs n scope activity st op st₁) (he : op.error? st₁ = some e) :
    activity.run (callFunction n) scope st = .error (.error e) st₁ := by
  cases h with
  | load =>
      rw [run_expr_eq_error, evalExpr]
      exact (attempts_loadName _ _ _).error he
  | unary heval =>
      rw [run_expr_eq_error, evalExpr, bind_of_ok heval]
      exact (attempts_unary _ _ _).error he
  | binary hleft hright =>
      rw [run_expr_eq_error, evalExpr, bind_of_ok hleft, bind_of_ok hright]
      exact (attempts_binary _ _ _ _).error he
  | element hcollection hkey =>
      rw [run_expr_eq_error, evalExpr, bind_of_ok hcollection, bind_of_ok hkey]
      exact (attempts_element _ _ _).error he
  | key heval =>
      obtain ⟨hkey, rfl⟩ := Value.keyError?_eq_some.mp he
      rw [run_pairs_eq_error, evalPairs, bind_of_ok heval, hkey]
      rfl
  | call hcallee harguments =>
      rw [run_expr_eq_error, evalExpr, bind_of_ok hcallee, bind_of_ok harguments]
      exact callFunction_of_callError he

/-- A function that fails in its body stops the activity that has called it. -/
theorem Performs.run_eq_error_of_body {f : Value} {vs : List Value}
    (h : Performs (n + 1) scope activity st (.call f vs) st₁)
    (hcall : callFunction (n + 1) f vs st₁ = .error signal st') :
    activity.run (callFunction (n + 1)) scope st = .error signal st' := by
  cases h with
  | call hcallee harguments =>
      rw [run_expr_eq_error, evalExpr, bind_of_ok hcallee, bind_of_ok harguments]
      exact hcall

/-- **Stops** are failures of the evaluator. -/
theorem Stops.run_eq_error (h : Stops n scope activity st op st₁ st') (he : op.error? st₁ = some e) :
    activity.run (callFunction n) scope st = .error (.error e) st' := by
  induction h with
  | operation hperforms => exact hperforms.run_eq_error he
  | part hpart _ ih => exact hpart.run_eq_error (ih he)
  | body hperforms hcheck _ ih =>
      apply hperforms.run_eq_error_of_body
      rw [callFunction_of_not_callError hcheck, runBody_eq_error]
      exact ⟨e, _, run_block_eq_error.mp (ih he), rfl, rfl⟩

/-! ## Failures are stops

By induction on the program: wherever the evaluator fails, there is an operation that stops it, behind what
went well. -/

/-- An activity stops with an error, and leaves the state `st'` behind. -/
def Stopped (n scope : Nat) (activity : Activity) (st : Evaluator) (e : EvalError) (st' : Evaluator) : Prop :=
  ∃ op st₁, Stops n scope activity st op st₁ st' ∧ op.error? st₁ = some e

theorem Stopped.part (hpart : GoesOn n scope activity st activity₁ st₁)
    (h : Stopped n scope activity₁ st₁ e st') : Stopped n scope activity st e st' := by
  obtain ⟨op, st₂, hstops, he⟩ := h
  exact ⟨op, st₂, .part hpart hstops, he⟩

theorem Stopped.operation {x : EvalM Value} (hperforms : Performs n scope activity st op st₁)
    (hattempts : Attempts x st₁ (op.error? st₁)) (hx : x st₁ = .error (.error e) st') :
    Stopped n scope activity st e st' := by
  obtain ⟨e', he, heq, rfl⟩ := hattempts.of_error hx
  cases heq
  exact ⟨op, _, .operation hperforms he, he⟩

end Evaluator

namespace EvalM

open Evaluator (Stopped)

variable [StringHash] {n : Nat} {st st' : Evaluator} {e : EvalError}

/-- A call that fails is a stop, unless it is the count of calls that is used up. -/
def CallsStop (n : Nat) : Prop :=
  ∀ (scope : Nat) (callee : Expr) (arguments : List Expr) (st st₁ st₂ st' : Evaluator) (f : Value)
    (vs : List Value) (e : EvalError),
    evalExpr (callFunction n) scope callee st = .ok f st₁ →
    evalExprs (callFunction n) scope [] arguments st₁ = .ok vs st₂ →
    callFunction n f vs st₂ = .error (.error e) st' → e ≠ .exhausted →
    Stopped n scope (.expr (.call callee arguments)) st e st'

mutual

/-- An expression that fails is stopped by an operation. -/
theorem evalExpr_stops (hcall : CallsStop n) (he : e ≠ .exhausted) (scope : Nat) : ∀ (expr : Expr) {st : Evaluator},
    evalExpr (callFunction n) scope expr st = .error (.error e) st' → Stopped n scope (.expr expr) st e st'
  | .identifier name, st, h => by
      unfold evalExpr at h
      exact .operation .load (attempts_loadName name scope st) h
  | .integer _, _, h | .boolean _, _, h | .string _, _, h | .function _ _ _, _, h => by
      unfold evalExpr at h
      cases h
  | .array elements, st, h => by
      unfold evalExpr at h
      exact .part .array (evalExprs_stops hcall he scope elements (bind_pure_eq_error.mp h))
  | .hash pairs, st, h => by
      unfold evalExpr at h
      exact .part .hash (evalPairs_stops hcall he scope pairs (bind_pure_eq_error.mp h))
  | .unary operator operand, st, h => by
      unfold evalExpr at h
      obtain h | ⟨v, st₁, heval, h⟩ := bind_eq_error.mp h
      · exact .part .unary (evalExpr_stops hcall he scope operand h)
      · exact .operation (.unary heval) (attempts_unary operator v st₁) h
  | .binary left operator right, st, h => by
      unfold evalExpr at h
      obtain h | ⟨l, st₁, hleft, h⟩ := bind_eq_error.mp h
      · exact .part .left (evalExpr_stops hcall he scope left h)
      · obtain h | ⟨r, st₂, hright, h⟩ := bind_eq_error.mp h
        · exact .part (.right hleft) (evalExpr_stops hcall he scope right h)
        · exact .operation (.binary hleft hright) (attempts_binary operator l r st₂) h
  | .if condition consequence none, st, h => by
      unfold evalExpr at h
      obtain h | ⟨v, st₁, heval, h⟩ := bind_eq_error.mp h
      · exact .part .condition (evalExpr_stops hcall he scope condition h)
      · cases hv : v.isTruthy with
        | true =>
            simp only [hv, if_true] at h
            exact .part (.consequence heval hv) (evalBlock_stops hcall he scope consequence h)
        | false =>
            simp only [hv, Bool.false_eq_true, if_false] at h
            cases h
  | .if condition consequence (some alternative), st, h => by
      unfold evalExpr at h
      obtain h | ⟨v, st₁, heval, h⟩ := bind_eq_error.mp h
      · exact .part .condition (evalExpr_stops hcall he scope condition h)
      · cases hv : v.isTruthy with
        | true =>
            simp only [hv, if_true] at h
            exact .part (.consequence heval hv) (evalBlock_stops hcall he scope consequence h)
        | false =>
            simp only [hv, Bool.false_eq_true, if_false] at h
            exact .part (.alternative heval hv) (evalBlock_stops hcall he scope alternative h)
  | .call callee arguments, st, h => by
      unfold evalExpr at h
      obtain h | ⟨f, st₁, hcallee, h⟩ := bind_eq_error.mp h
      · exact .part .callee (evalExpr_stops hcall he scope callee h)
      · obtain h | ⟨vs, st₂, harguments, h⟩ := bind_eq_error.mp h
        · exact .part (.arguments hcallee) (evalExprs_stops hcall he scope arguments h)
        · exact hcall _ _ _ _ _ _ _ _ _ _ hcallee harguments h he
  | .index collection key, st, h => by
      unfold evalExpr at h
      obtain h | ⟨c, st₁, hcollection, h⟩ := bind_eq_error.mp h
      · exact .part .collection (evalExpr_stops hcall he scope collection h)
      · obtain h | ⟨k, st₂, hkey, h⟩ := bind_eq_error.mp h
        · exact .part (.key hcollection) (evalExpr_stops hcall he scope key h)
        · exact .operation (.element hcollection hkey) (attempts_element c k st₂) h

theorem evalExprs_stops (hcall : CallsStop n) (he : e ≠ .exhausted) (scope : Nat) :
    ∀ (es : List Expr) {acc : List Value} {st : Evaluator},
      evalExprs (callFunction n) scope acc es st = .error (.error e) st' →
      Stopped n scope (.exprs acc es) st e st'
  | [], _, _, h => by
      unfold evalExprs at h
      cases h
  | expr :: es, acc, st, h => by
      unfold evalExprs at h
      obtain h | ⟨v, st₁, heval, h⟩ := bind_eq_error.mp h
      · exact .part .exprs_head (evalExpr_stops hcall he scope expr h)
      · exact .part (.exprs_tail heval) (evalExprs_stops hcall he scope es h)

theorem evalPairs_stops (hcall : CallsStop n) (he : e ≠ .exhausted) (scope : Nat) :
    ∀ (pairs : List (Expr × Expr)) {entries : Dictionary Value} {st : Evaluator},
      evalPairs (callFunction n) scope entries pairs st = .error (.error e) st' →
      Stopped n scope (.pairs entries pairs) st e st'
  | [], _, _, h => by
      unfold evalPairs at h
      cases h
  | (key, value) :: pairs, entries, st, h => by
      unfold evalPairs at h
      obtain h | ⟨k, st₁, hkey, h⟩ := bind_eq_error.mp h
      · exact .part .pair_key (evalExpr_stops hcall he scope key h)
      · cases hk : k.key? with
        | none =>
            simp only [hk] at h
            cases h
            have hunusable := Value.keyError?_eq_some.mpr ⟨hk, rfl⟩
            exact ⟨.key k, _, .operation (.key hkey) hunusable, hunusable⟩
        | some hashKey =>
            simp only [hk] at h
            obtain h | ⟨v, st₂, hvalue, h⟩ := bind_eq_error.mp h
            · exact .part (.pair_value hkey hk) (evalExpr_stops hcall he scope value h)
            · exact .part (.pairs_tail hkey hk hvalue) (evalPairs_stops hcall he scope pairs h)

theorem evalStmt_stops (hcall : CallsStop n) (he : e ≠ .exhausted) (scope : Nat) : ∀ (s : Stmt) {st : Evaluator},
    evalStmt (callFunction n) scope s st = .error (.error e) st' → Stopped n scope (.stmt s) st e st'
  | .let name value, st, h => by
      unfold evalStmt at h
      obtain h | ⟨v, st₁, -, h⟩ := bind_eq_error.mp h
      · exact .part .let (evalExpr_stops hcall he scope value h)
      · cases h
  | .return none, _, h => by
      unfold evalStmt at h
      cases h
  | .return (some value), st, h => by
      unfold evalStmt at h
      obtain h | ⟨v, st₁, -, h⟩ := bind_eq_error.mp h
      · exact .part .return (evalExpr_stops hcall he scope value h)
      · cases h
  | .expr value, st, h => by
      unfold evalStmt at h
      exact .part .expr (evalExpr_stops hcall he scope value h)

theorem evalBlock_stops (hcall : CallsStop n) (he : e ≠ .exhausted) (scope : Nat) :
    ∀ (ss : List Stmt) {last : Value} {st : Evaluator},
      evalBlock (callFunction n) scope last ss st = .error (.error e) st' →
      Stopped n scope (.block last ss) st e st'
  | [], _, _, h => by
      unfold evalBlock at h
      cases h
  | s :: ss, last, st, h => by
      unfold evalBlock at h
      obtain h | ⟨v, st₁, heval, h⟩ := bind_eq_error.mp h
      · exact .part .block_head (evalStmt_stops hcall he scope s h)
      · exact .part (.block_tail heval) (evalBlock_stops hcall he scope ss h)

end

/-- **Calls** that fail are refused, or else their body stops. -/
theorem callsStop : ∀ n : Nat, CallsStop n
  | 0 => by
      intro scope callee arguments st st₁ st₂ st' f vs e _ _ h he
      cases h
      exact absurd rfl he
  | n + 1 => by
      intro scope callee arguments st st₁ st₂ st' f vs e hcallee harguments h he
      have hperforms := Performs.call hcallee harguments
      cases hcheck : st₂.callError? f vs with
      | some e' =>
          rw [callFunction_of_callError hcheck] at h
          cases h
          exact ⟨_, _, .operation hperforms hcheck, hcheck⟩
      | none =>
          cases f with
          | function identity parameters body home =>
              rw [callFunction_of_not_callError hcheck, runBody_eq_error] at h
              obtain ⟨e', st₃, hbody, heq, rfl⟩ := h
              cases heq
              obtain ⟨op, st₄, hstops, hop⟩ := evalBlock_stops (callsStop n) he _ _ hbody
              exact ⟨op, st₄, .body hperforms hcheck hstops, hop⟩
          | builtin b =>
              obtain ⟨e', he', -⟩ := (attempts_builtin n b vs st₂).of_error h
              cases hcheck.symm.trans he'
          | _ => cases hcheck

end EvalM

namespace Evaluator

open EvalM

variable {n scope : Nat} {activity activity₁ activity₂ : Activity} {st st₁ st₂ st₃ st₄ : Evaluator}
  {op op' : Operation} {signal signal' : Signal}

/-! ## There is one operation that stops an activity -/

section

variable [StringHash]

/-- Only one part fails: the parts in front of it come to values. -/
theorem GoesOn.unique (h : GoesOn n scope activity st activity₁ st₁)
    (h' : GoesOn n scope activity st activity₂ st₂)
    (hfails : activity₁.run (callFunction n) scope st₁ = .error signal st₃)
    (hfails' : activity₂.run (callFunction n) scope st₂ = .error signal' st₄) :
    activity₁ = activity₂ ∧ st₁ = st₂ := by
  -- of two different parts, the rule for the one behind has the one in front come to a value
  cases h <;> cases h' <;> simp_all

/-- What an operation needs comes to the same values each time. -/
theorem Performs.unique (h : Performs n scope activity st op st₁) (h' : Performs n scope activity st op' st₂) :
    op = op' ∧ st₁ = st₂ := by
  cases h <;> cases h' <;> simp_all

/-- An activity does not come to its operation behind a part that fails. A key may be put into the hash, though,
and then the value that belongs to it may fail. -/
theorem GoesOn.not_performs (h : GoesOn n scope activity st activity₁ st₁)
    (hfails : activity₁.run (callFunction n) scope st₁ = .error signal st₃)
    (hkey : ∀ k, op = .key k → k.key? = none) : ¬ Performs n scope activity st op st₂ := by
  intro h'
  cases h <;> cases h' <;> simp_all

/-- **The first operation that fails** is the only one that an activity stops at. -/
theorem Stops.unique {st' st'' : Evaluator} (h : Stops n scope activity st op st₁ st')
    (h' : Stops n scope activity st op' st₂ st'') : op = op' ∧ st₁ = st₂ := by
  have hunusable : ∀ {op : Operation} {st : Evaluator} {e : EvalError}, op.error? st = some e →
      ∀ k, op = .key k → k.key? = none := by
    rintro _ _ _ he k rfl
    exact (Value.keyError?_eq_some.mp he).1
  induction h generalizing op' st₂ st'' with
  | operation hperforms he =>
      cases h' with
      | operation hperforms' _ => exact hperforms.unique hperforms'
      | part hpart' hstops' =>
          obtain ⟨e', he'⟩ := hstops'.error?
          exact absurd hperforms (hpart'.not_performs (hstops'.run_eq_error he') (hunusable he))
      | body hperforms' hcheck' _ =>
          obtain ⟨rfl, rfl⟩ := hperforms.unique hperforms'
          cases he.symm.trans hcheck'
  | part hpart hstops ih =>
      obtain ⟨e, he⟩ := hstops.error?
      have hfails := hstops.run_eq_error he
      cases h' with
      | operation hperforms' he' => exact absurd hperforms' (hpart.not_performs hfails (hunusable he'))
      | part hpart' hstops' =>
          obtain ⟨e', he'⟩ := hstops'.error?
          obtain ⟨rfl, rfl⟩ := hpart.unique hpart' hfails (hstops'.run_eq_error he')
          exact ih hstops'
      | body hperforms' _ _ => exact absurd hperforms' (hpart.not_performs hfails nofun)
  | body hperforms hcheck _ ih =>
      cases h' with
      | operation hperforms' he' =>
          obtain ⟨rfl, rfl⟩ := hperforms.unique hperforms'
          cases hcheck.symm.trans he'
      | part hpart' hstops' =>
          obtain ⟨e', he'⟩ := hstops'.error?
          exact absurd hperforms (hpart'.not_performs (hstops'.run_eq_error he') nofun)
      | body hperforms' _ hstops' =>
          obtain ⟨heq, rfl⟩ := hperforms.unique hperforms'
          cases heq
          exact ih hstops'

/-! ## Whole programs -/

/-- A program stops at an operation, which fails in the state `st₁`. -/
def StopsAt (program : Program) (st : Evaluator) (op : Operation) (st₁ : Evaluator) : Prop :=
  Stops (maxCallDepth + 1) 0 (.block .null program) st op st₁ (evaluate program st).2

/-- A program fails where it stops at an operation. -/
theorem run_eq_error_iff (hst : st.depth = 0) {program : Program} {e : EvalError} :
    (run program st).1 = .error e ↔ ∃ op st₁, StopsAt program st op st₁ ∧ op.error? st₁ = some e := by
  unfold StopsAt
  rw [evaluate_snd]
  constructor
  · intro h
    have he : e ≠ .exhausted := by
      rintro rfl
      exact (run_settles hst program).2 h
    apply evalBlock_stops (callsStop _) he
    rw [run] at h ⊢
    split at h <;> cases h
    assumption
  · rintro ⟨op, st₁, hstops, he⟩
    rw [run, run_block_eq_error.mp (hstops.run_eq_error he)]

/-- The value of a program is an error only if the program fails. -/
theorem ErrorFree.evaluate_eq_error_iff (h : st.ErrorFree) {program : Program} {message : String} :
    (evaluate program st).1 = .error message ↔
      ∃ e, (Evaluator.run program st).1 = .error e ∧ e.message = message := by
  have hvalue := (h.run program).2
  rw [evaluate]
  generalize Evaluator.run program st = r at hvalue ⊢
  obtain ⟨v | v, st'⟩ := r
  · simp
  · simpa using (hvalue v rfl).not_error

/-- The value of a program that does not fail is error-free. -/
theorem ErrorFree.evaluate (h : st.ErrorFree) {program : Program}
    (hrun : ∀ e, (Evaluator.run program st).1 ≠ .error e) : (evaluate program st).1.ErrorFree := by
  have hvalue := (h.run program).2
  rw [Evaluator.evaluate]
  generalize Evaluator.run program st = r at hvalue hrun ⊢
  obtain ⟨e | v, st'⟩ := r
  · exact absurd rfl (hrun e)
  · exact hvalue v rfl

/-- **Error values are no data.** Wherever an evaluation comes to, no name stands for an error value, and none is
in hand: not as an argument, not inside of an array or a hash, at any depth. No expression comes to one either. So
the value of a program is an error exactly if an operation of it fails, the first one in the order of evaluation,
and behind that one nothing is evaluated. -/
theorem errors_are_no_data :
    (∀ n scope activity held st, Underway n scope activity held st →
      st.ErrorFree ∧ Value.AllErrorFree (activity.values ++ held) ∧
        ∀ m inner e v st₁, evalExpr (callFunction m) inner e st = .ok v st₁ → v.ErrorFree) ∧
      ∀ st program, Reachable st →
        st.ErrorFree ∧
        (∀ message, (evaluate program st).1 = .error message ↔
          ∃ op st₁ e, StopsAt program st op st₁ ∧ op.error? st₁ = some e ∧ e.message = message) ∧
        ((∀ op st₁, ¬ StopsAt program st op st₁) → (evaluate program st).1.ErrorFree) ∧
        ∀ op st₁, StopsAt program st op st₁ →
          (∀ op' st₂, StopsAt program st op' st₂ → op = op' ∧ st₁ = st₂) ∧
          (evaluate program st).2.output = st₁.output ∧
          (evaluate program st).2.functionsMade = st₁.functionsMade ∧
          (evaluate program st).2.scopes.toList <+: st₁.scopes.toList := by
  refine ⟨fun n scope activity held st h => ?_, fun st program h => ?_⟩
  · obtain ⟨hst, hvalues⟩ := h.errorFree
    refine ⟨hst, hvalues, fun m inner e v st₁ heval => ?_⟩
    exact ((evalExpr_keepsOut (callFunction_keepsOut m) inner e).of_ok hst heval).1
  · have hfails : ∀ e, (run program st).1 = .error e ↔
        ∃ op st₁, StopsAt program st op st₁ ∧ op.error? st₁ = some e :=
      fun _ => run_eq_error_iff h.depth_eq
    refine ⟨h.errorFree, fun message => ?_, fun hnone => ?_, fun op st₁ hstops => ?_⟩
    · rw [h.errorFree.evaluate_eq_error_iff]
      constructor
      · rintro ⟨e, hrun, hmessage⟩
        obtain ⟨op, st₁, hstops, he⟩ := (hfails e).mp hrun
        exact ⟨op, st₁, e, hstops, he, hmessage⟩
      · rintro ⟨op, st₁, e, hstops, he, hmessage⟩
        exact ⟨e, (hfails e).mpr ⟨op, st₁, hstops, he⟩, hmessage⟩
    · apply h.errorFree.evaluate
      intro e hrun
      obtain ⟨op, st₁, hstops, -⟩ := (hfails e).mp hrun
      exact hnone op st₁ hstops
    · exact ⟨fun op' st₂ hstops' => hstops.unique hstops', hstops.frame⟩

end

/-- The program `let xs = [1, len(2)]; puts(3)`. -/
def unmeasurable : Program :=
  [.let "xs" (.array [.integer 1, .call (.identifier "len") [.integer 2]]),
    .expr (.call (.identifier "puts") [.integer 3])]

theorem unmeasurable_stops :
    (evaluate unmeasurable {}).1 = .error "argument to \x60len\x60 not supported, got INTEGER" ∧
      (evaluate unmeasurable {}).2.output = #[] ∧
      (∀ op st₁, StopsAt unmeasurable {} op st₁ → op = .call (.builtin .len) [.integer 2]) ∧
      ∀ v st₁, evalExpr (callFunction (maxCallDepth + 1)) 0 (.array [.integer 1]) {} = .ok v st₁ →
        v.ErrorFree := by
  have hlen : StopsAt unmeasurable {} (.call (.builtin .len) [.integer 2]) {} :=
    .part .block_head (.part .let (.part .array (.part (.exprs_tail rfl) (.part .exprs_head
      (.operation (.call rfl rfl) rfl)))))
  obtain ⟨-, hvalue, -, hstops⟩ := errors_are_no_data.2 {} unmeasurable .initial
  obtain ⟨hunique, houtput, -⟩ := hstops _ _ hlen
  obtain ⟨-, -, hexpr⟩ := errors_are_no_data.1 _ _ _ _ _ (.program unmeasurable .initial)
  exact ⟨(hvalue _).mpr ⟨_, _, _, hlen, rfl, rfl⟩, houtput,
    fun op st₁ h => (hunique op st₁ h).1.symm, hexpr _ _ _⟩

end Evaluator

end ScriptLang
