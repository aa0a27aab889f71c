import ScriptLang.Proofs.Evaluator.Evaluation

/-!
# Failures of the evaluator

`Fails part scope st` says that evaluating a part of a program goes wrong by what the program says: a name
has no value, an operation is not defined for its operands, a value is called that is no function, or with a
wrong number of arguments. The rules lead from the whole to the place of the failure, and each part on the
way there has been evaluated, as `Evaluates` says. Main statement: `Evaluator.run_fails` — every error of the
evaluator comes from such a place, unless a built-in function reports it or calls go too deep.
-/

namespace ScriptLang

open EvalM (enterCall leaveCall lookup?)

/-! ## Failures -/

variable [StringHash]

/-- The value of a part of a program in a scope is not defined. -/
inductive Fails : Part → Nat → Evaluator → Prop where
  | unbound {scope : Nat} {st : Evaluator} {name : String} :
      lookup? st.scopes name (scope + 1) scope = none → Builtin.ofName? name = none →
      Fails (.expr (.identifier name)) scope st
  | operands {scope : Nat} {st : Evaluator} {e : Expr} {es : List Expr} :
      e.operands? = some es → Fails (.exprs es) scope st → Fails (.expr e) scope st
  | operation {scope : Nat} {st st₁ : Evaluator} {e : Expr} {es : List Expr} {vs : List Value} :
      e.operands? = some es → (∀ callee arguments, e ≠ .call callee arguments) →
      Evaluates (.exprs es) scope st (.values vs) st₁ → e.combine? vs = none →
      Fails (.expr e) scope st
  /-- A key of a hash literal cannot be one, whatever comes behind it. -/
  | key {scope : Nat} {st st₁ : Evaluator} {pairs : List (Expr × Expr)} {es rest : List Expr}
      {vs : List Value} {k : Value} :
      Expr.flatten pairs = es ++ rest → Evaluates (.exprs es) scope st (.values (vs ++ [k])) st₁ →
      vs.length % 2 = 0 → k.key? = none → Fails (.expr (.hash pairs)) scope st
  | less_left {scope : Nat} {st : Evaluator} {left right : Expr} :
      Fails (.expr left) scope st → Fails (.expr (.binary left .lessThan right)) scope st
  | less_right {scope : Nat} {st st₁ : Evaluator} {left right : Expr} {l : Value} :
      Evaluates (.expr left) scope st (.values [l]) st₁ → Fails (.expr right) scope st₁ →
      Fails (.expr (.binary left .lessThan right)) scope st
  | less {scope : Nat} {st st₁ st₂ : Evaluator} {left right : Expr} {l r : Value} :
      Evaluates (.expr left) scope st (.values [l]) st₁ →
      Evaluates (.expr right) scope st₁ (.values [r]) st₂ →
      Operator.lessThan.binaryResult? l r = none → Fails (.expr (.binary left .lessThan right)) scope st
  | callee {scope : Nat} {st st₁ : Evaluator} {callee : Expr} {es : List Expr} {f : Value}
      {vs : List Value} :
      Evaluates (.exprs (callee :: es)) scope st (.values (f :: vs)) st₁ → f.kind ≠ .function →
      f.kind ≠ .builtin → Fails (.expr (.call callee es)) scope st
  | arity {scope : Nat} {st st₁ : Evaluator} {callee : Expr} {es : List Expr} {identity home : Nat}
      {parameters : List String} {body : List Stmt} {vs : List Value} :
      Evaluates (.exprs (callee :: es)) scope st
        (.values (.function identity parameters body home :: vs)) st₁ →
      vs.length ≠ parameters.length → Fails (.expr (.call callee es)) scope st
  | body {scope : Nat} {st st₁ : Evaluator} {callee : Expr} {es : List Expr} {identity home : Nat}
      {parameters : List String} {body : List Stmt} {vs : List Value} :
      Evaluates (.exprs (callee :: es)) scope st
        (.values (.function identity parameters body home :: vs)) st₁ →
      vs.length = parameters.length → st₁.depth < maxCallDepth →
      Fails (.body body) st₁.scopes.size (enterCall parameters vs home st₁) →
      Fails (.expr (.call callee es)) scope st
  | if_condition {scope : Nat} {st : Evaluator} {condition : Expr} {consequence : List Stmt}
      {alternative : Option (List Stmt)} :
      Fails (.expr condition) scope st → Fails (.expr (.if condition consequence alternative)) scope st
  | if_true {scope : Nat} {st st₁ : Evaluator} {condition : Expr} {consequence : List Stmt}
      {alternative : Option (List Stmt)} {v : Value} :
      Evaluates (.expr condition) scope st (.values [v]) st₁ → v.isTruthy = true →
      Fails (.branch consequence) scope st₁ →
      Fails (.expr (.if condition consequence alternative)) scope st
  | if_false {scope : Nat} {st st₁ : Evaluator} {condition : Expr} {consequence : List Stmt}
      {alternative : Option (List Stmt)} {v : Value} :
      Evaluates (.expr condition) scope st (.values [v]) st₁ → v.isTruthy = false →
      Fails (.branch (alternative.getD [])) scope st₁ →
      Fails (.expr (.if condition consequence alternative)) scope st
  | exprs_head {scope : Nat} {st : Evaluator} {e : Expr} {es : List Expr} :
      Fails (.expr e) scope st → Fails (.exprs (e :: es)) scope st
  | exprs_tail {scope : Nat} {st st₁ : Evaluator} {e : Expr} {es : List Expr} {v : Value} :
      Evaluates (.expr e) scope st (.values [v]) st₁ → Fails (.exprs es) scope st₁ →
      Fails (.exprs (e :: es)) scope st
  | let {scope : Nat} {st : Evaluator} {name : String} {value : Expr} :
      Fails (.expr value) scope st → Fails (.stmt (.let name value)) scope st
  | return {scope : Nat} {st : Evaluator} {value : Expr} :
      Fails (.expr value) scope st → Fails (.stmt (.return (some value))) scope st
  | expr {scope : Nat} {st : Evaluator} {value : Expr} :
      Fails (.expr value) scope st → Fails (.stmt (.expr value)) scope st
  | stmts_head {scope : Nat} {st : Evaluator} {s : Stmt} {ss : List Stmt} :
      Fails (.stmt s) scope st → Fails (.stmts (s :: ss)) scope st
  | stmts_tail {scope : Nat} {st st₁ : Evaluator} {s : Stmt} {ss : List Stmt} {vs : List Value} :
      Evaluates (.stmt s) scope st (.values vs) st₁ → Fails (.stmts ss) scope st₁ →
      Fails (.stmts (s :: ss)) scope st
  | branch_value {scope : Nat} {st : Evaluator} {value : Expr} :
      Fails (.expr value) scope st → Fails (.branch [.expr value]) scope st
  | branch_head {scope : Nat} {st : Evaluator} {s : Stmt} {ss : List Stmt} :
      (ss = [] → s.isExpr = false) → Fails (.stmt s) scope st → Fails (.branch (s :: ss)) scope st
  | branch_tail {scope : Nat} {st st₁ : Evaluator} {s : Stmt} {ss : List Stmt} {vs : List Value} :
      (ss = [] → s.isExpr = false) → Evaluates (.stmt s) scope st (.values vs) st₁ →
      Fails (.branch ss) scope st₁ → Fails (.branch (s :: ss)) scope st
  | body_value {scope : Nat} {st : Evaluator} {value : Expr} :
      Fails (.expr value) scope st → Fails (.body [.expr value]) scope st
  | body_head {scope : Nat} {st : Evaluator} {s : Stmt} {ss : List Stmt} :
      (ss = [] → s.isExpr = false) → Fails (.stmt s) scope st → Fails (.body (s :: ss)) scope st
  | body_tail {scope : Nat} {st st₁ : Evaluator} {s : Stmt} {ss : List Stmt} {vs : List Value} :
      (ss = [] → s.isExpr = false ∧ s.returnsValue = false) →
      Evaluates (.stmt s) scope st (.values vs) st₁ → Fails (.body ss) scope st₁ →
      Fails (.body (s :: ss)) scope st

/-- What a call of a value fails of. -/
def CallFails (f : Value) (vs : List Value) (st : Evaluator) : Prop :=
  (f.kind ≠ .function ∧ f.kind ≠ .builtin) ∨
    ∃ identity parameters body home, f = .function identity parameters body home ∧
      (vs.length ≠ parameters.length ∨
        vs.length = parameters.length ∧ st.depth < maxCallDepth ∧
          Fails (.body body) st.scopes.size (enterCall parameters vs home st))

/-- A call fails if what it calls does. -/
theorem Fails.call {scope : Nat} {st st₁ : Evaluator} {callee : Expr} {es : List Expr} {f : Value}
    {vs : List Value} (heval : Evaluates (.exprs (callee :: es)) scope st (.values (f :: vs)) st₁)
    (h : CallFails f vs st₁) : Fails (.expr (.call callee es)) scope st := by
  rcases h with ⟨hfunction, hbuiltin⟩ | ⟨identity, parameters, body, home, rfl, harity |
    ⟨hlength, hdepth, hbody⟩⟩
  · exact .callee heval hfunction hbuiltin
  · exact .arity heval harity
  · exact .body heval hlength hdepth hbody

/-- An error that neither the limit on the depth of calls nor a built-in function reports. -/
structure EvalError.Genuine (e : EvalError) : Prop where
  depth : e ≠ .callDepthExceeded
  builtin : ∀ message, e ≠ .builtin message

/-! ## Calls that can be followed -/

/-- There is fuel for as many calls as may become active. -/
structure Evaluator.Fuelled (n scope : Nat) (st : Evaluator) : Prop where
  scope : scope < st.scopes.size
  fuel : st.depth + n = maxCallDepth + 1

/-- Behind an evaluation no call is active that was not so before. -/
theorem Evaluates.fuelled {P : Part} {n scope : Nat} {st st₁ : Evaluator} {o : Outcome}
    (h : Evaluates P scope st o st₁) (hfuel : st.Fuelled n scope) : st₁.Fuelled n scope := by
  have hframe := h.frame hfuel.scope
  refine ⟨Nat.lt_of_lt_of_le hfuel.scope hframe.size, ?_⟩
  rw [hframe.depth]
  exact hfuel.fuel

namespace EvalM

variable {α β : Type} {P P₁ : Part} {n scope : Nat} {st st₁ : Evaluator} {cause cause₁ : Prop}

/-- If a result is a genuine error, it has a cause. -/
def Blames (r : EStateM.Result Signal Evaluator α) (cause : Prop) : Prop :=
  ∀ e st', r = .error (.error e) st' → e.Genuine → cause

omit [StringHash] in
/-- A cause that comes of another one. -/
theorem Blames.mono {r : EStateM.Result Signal Evaluator α} (h : Blames r cause₁)
    (hcause : cause₁ → cause) : Blames r cause := fun e st' hr he => hcause (h e st' hr he)

omit [StringHash] in
/-- A value needs no cause. -/
theorem Blames.ok {a : α} : Blames (.ok a st) cause := by
  rintro e st' ⟨⟩

omit [StringHash] in
theorem Blames.returned {v : Value} : Blames (.error (.return v) st : EStateM.Result _ _ α) cause := by
  rintro e st' ⟨⟩

/-- A step in front of the others: it fails, or one of the others fails behind it. -/
theorem Blames.of_bind {p₁ : α → List Value → Prop} {x : EvalM α} {f : α → EvalM β}
    (hx : Blames (x st₁) cause₁) (hcause : cause₁ → cause) (hyields : Yields P₁ scope st₁ p₁ (x st₁))
    (hrest : ∀ a vs st₂, p₁ a vs → Evaluates P₁ scope st₁ (.values vs) st₂ → Blames (f a st₂) cause) :
    Blames ((x >>= f) st₁) cause := by
  intro e st' h he
  rw [bind_apply] at h
  cases hr : x st₁ with
  | ok a st₂ =>
      rw [hr] at h hyields
      obtain ⟨vs, hvs, heval⟩ := hyields
      exact hrest a vs st₂ hvs heval e st' h he
  | error signal st₂ =>
      rw [hr] at h
      cases h
      exact hcause (hx e st' hr he)

/-- The last step of an operation, behind its operands. -/
theorem Blames.operation {e : Expr} {es : List Expr} {vs : List Value} {x : EvalM Value}
    (hes : e.operands? = some es) (hcall : ∀ callee arguments, e ≠ .call callee arguments)
    (heval : Evaluates (.exprs es) scope st (.values vs) st₁) (hx : Computes x st₁ (e.combine? vs)) :
    Blames (x st₁) (Fails (.expr e) scope st) := by
  intro err st' h _
  rcases hx with ⟨hnone, -⟩ | ⟨w, -, hx⟩
  · exact .operation hes hcall heval hnone
  · rw [hx] at h
    cases h

/-- Among some keys and values that stand in turn there is a key that cannot be one. -/
def BadKey (items : List Expr) (scope : Nat) (st : Evaluator) : Prop :=
  ∃ es rest vs k st₁, items = es ++ rest ∧ Evaluates (.exprs es) scope st (.values (vs ++ [k])) st₁ ∧
    vs.length % 2 = 0 ∧ k.key? = none

/-- With `n` units of fuel, calls fail of what they call. -/
def CallsBlame (n : Nat) : Prop :=
  ∀ f vs st, st.depth + n = maxCallDepth + 1 → Blames (callFunction n f vs st) (CallFails f vs st)

/-! ### Expressions and statements -/

mutual

/-- An expression that comes to an error fails in one of the ways. -/
theorem evalExpr_blames (hcall : CallsBlame n) (scope : Nat) :
    ∀ (e : Expr) (st : Evaluator), st.Fuelled n scope →
      Blames (evalExpr (callFunction n) scope e st) (Fails (.expr e) scope st)
  | .identifier name, st, _ => by
      unfold evalExpr loadName
      rw [bind_apply, get_apply]
      intro e st' h _
      cases hlookup : lookup? st.scopes name (scope + 1) scope with
      | some v =>
          simp only [hlookup] at h
          cases h
      | none =>
          simp only [hlookup] at h
          cases hbuiltin : Builtin.ofName? name with
          | some b =>
              simp only [hbuiltin] at h
              cases h
          | none => exact .unbound hlookup hbuiltin
  | .integer value, st, _ => by
      unfold evalExpr
      exact .ok
  | .boolean value, st, _ => by
      unfold evalExpr
      exact .ok
  | .string contents, st, _ => by
      unfold evalExpr
      exact .ok
  | .array elements, st, hfuel => by
      unfold evalExpr
      exact .of_bind (evalExprs_blames hcall scope elements [] st hfuel) (.operands rfl)
        (evalExprs_yields (callFunction_calls n) scope elements [] st) fun _ _ _ _ _ => .ok
  | .hash pairs, st, hfuel => by
      unfold evalExpr
      refine .of_bind (evalPairs_blames hcall scope pairs [] st hfuel) ?_
        (evalPairs_yields (callFunction_calls n) scope pairs [] st) fun _ _ _ _ _ => .ok
      rintro (hfails | ⟨es, rest, vs, k, st₁, hitems, heval, heven, hk⟩)
      · exact .operands rfl hfails
      · exact .key hitems heval heven hk
  | .unary operator operand, st, hfuel => by
      unfold evalExpr
      refine .of_bind (evalExpr_blames hcall scope operand st hfuel) (fun h => .operands rfl (.exprs_head h))
        (evalExpr_yields (callFunction_calls n) scope operand st) ?_
      rintro v vs st₁ rfl heval
      exact .operation rfl nofun (.exprs_cons heval .exprs_nil) (unary_computes operator v st₁)
  | .binary left operator right, st, hfuel => by
      unfold evalExpr
      by_cases hless : operator = .lessThan
      · subst hless
        refine .of_bind (evalExpr_blames hcall scope left st hfuel) .less_left
          (evalExpr_yields (callFunction_calls n) scope left st) ?_
        rintro l ls st₁ rfl hleft
        refine .of_bind (evalExpr_blames hcall scope right st₁ (hleft.fuelled hfuel)) (.less_right hleft)
          (evalExpr_yields (callFunction_calls n) scope right st₁) ?_
        rintro r rs st₂ rfl hright e st' h -
        rcases binary_computes .lessThan l r st₂ with ⟨hnone, -⟩ | ⟨w, -, hbinary⟩
        · exact .less hleft hright hnone
        · rw [hbinary] at h
          cases h
      · have hoperands : (Expr.binary left operator right).operands? = some [left, right] :=
          if_neg hless
        refine .of_bind (evalExpr_blames hcall scope left st hfuel)
          (fun h => .operands hoperands (.exprs_head h))
          (evalExpr_yields (callFunction_calls n) scope left st) ?_
        rintro l ls st₁ rfl hleft
        refine .of_bind (evalExpr_blames hcall scope right st₁ (hleft.fuelled hfuel))
          (fun h => .operands hoperands (.exprs_tail hleft (.exprs_head h)))
          (evalExpr_yields (callFunction_calls n) scope right st₁) ?_
        rintro r rs st₂ rfl hright
        exact .operation hoperands nofun (.exprs_cons hleft (.exprs_cons hright .exprs_nil))
          (binary_computes operator l r st₂)
  | .if condition consequence none, st, hfuel => by
      unfold evalExpr
      refine .of_bind (evalExpr_blames hcall scope condition st hfuel) .if_condition
        (evalExpr_yields (callFunction_calls n) scope condition st) ?_
      rintro v vs st₁ rfl hcondition
      cases htruthy : v.isTruthy with
      | true =>
          exact (evalBlock_blames hcall scope consequence .null st₁ (hcondition.fuelled hfuel)).mono
            (.if_true hcondition htruthy)
      | false => exact .ok
  | .if condition consequence (some alternative), st, hfuel => by
      unfold evalExpr
      refine .of_bind (evalExpr_blames hcall scope condition st hfuel) .if_condition
        (evalExpr_yields (callFunction_calls n) scope condition st) ?_
      rintro v vs st₁ rfl hcondition
      cases htruthy : v.isTruthy with
      | true =>
          exact (evalBlock_blames hcall scope consequence .null st₁ (hcondition.fuelled hfuel)).mono
            (.if_true hcondition htruthy)
      | false =>
          exact (evalBlock_blames hcall scope alternative .null st₁ (hcondition.fuelled hfuel)).mono
            fun h => .if_false hcondition htruthy h
  | .function _ parameters body, st, _ => by
      unfold evalExpr
      exact .ok
  | .call callee arguments, st, hfuel => by
      unfold evalExpr
      refine .of_bind (evalExpr_blames hcall scope callee st hfuel) (fun h => .operands rfl (.exprs_head h))
        (evalExpr_yields (callFunction_calls n) scope callee st) ?_
      rintro f fs st₁ rfl hcallee
      refine .of_bind (evalExprs_blames hcall scope arguments [] st₁ (hcallee.fuelled hfuel))
        (fun h => .operands rfl (.exprs_tail hcallee h))
        (evalExprs_yields (callFunction_calls n) scope arguments [] st₁) ?_
      intro vs ws st₂ hws harguments
      obtain rfl : vs = ws := hws
      have hboth := Evaluates.exprs_cons hcallee harguments
      exact (hcall f vs st₂ (hboth.fuelled hfuel).fuel).mono (.call hboth)
  | .index collection key, st, hfuel => by
      unfold evalExpr
      refine .of_bind (evalExpr_blames hcall scope collection st hfuel)
        (fun h => .operands rfl (.exprs_head h))
        (evalExpr_yields (callFunction_calls n) scope collection st) ?_
      rintro c cs st₁ rfl hcollection
      refine .of_bind (evalExpr_blames hcall scope key st₁ (hcollection.fuelled hfuel))
        (fun h => .operands rfl (.exprs_tail hcollection (.exprs_head h)))
        (evalExpr_yields (callFunction_calls n) scope key st₁) ?_
      rintro k ks st₂ rfl hkey
      exact .operation rfl nofun (.exprs_cons hcollection (.exprs_cons hkey .exprs_nil))
        (element_computes c k st₂)

theorem evalExprs_blames (hcall : CallsBlame n) (scope : Nat) :
    ∀ (es : List Expr) (acc : List Value) (st : Evaluator), st.Fuelled n scope →
      Blames (evalExprs (callFunction n) scope acc es st) (Fails (.exprs es) scope st)
  | [], acc, st, _ => by
      unfold evalExprs
      exact .ok
  | e :: es, acc, st, hfuel => by
      unfold evalExprs
      refine .of_bind (evalExpr_blames hcall scope e st hfuel) .exprs_head
        (evalExpr_yields (callFunction_calls n) scope e st) ?_
      rintro v vs st₁ rfl hhead
      exact (evalExprs_blames hcall scope es (v :: acc) st₁ (hhead.fuelled hfuel)).mono (.exprs_tail hhead)

/-- A hash literal fails in a key or a value, or has a key that cannot be one. -/
theorem evalPairs_blames (hcall : CallsBlame n) (scope : Nat) :
    ∀ (pairs : List (Expr × Expr)) (entries : Dictionary Value) (st : Evaluator), st.Fuelled n scope →
      Blames (evalPairs (callFunction n) scope entries pairs st)
        (Fails (.exprs (Expr.flatten pairs)) scope st ∨ BadKey (Expr.flatten pairs) scope st)
  | [], entries, st, _ => by
      unfold evalPairs
      exact .ok
  | (key, value) :: pairs, entries, st, hfuel => by
      unfold evalPairs
      refine .of_bind (evalExpr_blames hcall scope key st hfuel) (fun h => .inl (.exprs_head h))
        (evalExpr_yields (callFunction_calls n) scope key st) ?_
      rintro k ks st₁ rfl hkey
      cases hhash : k.key? with
      | none =>
          exact fun _ _ _ _ => .inr ⟨[key], value :: Expr.flatten pairs, [], k, st₁, rfl,
            .exprs_cons hkey .exprs_nil, rfl, hhash⟩
      | some hashKey =>
          refine .of_bind (evalExpr_blames hcall scope value st₁ (hkey.fuelled hfuel))
            (fun h => .inl (.exprs_tail hkey (.exprs_head h)))
            (evalExpr_yields (callFunction_calls n) scope value st₁) ?_
          rintro v vs st₂ rfl hvalue
          refine (evalPairs_blames hcall scope pairs (Dictionary.insert ⟨hashKey, k⟩ v entries) st₂
            (hvalue.fuelled (hkey.fuelled hfuel))).mono ?_
          rintro (hfails | ⟨es, rest, vs, k', st₃, hitems, heval, heven, hk⟩)
          · exact .inl (.exprs_tail hkey (.exprs_tail hvalue hfails))
          -- the bad key comes behind one more key and its value, so that it stays a key
          · refine .inr ⟨key :: value :: es, rest, k :: v :: vs, k', st₃, ?_,
              .exprs_cons hkey (.exprs_cons hvalue heval), ?_, hk⟩
            · rw [Expr.flatten, hitems]
              rfl
            · rw [List.length_cons, List.length_cons]
              omega

theorem evalStmt_blames (hcall : CallsBlame n) (scope : Nat) :
    ∀ (s : Stmt) (st : Evaluator), st.Fuelled n scope →
      Blames (evalStmt (callFunction n) scope s st) (Fails (.stmt s) scope st)
  | .let name value, st, hfuel => by
      unfold evalStmt
      exact .of_bind (evalExpr_blames hcall scope value st hfuel) .let
        (evalExpr_yields (callFunction_calls n) scope value st) fun _ _ _ _ _ => .ok
  | .return none, st, _ => by
      unfold evalStmt
      exact .returned
  | .return (some value), st, hfuel => by
      unfold evalStmt
      exact .of_bind (evalExpr_blames hcall scope value st hfuel) .return
        (evalExpr_yields (callFunction_calls n) scope value st) fun _ _ _ _ _ => .returned
  | .expr value, st, hfuel => by
      unfold evalStmt
      exact (evalExpr_blames hcall scope value st hfuel).mono .expr

theorem evalBlock_blames (hcall : CallsBlame n) (scope : Nat) :
    ∀ (ss : List Stmt) (last : Value) (st : Evaluator), st.Fuelled n scope →
      Blames (evalBlock (callFunction n) scope last ss st) (Fails (.branch ss) scope st)
  | [], last, st, _ => by
      unfold evalBlock
      exact .ok
  | s :: ss, last, st, hfuel => by
      unfold evalBlock
      by_cases hend : ss = [] ∧ s.isExpr = true
      · obtain ⟨rfl, hs⟩ := hend
        obtain ⟨value, rfl⟩ := Stmt.isExpr_eq_true_iff.mp hs
        refine .of_bind (evalStmt_blames hcall scope (.expr value) st hfuel) ?_
          (evalStmt_yields (callFunction_calls n) scope (.expr value) st) ?_
        · rintro ⟨⟩
          exact .branch_value ‹_›
        · intro v vs st₁ _ _
          unfold evalBlock
          exact .ok
      · have hs : ss = [] → s.isExpr = false := by
          intro hnil
          rw [Bool.eq_false_iff]
          exact fun h => hend ⟨hnil, h⟩
        refine .of_bind (evalStmt_blames hcall scope s st hfuel) (.branch_head hs)
          (evalStmt_yields (callFunction_calls n) scope s st) ?_
        intro v vs st₁ _ heval
        exact (evalBlock_blames hcall scope ss v st₁ (heval.fuelled hfuel)).mono (.branch_tail hs heval)

end

theorem evalBlock_blames_body (hcall : CallsBlame n) (scope : Nat) :
    ∀ (ss : List Stmt) (last : Value) (st : Evaluator), st.Fuelled n scope →
      Blames (evalBlock (callFunction n) scope last ss st) (Fails (.body ss) scope st)
  | [], last, st, _ => by
      unfold evalBlock
      exact .ok
  | s :: ss, last, st, hfuel => by
      have hstmt := evalStmt_blames hcall scope s st hfuel
      have hyields := evalStmt_yields (callFunction_calls n) scope s st
      unfold evalBlock
      by_cases hend : ss = [] ∧ s.isExpr = true
      · obtain ⟨rfl, hs⟩ := hend
        obtain ⟨value, rfl⟩ := Stmt.isExpr_eq_true_iff.mp hs
        refine .of_bind hstmt ?_ hyields ?_
        · rintro ⟨⟩
          exact .body_value ‹_›
        · intro v vs st₁ _ _
          unfold evalBlock
          exact .ok
      · have hs : ss = [] → s.isExpr = false := by
          intro hnil
          rw [Bool.eq_false_iff]
          exact fun h => hend ⟨hnil, h⟩
        refine .of_bind hstmt (.body_head hs) hyields ?_
        intro v vs st₁ _ heval
        -- behind a `return` nothing is evaluated
        have hreturn : s.returnsValue = false := by
          rw [Bool.eq_false_iff]
          intro h
          obtain ⟨value, rfl⟩ := Stmt.returnsValue_eq_true_iff.mp h
          cases heval
        exact (evalBlock_blames_body hcall scope ss v st₁ (heval.fuelled hfuel)).mono
          (.body_tail (fun hnil => ⟨hs hnil, hreturn⟩) heval)

theorem evalBlock_blames_stmts (hcall : CallsBlame n) (scope : Nat) :
    ∀ (ss : List Stmt) (last : Value) (st : Evaluator), st.Fuelled n scope →
      Blames (evalBlock (callFunction n) scope last ss st) (Fails (.stmts ss) scope st)
  | [], last, st, _ => by
      unfold evalBlock
      exact .ok
  | s :: ss, last, st, hfuel => by
      unfold evalBlock
      refine .of_bind (evalStmt_blames hcall scope s st hfuel) .stmts_head
        (evalStmt_yields (callFunction_calls n) scope s st) ?_
      intro v vs st₁ _ heval
      exact (evalBlock_blames_stmts hcall scope ss v st₁ (heval.fuelled hfuel)).mono (.stmts_tail heval)

/-! ### Functions -/

/-- **Calls**: a call fails of what it calls. The fuel is not used up before calls go too deep. -/
theorem callFunction_blames : ∀ n : Nat, 0 < n → CallsBlame n
  | n + 1, _, f, vs, st, hfuel => by
      cases f with
      | builtin b =>
          unfold callFunction
          rw [bind_apply, modify_apply]
          intro e st' h he
          cases hresult : b.result vs with
          | error message =>
              simp only [hresult] at h
              cases h
              exact absurd rfl (he.builtin message)
          | _ =>
              simp only [hresult] at h
              cases h
      | function identity parameters body home =>
          unfold callFunction
          intro e st' h he
          refine .inr ⟨identity, parameters, body, home, rfl, ?_⟩
          by_cases hlength : vs.length = parameters.length
          · by_cases hdepth : maxCallDepth ≤ st.depth
            · simp only [if_neg (not_not_intro hlength), bind_apply, get_apply, if_pos hdepth,
                fail_apply] at h
              cases h
              exact absurd rfl he.depth
            · simp only [if_neg (not_not_intro hlength), bind_apply, get_apply, if_neg hdepth, runBody] at h
              have hfuelled : (enterCall parameters vs home st).Fuelled n st.scopes.size :=
                ⟨Evaluator.Frame.lt_size_enterCall .., by show st.depth + 1 + n = _; omega⟩
              -- the limit has not been reached, so there is fuel for the calls in the body
              have hbody := evalBlock_blames_body (callFunction_blames n (by omega)) st.scopes.size body
                .null (enterCall parameters vs home st) hfuelled
              refine .inr ⟨hlength, Nat.lt_of_not_le hdepth, ?_⟩
              cases hr : evalBlock (callFunction n) st.scopes.size .null body
                  (enterCall parameters vs home st) with
              | ok v st₁ =>
                  rw [hr] at h
                  cases h
              | error signal st₁ =>
                  rw [hr] at h
                  cases signal with
                  | «return» v => cases h
                  | error e' =>
                      cases h
                      exact hbody e st₁ hr he
          · exact .inl hlength
      | _ => exact fun _ _ _ _ => .inl ⟨Kind.noConfusion, Kind.noConfusion⟩

end EvalM

/-- **Failures**: a program that ends with an error of its own has a part whose value is not defined. -/
theorem Evaluator.run_fails {program : Program} {e : EvalError} {st : Evaluator}
    (h : Evaluator.run program {} = (.error e, st)) (he : e.Genuine) : Fails (.stmts program) 0 {} := by
  have hblames := EvalM.evalBlock_blames_stmts (EvalM.callFunction_blames (maxCallDepth + 1) (by decide)) 0
    program .null {} ⟨Nat.zero_lt_one, Nat.zero_add _⟩
  rw [run] at h
  split at h
  · cases h
  · cases h
  · next e' st' heval =>
      cases h
      exact hblames _ _ heval he

end ScriptLang
