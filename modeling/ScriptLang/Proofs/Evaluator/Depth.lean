import ScriptLang.Proofs.Evaluator.OpenScopes
import ScriptLang.Value.SipHash

/-!
# The depth of calls

Every call that is entered is left again, so behind an evaluation the depth of calls is what it was in front
of it, however the evaluation ends. The limit on the depth comes before the number with which
`EvalM.callFunction` counts calls down: a larger number changes nothing. Main statements:

* `EvalM.agrees_callFunction` — a call gets back to its depth, and does not depend on the count;
* `Evaluator.Underway.counted` — the calls that are active and those that may still be entered make up the
  limit;
* `Evaluator.evaluation_ends` — every program comes to an end, with no call left active.
-/

namespace ScriptLang

namespace EvalM

variable {α β : Type} {d : Nat} {st : Evaluator}

/-! ## Evaluations that get back to a depth

Two evaluators that differ in what they do for a call, and nowhere else, agree on everything if they agree on
calls. With the same one on both sides, `Agrees d x x` says that `x` gets back to the depth it began at. -/

/-- A result is at some depth of calls, and it is not that the calls could not be followed. -/
def Settles (d : Nat) : EStateM.Result Signal Evaluator α → Prop
  | .ok _ st => st.depth = d
  | .error signal st => st.depth = d ∧ signal ≠ .error .exhausted

/-- Two evaluations do the same at some depth of calls, and get back to it. -/
def Agrees (d : Nat) (x y : EvalM α) : Prop := ∀ st, st.depth = d → y st = x st ∧ Settles d (x st)

namespace Agrees

variable {x y : EvalM α} {f g : α → EvalM β}

theorem refl (h : ∀ st, st.depth = d → Settles d (x st)) : Agrees d x x := fun st hst => ⟨rfl, h st hst⟩

theorem pure (a : α) : Agrees d (Pure.pure a) (Pure.pure a) := refl fun _ hst => hst

theorem fail {e : EvalError} (he : e ≠ .exhausted) : Agrees d (EvalM.fail e : EvalM α) (EvalM.fail e) :=
  refl fun _ hst => ⟨hst, fun hsignal => he (Signal.error.inj hsignal)⟩

/-- An early return leaves the depth to the call that it ends. -/
theorem throw_return (v : Value) : Agrees d (throw (.return v) : EvalM α) (throw (.return v)) :=
  refl fun _ hst => ⟨hst, Signal.noConfusion⟩

theorem bind (hx : Agrees d x y) (hf : ∀ a, Agrees d (f a) (g a)) : Agrees d (x >>= f) (y >>= g) := by
  intro st hst
  obtain ⟨heq, hsettles⟩ := hx st hst
  rw [bind_apply, bind_apply, heq]
  cases hr : x st with
  | ok a st₁ =>
      rw [hr] at hsettles
      exact hf a st₁ hsettles
  | error signal st₁ =>
      rw [hr] at hsettles
      exact ⟨rfl, hsettles⟩

/-- Behind a failure there is nothing to do. -/
theorem fail_bind {e : EvalError} (he : e ≠ .exhausted) :
    Agrees d ((EvalM.fail e : EvalM α) >>= f) ((EvalM.fail e : EvalM α) >>= g) :=
  fun _ hst => ⟨rfl, hst, fun hsignal => he (Signal.error.inj hsignal)⟩

/-- What is done with the state may depend on its depth. -/
theorem get_bind {f g : Evaluator → EvalM β} (hf : ∀ st, st.depth = d → Agrees d (f st) (g st)) :
    Agrees d (get >>= f) (get >>= g) := fun st hst => hf st hst st hst

end Agrees

/-! ## Operations

No operation enters a call by itself, so each agrees with itself. -/

/-- Looking a name up changes nothing. -/
theorem agrees_loadName (name : String) (scope : Nat) :
    Agrees d (loadName name scope) (loadName name scope) := by
  refine .refl fun st hst => ?_
  rw [loadName, bind_apply, get_apply]
  simp only
  cases lookup? st.scopes name (scope + 1) scope with
  | some v => exact hst
  | none =>
      cases Builtin.ofName? name with
      | some b => exact hst
      | none => exact ⟨hst, fun h => EvalError.noConfusion (Signal.error.inj h)⟩

/-- Applying a prefix operator changes nothing. -/
theorem agrees_unary (operator : Operator) (v : Value) :
    Agrees d (unary operator v) (unary operator v) := by
  unfold unary
  split
  · exact .pure _
  · exact .pure _
  · exact .fail EvalError.noConfusion

theorem agrees_integerBinary (operator : Operator) (l r : Int64) :
    Agrees d (integerBinary operator l r) (integerBinary operator l r) := by
  cases operator with
  | slash =>
      simp only [integerBinary]
      split
      · exact .fail EvalError.noConfusion
      · exact .pure _
  | bang => exact .fail EvalError.noConfusion
  | _ => exact .pure _

theorem agrees_binary (operator : Operator) (l r : Value) :
    Agrees d (binary operator l r) (binary operator l r) := by
  unfold binary
  split
  · exact agrees_integerBinary operator _ _
  · exact .pure _
  · exact .pure _
  · exact .pure _
  · split
    · exact .fail EvalError.noConfusion
    · exact .fail EvalError.noConfusion

theorem agrees_element [StringHash] (collection key : Value) :
    Agrees d (element collection key) (element collection key) := by
  unfold element
  split
  · exact .pure _
  · exact .fail EvalError.noConfusion
  · exact .fail EvalError.noConfusion

/-! ## Parts of a program

By induction on the program: what an evaluation does with the parts is the same in both evaluators, and the
calls on the way agree by assumption. -/

section

variable [StringHash] {call call' : Value → List Value → EvalM Value}

mutual

/-- Expressions agree if calls do. -/
theorem agrees_evalExpr (hcall : ∀ f vs, Agrees d (call f vs) (call' f vs)) (scope : Nat) : ∀ e : Expr,
    Agrees d (evalExpr call scope e) (evalExpr call' scope e)
  | .identifier name => by
      unfold evalExpr
      exact agrees_loadName name scope
  | .integer value => by
      unfold evalExpr
      exact .pure _
  | .boolean value => by
      unfold evalExpr
      exact .pure _
  | .string contents => by
      unfold evalExpr
      exact .pure _
  | .array elements => by
      unfold evalExpr
      exact (agrees_evalExprs hcall scope elements []).bind fun _ => .pure _
  | .hash pairs => by
      unfold evalExpr
      exact (agrees_evalPairs hcall scope pairs []).bind fun _ => .pure _
  | .unary operator operand => by
      unfold evalExpr
      exact (agrees_evalExpr hcall scope operand).bind fun v => agrees_unary operator v
  | .binary left operator right => by
      unfold evalExpr
      apply (agrees_evalExpr hcall scope left).bind
      intro l
      exact (agrees_evalExpr hcall scope right).bind fun r => agrees_binary operator l r
  | .if condition consequence none => by
      unfold evalExpr
      apply (agrees_evalExpr hcall scope condition).bind
      intro v
      cases v.isTruthy with
      | true => exact agrees_evalBlock hcall scope consequence .null
      | false => exact .pure _
  | .if condition consequence (some alternative) => by
      unfold evalExpr
      apply (agrees_evalExpr hcall scope condition).bind
      intro v
      cases v.isTruthy with
      | true => exact agrees_evalBlock hcall scope consequence .null
      | false => exact agrees_evalBlock hcall scope alternative .null
  | .function _ parameters body => by
      unfold evalExpr
      exact .refl fun _ hst => hst
  | .call callee arguments => by
      unfold evalExpr
      apply (agrees_evalExpr hcall scope callee).bind
      intro f
      exact (agrees_evalExprs hcall scope arguments []).bind fun vs => hcall f vs
  | .index collection key => by
      unfold evalExpr
      apply (agrees_evalExpr hcall scope collection).bind
      intro v
      exact (agrees_evalExpr hcall scope key).bind fun k => agrees_element v k

/-- Elements and arguments agree if calls do. -/
theorem agrees_evalExprs (hcall : ∀ f vs, Agrees d (call f vs) (call' f vs)) (scope : Nat) :
    ∀ (es : List Expr) (acc : List Value),
      Agrees d (evalExprs call scope acc es) (evalExprs call' scope acc es)
  | [], acc => by
      unfold evalExprs
      exact .pure _
  | e :: es, acc => by
      unfold evalExprs
      apply (agrees_evalExpr hcall scope e).bind
      intro v
      exact agrees_evalExprs hcall scope es (v :: acc)

theorem agrees_evalPairs (hcall : ∀ f vs, Agrees d (call f vs) (call' f vs)) (scope : Nat) :
    ∀ (pairs : List (Expr × Expr)) (entries : Dictionary Value),
      Agrees d (evalPairs call scope entries pairs) (evalPairs call' scope entries pairs)
  | [], entries => by
      unfold evalPairs
      exact .pure _
  | (key, value) :: pairs, entries => by
      unfold evalPairs
      apply (agrees_evalExpr hcall scope key).bind
      intro k
      cases k.key? with
      | none => exact .fail EvalError.noConfusion
      | some hashKey =>
          apply (agrees_evalExpr hcall scope value).bind
          intro v
          exact agrees_evalPairs hcall scope pairs (Dictionary.insert ⟨hashKey, k⟩ v entries)

theorem agrees_evalStmt (hcall : ∀ f vs, Agrees d (call f vs) (call' f vs)) (scope : Nat) : ∀ s : Stmt,
    Agrees d (evalStmt call scope s) (evalStmt call' scope s)
  | .let name value => by
      unfold evalStmt
      apply (agrees_evalExpr hcall scope value).bind
      intro v
      have hstore : Agrees d (store name v scope) (store name v scope) := .refl fun _ hst => hst
      exact hstore.bind fun _ => .pure _
  | .return none => by
      unfold evalStmt
      exact .throw_return _
  | .return (some value) => by
      unfold evalStmt
      exact (agrees_evalExpr hcall scope value).bind fun v => .throw_return v
  | .expr value => by
      unfold evalStmt
      exact agrees_evalExpr hcall scope value

theorem agrees_evalBlock (hcall : ∀ f vs, Agrees d (call f vs) (call' f vs)) (scope : Nat) :
    ∀ (ss : List Stmt) (last : Value),
      Agrees d (evalBlock call scope last ss) (evalBlock call' scope last ss)
  | [], last => by
      unfold evalBlock
      exact .pure _
  | s :: ss, last => by
      unfold evalBlock
      apply (agrees_evalStmt hcall scope s).bind
      intro v
      exact agrees_evalBlock hcall scope ss v

end

end

/-! ## Calls -/

/-- A call gets back to the depth that it was entered at, however its body ends. -/
theorem agrees_runBody {body body' : Nat → EvalM Value}
    (hbody : ∀ inner, Agrees (d + 1) (body inner) (body' inner)) (parameters : List String)
    (vs : List Value) (home : Nat) :
    Agrees d (runBody body parameters vs home) (runBody body' parameters vs home) := by
  intro st hst
  have hentered : (enterCall parameters vs home st).depth = d + 1 := congrArg (· + 1) hst
  obtain ⟨heq, hsettles⟩ := hbody st.scopes.size _ hentered
  unfold runBody
  simp only
  rw [heq]
  refine ⟨rfl, ?_⟩
  have hleave : ∀ st₁ : Evaluator, st₁.depth = d + 1 →
      (leaveCall st.scopes.size st.functionsMade st₁).depth = d := by
    intro st₁ hst₁
    show st₁.depth - 1 = d
    rw [hst₁, Nat.add_sub_cancel]
  generalize body st.scopes.size _ = r at hsettles ⊢
  cases r with
  | ok v st₁ => exact hleave st₁ hsettles
  | error signal st₁ =>
      cases signal with
      | «return» v => exact hleave st₁ hsettles.1
      | error e => exact ⟨hleave st₁ hsettles.1, hsettles.2⟩

/-- **Calls**: the limit on the depth is reached before the count is used up, so that a larger count changes
nothing. -/
theorem agrees_callFunction [StringHash] (n : Nat) : ∀ {k d : Nat}, d + n = maxCallDepth + 1 → 0 < n → n ≤ k →
    ∀ f vs, Agrees d (callFunction n f vs) (callFunction k f vs) := by
  -- where one call more can be counted only, the depth has come to its limit, so that the count of the body
  -- is not used up either
  induction n with
  | zero => exact fun _ hpos => absurd hpos (Nat.lt_irrefl 0)
  | succ n ih =>
      intro k d hd _ hle f vs
      obtain ⟨k, rfl⟩ := Nat.exists_eq_add_of_lt (Nat.lt_of_lt_of_le (Nat.succ_pos n) hle)
      rw [Nat.zero_add] at hle ⊢
      cases f with
      | function identity parameters body home =>
          simp only [callFunction]
          split
          · exact .fail_bind EvalError.noConfusion
          · apply Agrees.get_bind
            intro st hst
            split
            · exact .fail_bind EvalError.noConfusion
            · next hdepth =>
                have hbody := ih (d := d + 1) (by omega) (by omega) (Nat.le_of_succ_le_succ hle)
                exact agrees_runBody (fun inner => agrees_evalBlock hbody inner body .null) _ _ _
      | builtin b =>
          simp only [callFunction]
          have hprint : ∀ st : Evaluator, st.depth = d →
              Settles d ((modify fun st => { st with output := b.print vs st.output } : EvalM Unit) st) :=
            fun _ hst => hst
          apply (Agrees.refl hprint).bind
          intro _
          split
          · exact .fail EvalError.noConfusion
          · exact .pure _
      | _ => exact .fail EvalError.noConfusion

/-! ## Names -/

/-- Looking a name up comes to the outermost scope before the count is used up. -/
theorem lookup?_eq_of_lt {scopes : Array Scope}
    (houter : ∀ (l o : Nat) (s : Scope), scopes[l]? = some s → s.outer = some o → o < l) (name : String) :
    ∀ {n k l : Nat}, l < n → l < k → lookup? scopes name n l = lookup? scopes name k l
  | n + 1, k + 1, l, hn, hk => by
      rw [lookup?, lookup?]
      cases hs : scopes[l]? with
      | none => rfl
      | some s =>
          simp only [Option.bind_eq_bind, Option.bind_some]
          split
          · rfl
          · cases ho : s.outer with
            | none => rfl
            | some o =>
                have hlt := houter l o s hs ho
                exact lookup?_eq_of_lt houter name (by omega) (by omega)

end EvalM

/-! ## Whole programs -/

namespace Evaluator

open EvalM

variable {st : Evaluator} {n scope : Nat} {activity : Activity} {held : List Value}

section

variable [StringHash]

/-- A program that is evaluated outside of all calls. -/
theorem agrees_program {n : Nat} (hn : maxCallDepth < n) (program : Program) :
    Agrees 0 (evalBlock (callFunction (maxCallDepth + 1)) 0 .null program)
      (evalBlock (callFunction n) 0 .null program) :=
  agrees_evalBlock (agrees_callFunction (maxCallDepth + 1) (Nat.zero_add _) (Nat.succ_pos _) hn) 0 program
    .null

/-- **Programs** get back to where there are no calls, and their calls can be followed. -/
theorem run_settles (hst : st.depth = 0) (program : Program) :
    (run program st).2.depth = 0 ∧ (run program st).1 ≠ .error .exhausted := by
  have hsettles := (agrees_program (Nat.lt_succ_self _) program st hst).2
  rw [run]
  generalize evalBlock _ _ _ _ st = r at hsettles ⊢
  cases r with
  | ok v st₁ => exact ⟨hsettles, fun h => by cases h⟩
  | error signal st₁ =>
      cases signal with
      | «return» v => exact ⟨hsettles.1, fun h => by cases h⟩
      | error e => exact ⟨hsettles.1, fun h => hsettles.2 (congrArg _ (Except.error.inj h))⟩

/-- The state behind a program, without the value. -/
theorem evaluate_snd (program : Program) (st : Evaluator) : (evaluate program st).2 = (run program st).2 := by
  rw [evaluate]
  split <;> next h => rw [h]

/-- Between programs no call is active. -/
theorem Reachable.depth_eq (h : Reachable st) : st.depth = 0 := by
  induction h with
  | initial => rfl
  | evaluate program _ ih =>
      rw [evaluate_snd]
      exact (run_settles ih program).1

/-! ## Evaluations on their way -/

/-- The number of calls that may still be entered, the limit on the depth being reached first. -/
structure Counted (n : Nat) (st : Evaluator) : Prop where
  sum : st.depth + n = maxCallDepth + 1
  pos : 0 < n

namespace Counted

variable {st₁ : Evaluator}

/-- A call from here agrees with itself. -/
theorem calls (h : Counted n st) (f : Value) (vs : List Value) :
    Agrees st.depth (callFunction n f vs) (callFunction n f vs) :=
  agrees_callFunction n h.sum h.pos (Nat.le_refl n) f vs

omit [StringHash] in
theorem of_depth_eq (h : Counted n st) (hdepth : st₁.depth = st.depth) : Counted n st₁ :=
  ⟨hdepth ▸ h.sum, h.pos⟩

omit [StringHash] in
/-- Behind a step there may be entered as many calls as in front of it. -/
theorem of_ok {α : Type} {x : EvalM α} {a : α} (h : Counted n st) (hx : Agrees st.depth x x)
    (heval : x st = .ok a st₁) : Counted n st₁ := by
  have hsettles := (hx st rfl).2
  rw [heval] at hsettles
  exact h.of_depth_eq hsettles

/-- Behind an expression, the count is still right. -/
theorem expr {e : Expr} {v : Value} (h : Counted n st)
    (heval : evalExpr (callFunction n) scope e st = .ok v st₁) : Counted n st₁ :=
  h.of_ok (agrees_evalExpr h.calls scope e) heval

theorem agrees_run (h : Counted n st) (activity : Activity) (scope : Nat) :
    Agrees st.depth (activity.run (callFunction n) scope) (activity.run (callFunction n) scope) := by
  cases activity with
  | expr e => exact (agrees_evalExpr h.calls scope e).bind fun _ => .pure _
  | exprs acc es => exact agrees_evalExprs h.calls scope es acc
  | pairs entries ps => exact (agrees_evalPairs h.calls scope ps entries).bind fun _ => .pure _
  | stmt s => exact (agrees_evalStmt h.calls scope s).bind fun _ => .pure _
  | block last ss => exact (agrees_evalBlock h.calls scope ss last).bind fun _ => .pure _
  | ended vs => exact .pure _

omit [StringHash] in
/-- The body of a function may enter one call less. -/
theorem enterCall {parameters : List String} {vs : List Value} {home : Nat} (h : Counted (n + 1) st)
    (hdepth : st.depth < maxCallDepth) : Counted n (EvalM.enterCall parameters vs home st) := by
  have hsum := h.sum
  refine ⟨?_, by omega⟩
  show st.depth + 1 + n = maxCallDepth + 1
  omega

end Counted

/-- Wherever an evaluation has come to, the calls that are active and those that may still be entered are as
many as the limit on the depth allows. -/
theorem Underway.counted (h : Underway n scope activity held st) : Counted n st := by
  -- only the body of a function is at another depth, and it may enter one call less
  induction h with
  | program program hreachable =>
      exact ⟨by rw [hreachable.depth_eq, Nat.zero_add], Nat.succ_pos _⟩
  | right _ heval ih => exact ih.expr heval
  | consequence _ heval _ ih => exact ih.expr heval
  | alternative _ heval _ ih => exact ih.expr heval
  | arguments _ heval ih => exact ih.expr heval
  | body _ hcallee harguments _ hdepth ih =>
      have hfront := ih.expr hcallee
      exact (hfront.of_ok (agrees_evalExprs hfront.calls _ _ _) harguments).enterCall hdepth
  | key _ heval ih => exact ih.expr heval
  | exprs_tail _ heval ih => exact ih.expr heval
  | pair_value _ heval ih => exact ih.expr heval
  | pairs_tail _ hkey _ hvalue ih => exact (ih.expr hkey).expr hvalue
  | block_tail _ heval ih => exact ih.of_ok (agrees_evalStmt ih.calls _ _) heval
  | done _ hrun ih => exact ih.of_ok (ih.agrees_run _ _) hrun
  | @stopped n scope held st st₁ activity signal _ hrun ih =>
      have hsettles := (ih.agrees_run activity scope st rfl).2
      rw [hrun] at hsettles
      exact ih.of_depth_eq hsettles.1
  | _ => assumption

/-- **Evaluation ends**: the calls of a program can be followed to the end, and following them further would
change nothing. Whatever comes of a program, no call is active behind it, and in between there are never more
than the limit allows: the calls that are active are those that have been entered on the way. -/
theorem evaluation_ends :
    (∀ (st : Evaluator) (program : Program), Reachable st →
      st.depth = 0 ∧ (evaluate program st).2.depth = 0 ∧ (run program st).1 ≠ .error .exhausted ∧
        ∀ n, maxCallDepth < n → evalBlock (callFunction n) 0 .null program st =
          evalBlock (callFunction (maxCallDepth + 1)) 0 .null program st) ∧
      ∀ n scope activity held st, Underway n scope activity held st →
        st.depth ≤ maxCallDepth ∧ st.depth + n = maxCallDepth + 1 ∧
          ∀ name k, scope < k →
            lookup? st.scopes name k scope = lookup? st.scopes name (scope + 1) scope := by
  refine ⟨fun st program h => ?_, fun n scope activity held st h => ?_⟩
  · obtain ⟨hdepth, hexhausted⟩ := run_settles h.depth_eq program
    rw [evaluate_snd]
    exact ⟨h.depth_eq, hdepth, hexhausted, fun n hn => (agrees_program hn program st h.depth_eq).1⟩
  · have hcounted := h.counted
    have hsum := hcounted.sum
    have hpos := hcounted.pos
    exact ⟨by omega, hsum, fun name k hk =>
      lookup?_eq_of_lt h.followed.wellScoped.outer name hk (Nat.lt_succ_self scope)⟩

end

/-- The program `let f = fn(n) { f(n) }; f(1)`. -/
def endlessCall : Program :=
  [.let "f" (.function (some "f") ["n"] [.expr (.call (.identifier "f") [.identifier "n"])]),
    .expr (.call (.identifier "f") [.integer 1])]

/-- The function `f` of that program. -/
def endlessFunction : Value := .function 0 ["n"] [.expr (.call (.identifier "f") [.identifier "n"])] 0

/-- The state in front of the first call. -/
def endlessCaller : Evaluator where
  scopes := #[⟨[("f", endlessFunction)], none⟩]
  functionsMade := 1

theorem endlessCall_ends :
    (evaluate endlessCall {}).2.depth = 0 ∧ (run endlessCall {}).1 ≠ .error .exhausted ∧
      ∃ scope activity held st, Underway maxCallDepth scope activity held st ∧ st.depth = 1 := by
  have hcaller : Underway (maxCallDepth + 1) 0 (.block .null endlessCall.tail) [] endlessCaller :=
    .block_tail (.program endlessCall .initial) rfl
  have harguments : evalExprs (callFunction (maxCallDepth + 1)) 0 [] [.integer 1] endlessCaller =
      .ok [.integer 1] endlessCaller := rfl
  have hbody := hcaller.block_head.expr.body rfl harguments rfl (by decide)
  obtain ⟨-, hdepth, hexhausted, -⟩ := evaluation_ends.1 {} endlessCall .initial
  have hcounted := (evaluation_ends.2 _ _ _ _ _ hbody).2.1
  exact ⟨hdepth, hexhausted, _, _, _, _, hbody, Nat.add_left_cancel ((Nat.add_comm _ _).trans hcounted)⟩

end Evaluator

end ScriptLang
