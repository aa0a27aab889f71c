import ScriptLang.Proofs.Evaluator.Release
import ScriptLang.Value.SipHash

/-!
# Open scopes

`Underway n scope activity held st` says that an evaluation on its way reaches the state `st`, where it goes on
with an activity and still has some values in hand: those of a running expression, and those of the calls around
it. The rules read the evaluator clause by clause, up to the next place where it looks at the state. Main
statement: `Evaluator.release_unobservable` — a program cannot tell whether scopes are released, and wherever an
evaluation has come to, every function that it can get hold of refers to a scope that is open.
-/

namespace ScriptLang

open EvalM (enterCall callFunction evalExpr evalExprs evalPairs evalStmt evalBlock fail)

/-! ## Evaluations on their way -/

namespace Dictionary

variable {entries : Dictionary Value}

/-- The keys and the values of some entries. -/
def contents (entries : Dictionary Value) : List Value := entries.flatMap fun e => [e.1.toValue, e.2]

theorem forall_mem_contents {p : Value → Prop} :
    (∀ v ∈ contents entries, p v) ↔ ∀ e ∈ entries, p e.1.toValue ∧ p e.2 := by
  simp only [contents, List.forall_mem_flatMap, List.mem_pair, forall_eq_or_imp, forall_eq]

/-- An entry that is put into a hash brings its key and its value with it. -/
theorem mem_of_mem_contents_insert {hashKey : HashKey} {k v w : Value}
    (h : w ∈ contents (insert ⟨hashKey, k⟩ v entries)) : w ∈ v :: k :: contents entries := by
  obtain ⟨e, he, hw⟩ := List.mem_flatMap.mp h
  rcases mem_insert.mp he with rfl | ⟨hold, -⟩
  · rcases List.mem_pair.mp hw with rfl | rfl
    · exact List.mem_cons_of_mem _ List.mem_cons_self
    · exact List.mem_cons_self
  · exact List.mem_cons_of_mem _ (List.mem_cons_of_mem _ (List.mem_flatMap.mpr ⟨e, hold, hw⟩))

end Dictionary

/-- Hashes that stand for each other have such contents. -/
theorem Pairing.Hashes.contents {P : Pairing} {es es' : Dictionary Value} (h : P.Hashes es es') :
    P.Lists (Dictionary.contents es) (Dictionary.contents es') where
  made := Dictionary.forall_mem_contents.mpr h.made
  eq := by
    rw [h.eq, Dictionary.contents, List.flatMap_map, Dictionary.contents, List.map_flatMap]
    rfl

/-- What an evaluation goes on with. -/
inductive Activity where
  | expr (e : Expr)
  /-- Some expressions, behind those whose values are there already. -/
  | exprs (acc : List Value) (es : List Expr)
  /-- Pairs of a hash literal, behind those that are there already. -/
  | pairs (entries : Dictionary Value) (ps : List (Expr × Expr))
  | stmt (s : Stmt)
  /-- Some statements, behind one with the value `last`. -/
  | block (last : Value) (ss : List Stmt)
  /-- An activity is over, with some values or with a failure. -/
  | ended (vs : List Value)

/-- The values that an activity has produced so far. -/
def Activity.values : Activity → List Value
  | .expr _ | .stmt _ => []
  | .exprs acc _ => acc
  | .pairs entries _ => Dictionary.contents entries
  | .block last _ => [last]
  | .ended vs => vs

/-- What an activity comes to. -/
def Activity.run [StringHash] (call : Value → List Value → EvalM Value) (scope : Nat) : Activity → EvalM (List Value)
  | .expr e => do return [← evalExpr call scope e]
  | .exprs acc es => evalExprs call scope acc es
  | .pairs entries ps => do return Dictionary.contents (← evalPairs call scope entries ps)
  | .stmt s => do return [← evalStmt call scope s]
  | .block last ss => do return [← evalBlock call scope last ss]
  | .ended vs => return vs

/-- The value that a signal brings with it. -/
def Signal.values : Signal → List Value
  | .return v => [v]
  | .error _ => []

namespace Evaluator

variable [StringHash]

/-- The states in front of a program. -/
inductive Reachable : Evaluator → Prop where
  | initial : Reachable {}
  | evaluate {st : Evaluator} (program : Program) : Reachable st → Reachable (evaluate program st).2

/-- An evaluation in a scope has come to a state, with some values in hand. Calls go at most `n - 1` deeper. -/
inductive Underway : Nat → Nat → Activity → List Value → Evaluator → Prop where
  | program {st : Evaluator} (program : Program) :
      Reachable st → Underway (maxCallDepth + 1) 0 (.block .null program) [] st
  | array {n scope : Nat} {held : List Value} {st : Evaluator} {elements : List Expr} :
      Underway n scope (.expr (.array elements)) held st → Underway n scope (.exprs [] elements) held st
  | hash {n scope : Nat} {held : List Value} {st : Evaluator} {pairs : List (Expr × Expr)} :
      Underway n scope (.expr (.hash pairs)) held st → Underway n scope (.pairs [] pairs) held st
  | unary {n scope : Nat} {held : List Value} {st : Evaluator} {operator : Operator} {operand : Expr} :
      Underway n scope (.expr (.unary operator operand)) held st → Underway n scope (.expr operand) held st
  | left {n scope : Nat} {held : List Value} {st : Evaluator} {left right : Expr} {operator : Operator} :
      Underway n scope (.expr (.binary left operator right)) held st → Underway n scope (.expr left) held st
  | right {n scope : Nat} {held : List Value} {st st₁ : Evaluator} {left right : Expr} {operator : Operator}
      {v : Value} :
      Underway n scope (.expr (.binary left operator right)) held st →
      evalExpr (callFunction n) scope left st = .ok v st₁ → Underway n scope (.expr right) (v :: held) st₁
  | condition {n scope : Nat} {held : List Value} {st : Evaluator} {condition : Expr} {consequence : List Stmt}
      {alternative : Option (List Stmt)} :
      Underway n scope (.expr (.if condition consequence alternative)) held st →
      Underway n scope (.expr condition) held st
  | consequence {n scope : Nat} {held : List Value} {st st₁ : Evaluator} {condition : Expr}
      {consequence : List Stmt} {alternative : Option (List Stmt)} {v : Value} :
      Underway n scope (.expr (.if condition consequence alternative)) held st →
      evalExpr (callFunction n) scope condition st = .ok v st₁ → v.isTruthy = true →
      Underway n scope (.block .null consequence) held st₁
  | alternative {n scope : Nat} {held : List Value} {st st₁ : Evaluator} {condition : Expr}
      {consequence alternative : List Stmt} {v : Value} :
      Underway n scope (.expr (.if condition consequence (some alternative))) held st →
      evalExpr (callFunction n) scope condition st = .ok v st₁ → v.isTruthy = false →
      Underway n scope (.block .null alternative) held st₁
  | callee {n scope : Nat} {held : List Value} {st : Evaluator} {callee : Expr} {arguments : List Expr} :
      Underway n scope (.expr (.call callee arguments)) held st → Underway n scope (.expr callee) held st
  | arguments {n scope : Nat} {held : List Value} {st st₁ : Evaluator} {callee : Expr} {arguments : List Expr}
      {f : Value} :
      Underway n scope (.expr (.call callee arguments)) held st →
      evalExpr (callFunction n) scope callee st = .ok f st₁ →
      Underway n scope (.exprs [] arguments) (f :: held) st₁
  /-- The body of a function. Its caller goes on to have the function and the arguments in hand. -/
  | body {n scope : Nat} {held : List Value} {st st₁ st₂ : Evaluator} {callee : Expr} {arguments : List Expr}
      {identity home : Nat} {parameters : List String} {body : List Stmt} {vs : List Value} :
      Underway (n + 1) scope (.expr (.call callee arguments)) held st →
      evalExpr (callFunction (n + 1)) scope callee st = .ok (.function identity parameters body home) st₁ →
      evalExprs (callFunction (n + 1)) scope [] arguments st₁ = .ok vs st₂ →
      vs.length = parameters.length → st₂.depth < maxCallDepth →
      Underway n st₂.scopes.size (.block .null body)
        (vs ++ .function identity parameters body home :: held) (enterCall parameters vs home st₂)
  | collection {n scope : Nat} {held : List Value} {st : Evaluator} {collection key : Expr} :
      Underway n scope (.expr (.index collection key)) held st → Underway n scope (.expr collection) held st
  | key {n scope : Nat} {held : List Value} {st st₁ : Evaluator} {collection key : Expr} {v : Value} :
      Underway n scope (.expr (.index collection key)) held st →
      evalExpr (callFunction n) scope collection st = .ok v st₁ → Underway n scope (.expr key) (v :: held) st₁
  | exprs_head {n scope : Nat} {held acc : List Value} {st : Evaluator} {e : Expr} {es : List Expr} :
      Underway n scope (.exprs acc (e :: es)) held st → Underway n scope (.expr e) (acc ++ held) st
  | exprs_tail {n scope : Nat} {held acc : List Value} {st st₁ : Evaluator} {e : Expr} {es : List Expr}
      {v : Value} :
      Underway n scope (.exprs acc (e :: es)) held st →
      evalExpr (callFunction n) scope e st = .ok v st₁ → Underway n scope (.exprs (v :: acc) es) held st₁
  | pair_key {n scope : Nat} {held : List Value} {st : Evaluator} {entries : Dictionary Value}
      {key value : Expr} {pairs : List (Expr × Expr)} :
      Underway n scope (.pairs entries ((key, value) :: pairs)) held st →
      Underway n scope (.expr key) (Dictionary.contents entries ++ held) st
  | pair_value {n scope : Nat} {held : List Value} {st st₁ : Evaluator} {entries : Dictionary Value}
      {key value : Expr} {pairs : List (Expr × Expr)} {k : Value} :
      Underway n scope (.pairs entries ((key, value) :: pairs)) held st →
      evalExpr (callFunction n) scope key st = .ok k st₁ →
      Underway n scope (.expr value) (k :: (Dictionary.contents entries ++ held)) st₁
  | pairs_tail {n scope : Nat} {held : List Value} {st st₁ st₂ : Evaluator} {entries : Dictionary Value}
      {key value : Expr} {pairs : List (Expr × Expr)} {k v : Value} {hashKey : HashKey} :
      Underway n scope (.pairs entries ((key, value) :: pairs)) held st →
      evalExpr (callFunction n) scope key st = .ok k st₁ → k.key? = some hashKey →
      evalExpr (callFunction n) scope value st₁ = .ok v st₂ →
      Underway n scope (.pairs (Dictionary.insert ⟨hashKey, k⟩ v entries) pairs) held st₂
  | let {n scope : Nat} {held : List Value} {st : Evaluator} {name : String} {value : Expr} :
      Underway n scope (.stmt (.let name value)) held st → Underway n scope (.expr value) held st
  | return {n scope : Nat} {held : List Value} {st : Evaluator} {value : Expr} :
      Underway n scope (.stmt (.return (some value))) held st → Underway n scope (.expr value) held st
  | expr {n scope : Nat} {held : List Value} {st : Evaluator} {value : Expr} :
      Underway n scope (.stmt (.expr value)) held st → Underway n scope (.expr value) held st
  | block_head {n scope : Nat} {held : List Value} {st : Evaluator} {last : Value} {s : Stmt} {ss : List Stmt} :
      Underway n scope (.block last (s :: ss)) held st → Underway n scope (.stmt s) held st
  | block_tail {n scope : Nat} {held : List Value} {st st₁ : Evaluator} {last v : Value} {s : Stmt}
      {ss : List Stmt} :
      Underway n scope (.block last (s :: ss)) held st →
      evalStmt (callFunction n) scope s st = .ok v st₁ → Underway n scope (.block v ss) held st₁
  | done {n scope : Nat} {held vs : List Value} {st st₁ : Evaluator} {activity : Activity} :
      Underway n scope activity held st → activity.run (callFunction n) scope st = .ok vs st₁ →
      Underway n scope (.ended vs) held st₁
  | stopped {n scope : Nat} {held : List Value} {st st₁ : Evaluator} {activity : Activity} {signal : Signal} :
      Underway n scope activity held st → activity.run (callFunction n) scope st = .error signal st₁ →
      Underway n scope (.ended signal.values) held st₁

/-- Some values, and those that names stand for, refer to open scopes, and every scope is inside an older one. -/
structure WellScoped (st : Evaluator) (vs : List Value) : Prop where
  values : ∀ v ∈ vs, v.ForFunctions fun _ scope => scope < st.scopes.size
  bindings : ∀ s ∈ st.scopes, ∀ b ∈ s.bindings, b.2.ForFunctions fun _ scope => scope < st.scopes.size
  outer : ∀ (l o : Nat) (s : Scope), st.scopes[l]? = some s → s.outer = some o → o < l

end Evaluator

namespace Pairing

variable {P : Pairing} {v : Value} {vs vs' : List Value} {st st' : Evaluator} {l : Nat}

/-! ## What has been made refers to open scopes

The relation to an evaluator that keeps all scopes says more than it was made for: a function that has been
made has its scope among those with a twin, and these are open. -/

/-- The scope of a function that has been made is open. -/
theorem States.lt_size_of_made (h : P.States st st') (hv : v.MadeIn P.homes) :
    v.ForFunctions fun _ scope => scope < st.scopes.size := by
  rw [← h.size]
  apply hv.mono
  intro identity scope hhome
  exact P.home_lt scope (List.mem_of_getElem? hhome)

theorem States.exists_scopes (h : P.States st st') {s : Scope} (hs : st.scopes[l]? = some s) :
    ∃ l' s', P.Scopes l l' s s' := by
  have hlt : l < P.twins.length := by
    rw [h.size]
    exact (Array.getElem?_eq_some_iff.mp hs).1
  obtain ⟨s₁, s', hs₁, -, hscopes⟩ := h.scope l _ (List.getElem?_eq_getElem hlt)
  obtain rfl : s = s₁ := Option.some.inj (hs.symm.trans hs₁)
  exact ⟨_, s', hscopes⟩

/-- States that stand for each other refer to open scopes only. -/
theorem States.wellScoped (h : P.States st st') (hvs : P.Lists vs vs') : st.WellScoped vs where
  values := fun v hv => h.lt_size_of_made (hvs.made v hv)
  bindings := by
    intro s hs b hb
    obtain ⟨l, hl⟩ := Array.getElem?_of_mem hs
    obtain ⟨l', s', hscopes⟩ := h.exists_scopes hl
    exact h.lt_size_of_made (hscopes.bindings.made b hb)
  outer := by
    intro l o s hs ho
    obtain ⟨l', s', hscopes⟩ := h.exists_scopes hs
    rcases hscopes.outer with ⟨hnone, -⟩ | ⟨o₁, o', ho₁, -, hlt, -, -⟩
    · cases ho.symm.trans hnone
    · obtain rfl : o = o₁ := Option.some.inj (ho.symm.trans ho₁)
      exact hlt

end Pairing

open Pairing

/-- Every activity has one of the keeping evaluator that stands for it. -/
theorem Activity.exists_alike [StringHash] {P : Pairing} {activity : Activity} {scope l' n : Nat}
    (hl : P.twins[scope]? = some l') (hvalues : ∀ v ∈ activity.values, v.MadeIn P.homes) :
    ∃ x', P.Alike Lists (activity.run (callFunction n) scope) x' := by
  have hcall := alike_callFunction n
  have hone : ∀ P' : Pairing, P.Grows P' → ∀ v v', P'.Values v v' → P'.Alike Lists (pure [v]) (pure [v']) :=
    fun P' _ v v' hv => Alike.pure (.cons hv (.nil P'))
  cases activity with
  | expr e => exact ⟨_, (alike_evalExpr hcall e P scope l' hl).bind hone⟩
  | exprs acc es => exact ⟨_, alike_evalExprs hcall es P scope l' hl _ _ ⟨hvalues, rfl⟩⟩
  | pairs entries ps =>
      have hentries : P.Hashes entries (Value.renumberEntries P.move entries) :=
        ⟨(Value.entriesForFunctions_iff entries).mpr (Dictionary.forall_mem_contents.mp hvalues), rfl⟩
      have hbuilt : ∀ P' : Pairing, P.Grows P' → ∀ es es' : Dictionary Value, P'.Hashes es es' →
          P'.Alike Lists (pure (Dictionary.contents es)) (pure (Dictionary.contents es')) :=
        fun P' _ es es' hes => Alike.pure hes.contents
      exact ⟨_, (alike_evalPairs hcall ps P scope l' hl _ _ hentries).bind hbuilt⟩
  | stmt s => exact ⟨_, (alike_evalStmt hcall s P scope l' hl).bind hone⟩
  | block last ss =>
      have hlast : P.Values last (last.renumber P.move) := ⟨hvalues last List.mem_cons_self, rfl⟩
      exact ⟨_, (alike_evalBlock hcall ss P scope l' hl _ _ hlast).bind hone⟩
  | ended vs => exact ⟨_, Alike.pure ⟨hvalues, rfl⟩⟩

namespace Evaluator

/-- Some state of the keeping evaluator stands for this one, and the values in hand have been made. -/
def Followed (scope : Nat) (vs : List Value) (st : Evaluator) : Prop :=
  ∃ (P : Pairing) (st' : Evaluator) (l' : Nat), P.States st st' ∧ P.twins[scope]? = some l' ∧
    ∀ v ∈ vs, v.MadeIn P.homes

namespace Followed

variable {scope n : Nat} {vs ws held : List Value} {v : Value} {st st₁ : Evaluator} {activity : Activity}

theorem wellScoped (h : Followed scope vs st) : st.WellScoped vs := by
  obtain ⟨P, st', l', hstates, -, hvs⟩ := h
  exact hstates.wellScoped ⟨hvs, rfl⟩

theorem mono (h : Followed scope vs st) (hsubset : ∀ v ∈ ws, v ∈ vs) : Followed scope ws st := by
  obtain ⟨P, st', l', hstates, hl, hvs⟩ := h
  exact ⟨P, st', l', hstates, hl, fun v hv => hvs v (hsubset v hv)⟩

/-- **Activities**, whether they succeed or fail. -/
theorem run [StringHash] (h : Followed scope (activity.values ++ held) st) :
    (∀ vs st₁, activity.run (callFunction n) scope st = .ok vs st₁ → Followed scope (vs ++ held) st₁) ∧
      ∀ signal st₁, activity.run (callFunction n) scope st = .error signal st₁ →
        Followed scope (signal.values ++ held) st₁ := by
  obtain ⟨P, st', l', hstates, hl, hmade⟩ := h
  obtain ⟨hvalues, hheld⟩ := List.forall_mem_append.mp hmade
  obtain ⟨x', halike⟩ := Activity.exists_alike (n := n) hl hvalues
  have hresults := halike st st' hstates
  have hkept : ∀ {P' : Pairing}, P.Grows P' → ∀ v ∈ held, v.MadeIn P'.homes :=
    fun hgrows v hv => hgrows.made (hheld v hv)
  constructor
  · intro vs st₁ hrun
    rw [hrun] at hresults
    generalize x' st' = r' at hresults
    cases hresults with
    | ok hgrows hstates hvs =>
        exact ⟨_, _, l', hstates, hgrows.twin hl, List.forall_mem_append.mpr ⟨hvs.made, hkept hgrows⟩⟩
  · intro signal st₁ hrun
    rw [hrun] at hresults
    generalize x' st' = r' at hresults
    cases hresults with
    | «return» hgrows hstates hv =>
        exact ⟨_, _, l', hstates, hgrows.twin hl, List.forall_mem_cons.mpr ⟨hv.made, hkept hgrows⟩⟩
    | error hgrows hstates => exact ⟨_, _, l', hstates, hgrows.twin hl, hkept hgrows⟩

theorem null (h : Followed scope held st) : Followed scope (.null :: held) st := by
  obtain ⟨P, st', l', hstates, hl, hmade⟩ := h
  exact ⟨P, st', l', hstates, hl, List.forall_mem_cons.mpr ⟨trivial, hmade⟩⟩

/-- The body of a function is evaluated in a scope of its own. -/
theorem enterCall {identity home : Nat} {parameters : List String} {body : List Stmt}
    (h : Followed scope (vs ++ .function identity parameters body home :: held) st) :
    Followed st.scopes.size (vs ++ .function identity parameters body home :: held)
      (EvalM.enterCall parameters vs home st) := by
  obtain ⟨P, st', l', hstates, -, hmade⟩ := h
  obtain ⟨hvs, hrest⟩ := List.forall_mem_append.mp hmade
  obtain ⟨home', htwin⟩ := exists_twin (hrest _ List.mem_cons_self)
  obtain ⟨P₁, hgrows, hinner, hentered⟩ := hstates.enterCall parameters ⟨hvs, rfl⟩ htwin
  exact ⟨P₁, _, _, hentered, hinner, fun v hv => hgrows.made (hmade v hv)⟩

end Followed

section

variable [StringHash]

/-- Between programs, a state is followed. -/
theorem Reachable.followed {st : Evaluator} (h : Reachable st) :
    ∃ (P : Pairing) (st' : Evaluator), P.States st st' ∧ P.twins[0]? = some 0 := by
  induction h with
  | initial => exact ⟨.initial, {}, initial_states, rfl⟩
  | evaluate program _ ih =>
      obtain ⟨P, st', hstates, hmain⟩ := ih
      obtain ⟨P₁, hgrows, hstates₁, -⟩ := hstates.evaluate hmain program
      exact ⟨P₁, _, hstates₁, hgrows.twin hmain⟩

/-! ## What holds wherever an evaluation comes to -/

/-- Something that may hold in a scope of a state, with some values in hand. It holds in front of every program,
and activities, as well as the calls in between, keep it. -/
structure Invariant (Q : Nat → List Value → Evaluator → Prop) : Prop where
  program : ∀ {st : Evaluator}, Reachable st → Q 0 [] st
  null : ∀ {scope : Nat} {vs : List Value} {st : Evaluator}, Q scope vs st → Q scope (.null :: vs) st
  mono : ∀ {scope : Nat} {vs ws : List Value} {st : Evaluator}, Q scope vs st → (∀ v ∈ ws, v ∈ vs) → Q scope ws st
  run : ∀ {n scope : Nat} {activity : Activity} {held : List Value} {st : Evaluator},
    Q scope (activity.values ++ held) st →
      (∀ vs st₁, activity.run (callFunction n) scope st = .ok vs st₁ → Q scope (vs ++ held) st₁) ∧
        ∀ signal st₁, activity.run (callFunction n) scope st = .error signal st₁ →
          Q scope (signal.values ++ held) st₁
  /-- The body of a function is evaluated in a scope of its own. -/
  enterCall : ∀ {scope identity home : Nat} {parameters : List String} {body : List Stmt} {vs held : List Value}
    {st : Evaluator}, Q scope (vs ++ .function identity parameters body home :: held) st →
      Q st.scopes.size (vs ++ .function identity parameters body home :: held)
        (EvalM.enterCall parameters vs home st)

namespace Invariant

variable {Q : Nat → List Value → Evaluator → Prop} {n scope : Nat} {vs held : List Value} {v : Value}
  {st st₁ : Evaluator}

/-- Behind an expression, with its value in hand. -/
theorem expr (hQ : Invariant Q) (h : Q scope held st) {e : Expr}
    (heval : evalExpr (callFunction n) scope e st = .ok v st₁) : Q scope (v :: held) st₁ := by
  have hactivity : Q scope ((Activity.expr e).values ++ held) st := h
  apply (hQ.run (n := n) hactivity).1 [v] st₁
  rw [Activity.run, EvalM.bind_apply, heval]
  rfl

/-- Behind several expressions, with their values in hand. -/
theorem exprs (hQ : Invariant Q) (h : Q scope held st) {es : List Expr}
    (heval : evalExprs (callFunction n) scope [] es st = .ok vs st₁) : Q scope (vs ++ held) st₁ := by
  have hactivity : Q scope ((Activity.exprs [] es).values ++ held) st := h
  exact (hQ.run (n := n) hactivity).1 vs st₁ heval

theorem stmt (hQ : Invariant Q) (h : Q scope held st) {s : Stmt}
    (heval : evalStmt (callFunction n) scope s st = .ok v st₁) : Q scope (v :: held) st₁ := by
  have hactivity : Q scope ((Activity.stmt s).values ++ held) st := h
  apply (hQ.run (n := n) hactivity).1 [v] st₁
  rw [Activity.run, EvalM.bind_apply, heval]
  rfl

theorem tail (hQ : Invariant Q) (h : Q scope (v :: vs) st) : Q scope vs st :=
  hQ.mono h fun _ hv => List.mem_cons_of_mem _ hv

/-- **An invariant** holds wherever an evaluation comes to. -/
theorem underway (hQ : Invariant Q) {activity : Activity} (h : Underway n scope activity held st) :
    Q scope (activity.values ++ held) st := by
  -- a part that begins takes over what its whole has in hand, a part behind others their values as well
  induction h with
  | program program hreachable => exact hQ.null (hQ.program hreachable)
  | array _ ih => exact ih
  | hash _ ih => exact ih
  | unary _ ih => exact ih
  | left _ ih => exact ih
  | right _ heval ih => exact hQ.expr ih heval
  | condition _ ih => exact ih
  | consequence _ heval _ ih => exact hQ.null (hQ.tail (hQ.expr ih heval))
  | alternative _ heval _ ih => exact hQ.null (hQ.tail (hQ.expr ih heval))
  | callee _ ih => exact ih
  | arguments _ heval ih => exact hQ.expr ih heval
  | body _ hcallee harguments _ _ ih =>
      exact hQ.null (hQ.enterCall (hQ.exprs (hQ.expr ih hcallee) harguments))
  | collection _ ih => exact ih
  | key _ heval ih => exact hQ.expr ih heval
  | exprs_head _ ih => exact ih
  | exprs_tail _ heval ih => exact hQ.expr ih heval
  | pair_key _ ih => exact ih
  | pair_value _ heval ih => exact hQ.expr ih heval
  | pairs_tail _ hkey _ hvalue ih =>
      apply hQ.mono (hQ.expr (hQ.expr ih hkey) hvalue)
      intro v hv
      rw [Activity.values, ← List.cons_append, ← List.cons_append]
      rcases List.mem_append.mp hv with hnew | hheld
      · exact List.mem_append_left _ (Dictionary.mem_of_mem_contents_insert hnew)
      · exact List.mem_append_right _ hheld
  | «let» _ ih => exact ih
  | «return» _ ih => exact ih
  | expr _ ih => exact ih
  | block_head _ ih => exact hQ.tail ih
  | block_tail _ heval ih =>
      apply hQ.mono (hQ.stmt (hQ.tail ih) heval)
      exact fun _ hv => hv
  | done _ hrun ih => exact (hQ.run ih).1 _ _ hrun
  | stopped _ hrun ih => exact (hQ.run ih).2 _ _ hrun

end Invariant

theorem followed_invariant : Invariant Followed where
  program := fun h => by
    obtain ⟨P, st', hstates, hmain⟩ := h.followed
    exact ⟨P, st', 0, hstates, hmain, List.forall_mem_nil _⟩
  null := Followed.null
  mono := Followed.mono
  run := Followed.run
  enterCall := Followed.enterCall

/-- The keeping evaluator follows wherever an evaluation comes to. -/
theorem Underway.followed {n scope : Nat} {activity : Activity} {held : List Value} {st : Evaluator}
    (h : Underway n scope activity held st) : Followed scope (activity.values ++ held) st :=
  followed_invariant.underway h

/-- **Releasing scopes** cannot be observed. Whatever programs are evaluated one behind another, their values
and what they print are those of the evaluator that keeps all scopes, but for the numbers of scopes inside of
functions. Wherever an evaluation comes to, the functions that it has in hand or under a name refer to open
scopes, and every scope is inside an older one. -/
theorem release_unobservable :
    (∀ programs : List Program,
      (evaluateAll evaluate programs {}).1.map Value.erase =
          (evaluateAll evaluateKeeping programs {}).1.map Value.erase ∧
        (evaluateAll evaluate programs {}).2.output.text =
          (evaluateAll evaluateKeeping programs {}).2.output.text) ∧
      ∀ n scope activity held st,
        Underway n scope activity held st → st.WellScoped (activity.values ++ held) := by
  constructor
  · intro programs
    obtain ⟨P, -, hstates, hvs⟩ := initial_states.evaluateAll programs rfl
    exact ⟨hvs.map_erase.symm, hstates.output.symm⟩
  · intro n scope activity held st h
    exact h.followed.wellScoped

end

/-- The program `let f = fn(x) { x }; f([f])`. -/
def selfInArray : Program :=
  [.let "f" (.function (some "f") ["x"] [.expr (.identifier "x")]),
    .expr (.call (.identifier "f") [.array [.identifier "f"]])]

/-- The function `f` of that program. -/
def selfInArrayFunction : Value := .function 0 ["x"] [.expr (.identifier "x")] 0

/-- The state in front of the call. -/
def selfInArrayCaller : Evaluator where
  scopes := #[⟨[("f", selfInArrayFunction)], none⟩]
  functionsMade := 1

theorem selfInArray_wellScoped :
    let inner := enterCall ["x"] [.array [selfInArrayFunction]] 0 selfInArrayCaller
    let held := [.array [selfInArrayFunction], selfInArrayFunction]
    Underway 200 1 (.block .null [.expr (.identifier "x")]) held inner ∧ inner.WellScoped (.null :: held) := by
  have hcaller : Underway 201 0 (.block .null selfInArray.tail) [] selfInArrayCaller :=
    .block_tail (.program selfInArray .initial) rfl
  have harguments : evalExprs (callFunction 201) 0 [] [.array [.identifier "f"]] selfInArrayCaller =
      .ok [.array [selfInArrayFunction]] selfInArrayCaller := rfl
  have hbody := hcaller.block_head.expr.body rfl harguments rfl (by decide)
  exact ⟨hbody, release_unobservable.2 _ _ _ _ _ hbody⟩

end Evaluator

end ScriptLang
