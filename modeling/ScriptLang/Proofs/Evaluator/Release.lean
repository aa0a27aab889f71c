import ScriptLang.Proofs.Evaluator.Pairing

/-!
# Releasing scopes

No program can tell an evaluator that closes scopes from one that keeps them. Each step of the two comes to the
same from states that stand for each other (`Pairing.Alike`), and so do the sequences of steps. Main statement:
`Evaluator.evaluateAll_alike`.
-/

namespace ScriptLang

open EvalM (callFunction evalExpr evalExprs evalPairs evalStmt evalBlock fail)

namespace Pairing

variable {P P₁ P₂ : Pairing} {v v' : Value} {vs vs' : List Value} {l l' : Nat} {α β : Type}

/-! ## Results -/

/-- Two evaluations come to the same, up to the numbers of scopes. -/
inductive Results (P : Pairing) (Q : Pairing → α → α → Prop) :
    EStateM.Result Signal Evaluator α → EStateM.Result Signal Evaluator α → Prop where
  | ok {P' : Pairing} {a a' : α} {st st' : Evaluator} :
      P.Grows P' → P'.States st st' → Q P' a a' → Results P Q (.ok a st) (.ok a' st')
  | return {P' : Pairing} {v v' : Value} {st st' : Evaluator} :
      P.Grows P' → P'.States st st' → P'.Values v v' →
      Results P Q (.error (.return v) st) (.error (.return v') st')
  | error {P' : Pairing} {e : EvalError} {st st' : Evaluator} :
      P.Grows P' → P'.States st st' → Results P Q (.error (.error e) st) (.error (.error e) st')

/-- Two steps of evaluations come to the same from states that stand for each other. -/
def Alike (P : Pairing) (Q : Pairing → α → α → Prop) (x x' : EvalM α) : Prop :=
  ∀ st st', P.States st st' → P.Results Q (x st) (x' st')

variable {Q : Pairing → α → α → Prop} {R : Pairing → β → β → Prop}

/-- What two evaluations come to may be seen from an earlier pairing. -/
theorem Results.mono {r r' : EStateM.Result Signal Evaluator α} (h : P₁.Results Q r r') (hP : P.Grows P₁) :
    P.Results Q r r' := by
  cases h with
  | ok hgrows hstates hq => exact .ok (hP.trans hgrows) hstates hq
  | «return» hgrows hstates hv => exact .return (hP.trans hgrows) hstates hv
  | error hgrows hstates => exact .error (hP.trans hgrows) hstates

theorem Alike.pure {a a' : α} (h : Q P a a') : P.Alike Q (pure a) (pure a') :=
  fun _ _ hstates => .ok (.refl P) hstates h

theorem Alike.fail (e : EvalError) : P.Alike Q (fail e) (fail e) :=
  fun _ _ hstates => .error (.refl P) hstates

theorem Alike.throw (h : P.Values v v') : P.Alike Q (throw (.return v)) (throw (.return v')) :=
  fun _ _ hstates => .return (.refl P) hstates h

/-- **Sequences**: one step behind another. More functions may have been made in between. -/
theorem Alike.bind {x x' : EvalM α} {k k' : α → EvalM β} (hx : P.Alike Q x x')
    (hk : ∀ P', P.Grows P' → ∀ a a', Q P' a a' → P'.Alike R (k a) (k' a')) :
    P.Alike R (x >>= k) (x' >>= k') := by
  intro st st' hstates
  have hresults := hx st st' hstates
  rw [EvalM.bind_apply, EvalM.bind_apply]
  generalize x st = r, x' st' = r' at hresults ⊢
  cases hresults with
  | ok hgrows hstates hq => exact (hk _ hgrows _ _ hq _ _ hstates).mono hgrows
  | «return» hgrows hstates hv => exact .return hgrows hstates hv
  | error hgrows hstates => exact .error hgrows hstates

/-- What commutes with any renumbering is alike. It makes no function either: a function that is not one of
those in the operands would not be pinned. -/
theorem Alike.of_shifts {x x' : EvalM Value} (hmove : EvalM.Shifts P.move x x')
    (hpin : EvalM.Shifts P.pin x x) :
    P.Alike Values x x' := by
  rcases hmove with ⟨e, rfl, rfl⟩ | ⟨v, rfl, rfl⟩
  · exact .fail e
  · apply Alike.pure
    refine ⟨?_, rfl⟩
    rcases hpin with ⟨e, hfail, -⟩ | ⟨w, hw, hpinned⟩
    · exact absurd (congrFun hfail {}) nofun
    · have heq : v = w := (EStateM.Result.ok.inj (congrFun hw {})).1
      have hfixed : v = w.renumber _ := (EStateM.Result.ok.inj (congrFun hpinned {})).1
      apply Value.forFunctions_iff_renumber.mpr
      rw [← heq] at hfixed
      exact hfixed.symm

/-! ## Names and functions -/

/-- Binding a name in scopes that stand for each other. -/
theorem alike_store (name : String) (hl : P.twins[l]? = some l') (hv : P.Values v v') :
    P.Alike (fun _ _ _ => True) (EvalM.store name v l) (EvalM.store name v' l') := by
  intro st st' h
  refine .ok (.refl P) ⟨h.made, h.functionsMade, h.depth, h.output, ?_, ?_⟩ trivial
  · rw [Array.size_modify]
    exact h.size
  · intro m m' hm
    obtain ⟨s, s', hs, hs', hscopes⟩ := h.scope m m' hm
    rw [Array.getElem?_modify, Array.getElem?_modify, hs, hs']
    -- scopes are paired one to one, so that both evaluators change the same pair
    by_cases heq : l = m
    · subst heq
      obtain rfl : l' = m' := Option.some.inj (hl.symm.trans hm)
      rw [if_pos rfl, if_pos rfl]
      exact ⟨_, _, rfl, rfl, hscopes.bindings.insert_name name hv, hscopes.outer⟩
    · have hne : l' ≠ m' := by
        rintro rfl
        exact heq (P.twins_inj hl hm)
      rw [if_neg heq, if_neg hne]
      exact ⟨s, s', rfl, rfl, hscopes⟩

/-- A pairing for one more function. -/
def addFunction (P : Pairing) (l : Nat) (h : l < P.twins.length) : Pairing where
  homes := P.homes ++ [l]
  twins := P.twins
  home_lt := by
    intro o ho
    rcases List.mem_append.mp ho with hold | hnew
    · exact P.home_lt o hold
    · rwa [List.mem_singleton.mp hnew]
  nodup := P.nodup

/-- Functions are made in scopes that are twins, and get the same identity. -/
theorem alike_makeFunction (parameters : List String) (body : List Stmt) (hl : P.twins[l]? = some l') :
    P.Alike Values (EvalM.makeFunction parameters body l) (EvalM.makeFunction parameters body l') := by
  intro st st' h
  have hlt : l < P.twins.length := (List.getElem?_eq_some_iff.mp hl).1
  have hgrows : P.Grows (P.addFunction l hlt) := ⟨List.prefix_append _ _, List.prefix_rfl⟩
  refine .ok hgrows ⟨?_, ?_, h.depth, h.output, h.size, ?_⟩ ⟨?_, ?_⟩
  · simp [addFunction, h.made]
  · simp [h.functionsMade]
  · intro m m' hm
    obtain ⟨s, s', hs, hs', hscopes⟩ := h.scope m m' hm
    exact ⟨s, s', hs, hs', hgrows.scopes hscopes⟩
  · show (P.homes ++ [l])[st.functionsMade]? = some l
    rw [← h.made]
    exact List.getElem?_concat_length
  · have hmove : (P.addFunction l hlt).move st.functionsMade l = l' := move_eq _ hl
    rw [Value.renumber, hmove, h.functionsMade]

/-! ## Calls -/

/-- The body of a function in scopes that stand for each other, with arguments that do so. -/
theorem alike_runBody {body body' : Nat → EvalM Value} (parameters : List String) (hvs : P.Lists vs vs')
    (hl : P.twins[l]? = some l')
    (hbody : ∀ P', P.Grows P' → ∀ i i', P'.twins[i]? = some i' → P'.Alike Values (body i) (body' i')) :
    P.Alike Values (EvalM.runBody body parameters vs l) (EvalM.runBodyKeeping body' parameters vs' l') := by
  intro st st' h
  obtain ⟨P₁, hP₁, hinner, hentered⟩ := h.enterCall parameters hvs hl
  have hresults := hbody P₁ hP₁ _ _ hinner _ _ hentered
  unfold EvalM.runBody EvalM.runBodyKeeping
  simp only
  generalize body st.scopes.size _ = r, body' st'.scopes.size _ = r' at hresults ⊢
  -- however the body ends, the call is left
  cases hresults with
  | ok hgrows hstates hv =>
      obtain ⟨P', hP', hleft, hvalues⟩ := hstates.leaveCall (hP₁.trans hgrows) h.made h.size
      exact .ok hP' hleft (hvalues _ _ hv)
  | «return» hgrows hstates hv =>
      obtain ⟨P', hP', hleft, hvalues⟩ := hstates.leaveCall (hP₁.trans hgrows) h.made h.size
      exact .ok hP' hleft (hvalues _ _ hv)
  | error hgrows hstates =>
      obtain ⟨P', hP', hleft, -⟩ := hstates.leaveCall (hP₁.trans hgrows) h.made h.size
      exact .error hP' hleft

/-- What calls do is the same for functions and arguments that stand for each other. -/
def Calls (call call' : Value → List Value → EvalM Value) : Prop :=
  ∀ (P : Pairing) f f' vs vs', P.Values f f' → P.Lists vs vs' → P.Alike Values (call f vs) (call' f' vs')

section

variable {call call' : Value → List Value → EvalM Value}

/-- A name stands for values that stand for each other. -/
theorem alike_loadName (name : String) (hl : P.twins[l]? = some l') :
    P.Alike Values (EvalM.loadName name l) (EvalM.loadName name l') := by
  intro st st' h
  unfold EvalM.loadName
  rw [EvalM.bind_apply, EvalM.bind_apply, EvalM.get_apply, EvalM.get_apply]
  simp only
  rcases h.lookup? name hl (Nat.lt_succ_self l) (Nat.lt_succ_self l') with ⟨hnone, hnone'⟩ |
    ⟨v, v', hsome, hsome', hv⟩
  · rw [hnone, hnone']
    cases Builtin.ofName? name with
    | some b => exact Alike.pure ⟨trivial, rfl⟩ st st' h
    | none => exact Alike.fail _ st st' h
  · rw [hsome, hsome']
    exact Alike.pure hv st st' h

/-- Prefix operators come to the same. -/
theorem alike_unary (operator : Operator) (hv : P.Values v v') :
    P.Alike Values (EvalM.unary operator v) (EvalM.unary operator v') := by
  rw [hv.eq]
  apply Alike.of_shifts (EvalM.unary_shifts operator v)
  have hpin := EvalM.unary_shifts (f := P.pin) operator v
  rwa [hv.pinned] at hpin

theorem alike_binary (operator : Operator) {l l' r r' : Value} (hl : P.Values l l') (hr : P.Values r r') :
    P.Alike Values (EvalM.binary operator l r) (EvalM.binary operator l' r') := by
  rw [hl.eq, hr.eq]
  apply Alike.of_shifts (EvalM.binary_shifts operator l r)
  have hpin := EvalM.binary_shifts (f := P.pin) operator l r
  rwa [hl.pinned, hr.pinned] at hpin

variable [StringHash]

theorem alike_element {c c' k k' : Value} (hc : P.Values c c') (hk : P.Values k k') :
    P.Alike Values (EvalM.element c k) (EvalM.element c' k') := by
  rw [hc.eq, hk.eq]
  apply Alike.of_shifts (EvalM.element_shifts c k)
  have hpin := EvalM.element_shifts (f := P.pin) c k
  rwa [hc.pinned, hk.pinned] at hpin

mutual

/-- Expressions come to the same in scopes that are twins. -/
theorem alike_evalExpr (hcall : Calls call call') : ∀ (e : Expr) (P : Pairing) (l l' : Nat),
    P.twins[l]? = some l' → P.Alike Values (evalExpr call l e) (evalExpr call' l' e)
  | .identifier name, P, l, l', hl => by
      unfold evalExpr
      exact alike_loadName name hl
  | .integer value, P, l, l', hl => by
      unfold evalExpr
      exact Alike.pure ⟨trivial, rfl⟩
  | .boolean value, P, l, l', hl => by
      unfold evalExpr
      exact Alike.pure ⟨trivial, rfl⟩
  | .string contents, P, l, l', hl => by
      unfold evalExpr
      exact Alike.pure ⟨trivial, rfl⟩
  | .array elements, P, l, l', hl => by
      unfold evalExpr
      apply Alike.bind (alike_evalExprs hcall elements P l l' hl [] [] (.nil P))
      intro P₁ _ vs vs' hvs
      exact Alike.pure hvs.array
  | .hash pairs, P, l, l', hl => by
      unfold evalExpr
      apply Alike.bind (alike_evalPairs hcall pairs P l l' hl [] [] (.nil P))
      intro P₁ _ es es' hes
      exact Alike.pure hes
  | .unary operator operand, P, l, l', hl => by
      unfold evalExpr
      apply Alike.bind (alike_evalExpr hcall operand P l l' hl)
      intro P₁ _ v v' hv
      exact alike_unary operator hv
  | .binary left operator right, P, l, l', hl => by
      unfold evalExpr
      apply Alike.bind (alike_evalExpr hcall left P l l' hl)
      intro P₁ hP₁ v v' hv
      apply Alike.bind (alike_evalExpr hcall right P₁ l l' (hP₁.twin hl))
      intro P₂ hP₂ w w' hw
      exact alike_binary operator (hP₂.values hv) hw
  | .if condition consequence none, P, l, l', hl => by
      unfold evalExpr
      apply Alike.bind (alike_evalExpr hcall condition P l l' hl)
      intro P₁ hP₁ v v' hv
      rw [hv.eq, Value.isTruthy_renumber]
      cases v.isTruthy with
      | true => exact alike_evalBlock hcall consequence P₁ l l' (hP₁.twin hl) _ _ (.null P₁)
      | false => exact Alike.pure (.null P₁)
  | .if condition consequence (some alternative), P, l, l', hl => by
      unfold evalExpr
      apply Alike.bind (alike_evalExpr hcall condition P l l' hl)
      intro P₁ hP₁ v v' hv
      rw [hv.eq, Value.isTruthy_renumber]
      cases v.isTruthy with
      | true => exact alike_evalBlock hcall consequence P₁ l l' (hP₁.twin hl) _ _ (.null P₁)
      | false => exact alike_evalBlock hcall alternative P₁ l l' (hP₁.twin hl) _ _ (.null P₁)
  | .function _ parameters body, P, l, l', hl => by
      unfold evalExpr
      exact alike_makeFunction parameters body hl
  | .call callee arguments, P, l, l', hl => by
      unfold evalExpr
      apply Alike.bind (alike_evalExpr hcall callee P l l' hl)
      intro P₁ hP₁ f f' hf
      apply Alike.bind (alike_evalExprs hcall arguments P₁ l l' (hP₁.twin hl) [] [] (.nil P₁))
      intro P₂ hP₂ vs vs' hvs
      exact hcall P₂ f f' vs vs' (hP₂.values hf) hvs
  | .index collection key, P, l, l', hl => by
      unfold evalExpr
      apply Alike.bind (alike_evalExpr hcall collection P l l' hl)
      intro P₁ hP₁ v v' hv
      apply Alike.bind (alike_evalExpr hcall key P₁ l l' (hP₁.twin hl))
      intro P₂ hP₂ k k' hk
      exact alike_element (hP₂.values hv) hk

theorem alike_evalExprs (hcall : Calls call call') : ∀ (es : List Expr) (P : Pairing) (l l' : Nat),
    P.twins[l]? = some l' → ∀ acc acc', P.Lists acc acc' →
      P.Alike Lists (evalExprs call l acc es) (evalExprs call' l' acc' es)
  | [], P, l, l', hl, acc, acc', hacc => by
      unfold evalExprs
      exact Alike.pure hacc.reverse
  | e :: es, P, l, l', hl, acc, acc', hacc => by
      unfold evalExprs
      apply Alike.bind (alike_evalExpr hcall e P l l' hl)
      intro P₁ hP₁ v v' hv
      exact alike_evalExprs hcall es P₁ l l' (hP₁.twin hl) _ _ (.cons hv (hP₁.lists hacc))

theorem alike_evalPairs (hcall : Calls call call') : ∀ (pairs : List (Expr × Expr)) (P : Pairing) (l l' : Nat),
    P.twins[l]? = some l' → ∀ es es', P.Hashes es es' →
      P.Alike Hashes (evalPairs call l es pairs) (evalPairs call' l' es' pairs)
  | [], P, l, l', hl, es, es', hes => by
      unfold evalPairs
      exact Alike.pure hes
  | (key, value) :: pairs, P, l, l', hl, es, es', hes => by
      unfold evalPairs
      apply Alike.bind (alike_evalExpr hcall key P l l' hl)
      intro P₁ hP₁ k k' hk
      have hkey : k'.key? = k.key? := by rw [hk.eq, Value.key?_renumber]
      have hkind : k'.kind = k.kind := by rw [hk.eq, Value.kind_renumber]
      rw [hkey, hkind]
      cases k.key? with
      | none => exact Alike.fail _
      | some hashKey =>
          apply Alike.bind (alike_evalExpr hcall value P₁ l l' (hP₁.twin hl))
          intro P₂ hP₂ v v' hv
          have hentries := Hashes.insert hashKey ((hP₁.trans hP₂).values hes) (hP₂.values hk) hv
          exact alike_evalPairs hcall pairs P₂ l l' ((hP₁.trans hP₂).twin hl) _ _ hentries

theorem alike_evalStmt (hcall : Calls call call') : ∀ (s : Stmt) (P : Pairing) (l l' : Nat),
    P.twins[l]? = some l' → P.Alike Values (evalStmt call l s) (evalStmt call' l' s)
  | .let name value, P, l, l', hl => by
      unfold evalStmt
      apply Alike.bind (alike_evalExpr hcall value P l l' hl)
      intro P₁ hP₁ v v' hv
      apply Alike.bind (alike_store name (hP₁.twin hl) hv)
      intro P₂ _ _ _ _
      exact Alike.pure (.null P₂)
  | .return none, P, l, l', hl => by
      unfold evalStmt
      exact Alike.throw (.null P)
  | .return (some value), P, l, l', hl => by
      unfold evalStmt
      apply Alike.bind (alike_evalExpr hcall value P l l' hl)
      intro P₁ _ v v' hv
      exact Alike.throw hv
  | .expr value, P, l, l', hl => by
      unfold evalStmt
      exact alike_evalExpr hcall value P l l' hl

theorem alike_evalBlock (hcall : Calls call call') : ∀ (ss : List Stmt) (P : Pairing) (l l' : Nat),
    P.twins[l]? = some l' → ∀ v v', P.Values v v' →
      P.Alike Values (evalBlock call l v ss) (evalBlock call' l' v' ss)
  | [], P, l, l', hl, v, v', hv => by
      unfold evalBlock
      exact Alike.pure hv
  | s :: ss, P, l, l', hl, v, v', _ => by
      unfold evalBlock
      apply Alike.bind (alike_evalStmt hcall s P l l' hl)
      intro P₁ hP₁ w w' hw
      exact alike_evalBlock hcall ss P₁ l l' (hP₁.twin hl) w w' hw

end

end

variable [StringHash]

/-- Built-in functions come to the same and print the same. -/
theorem alike_callBuiltin (n : Nat) (b : Builtin) (hvs : P.Lists vs vs') :
    P.Alike Values (callFunction (n + 1) (.builtin b) vs) (callFunction (n + 1) (.builtin b) vs') := by
  have hresult : P.Values (b.result vs) (b.result vs') := by
    rw [hvs.eq, Builtin.result_renumber]
    refine ⟨?_, rfl⟩
    apply Value.forFunctions_iff_renumber.mpr
    have hpin := b.result_renumber P.pin vs
    rw [hvs.pinned] at hpin
    exact hpin.symm
  intro st st' h
  unfold callFunction
  rw [EvalM.bind_apply, EvalM.bind_apply, EvalM.modify_apply, EvalM.modify_apply]
  have hprinted : P.States { st with output := b.print vs st.output }
      { st' with output := b.print vs' st'.output } := by
    refine ⟨h.made, h.functionsMade, h.depth, ?_, h.size, h.scope⟩
    rw [hvs.eq]
    exact Builtin.text_print_renumber b P.move vs h.output
  simp only
  obtain ⟨hmade, heq⟩ := hresult
  rw [heq]
  generalize b.result vs = v at hmade
  cases v with
  | error message => exact Alike.fail _ _ _ hprinted
  | _ => exact Alike.pure ⟨hmade, rfl⟩ _ _ hprinted

/-- **Calls** are alike, however deep they go. -/
theorem alike_callFunction : ∀ n : Nat, Calls (callFunction n) (EvalM.callKeeping n)
  | 0 => fun _ _ _ _ _ _ _ => Alike.fail _
  | n + 1 => by
      intro P f f' vs vs' hf hvs
      obtain ⟨hmade, rfl⟩ := hf
      cases f with
      | builtin b => exact alike_callBuiltin n b hvs
      | function identity parameters body scope =>
          -- the number of arguments and the depth are the same on both sides, and so are the errors
          obtain ⟨scope', htwin⟩ := exists_twin hmade
          have hlength : vs'.length = vs.length := by rw [hvs.eq, List.length_map]
          rw [Value.renumber, move_eq identity htwin]
          intro st st' h
          unfold callFunction EvalM.callKeeping
          by_cases harity : vs.length = parameters.length
          · by_cases hdepth : maxCallDepth ≤ st.depth
            · have hdepth' : maxCallDepth ≤ st'.depth := h.depth ▸ hdepth
              simp only [hlength, if_neg (not_not_intro harity), EvalM.bind_apply, EvalM.get_apply,
                if_pos hdepth, if_pos hdepth']
              exact .error (.refl P) h
            · have hdepth' : ¬maxCallDepth ≤ st'.depth := h.depth ▸ hdepth
              simp only [hlength, if_neg (not_not_intro harity), EvalM.bind_apply, EvalM.get_apply,
                if_neg hdepth, if_neg hdepth']
              apply alike_runBody parameters hvs htwin _ st st' h
              intro P' hP' i i' hi
              exact alike_evalBlock (alike_callFunction n) body P' i i' hi _ _ (.null P')
          · simp only [hlength, if_pos harity, EvalM.bind_apply]
            exact .error (.refl P) h
      | _ => exact Alike.fail _

end Pairing

/-! ## Whole programs -/

namespace Evaluator

/-- The values of some programs, each of which goes on with the state that the one before it leaves. -/
def evaluateAll (evaluate : Program → Evaluator → Value × Evaluator) :
    List Program → Evaluator → List Value × Evaluator
  | [], st => ([], st)
  | program :: programs, st =>
    let (v, st) := evaluate program st
    let (vs, st) := evaluateAll evaluate programs st
    (v :: vs, st)

end Evaluator

namespace Pairing

/-- The state before the first program stands for itself. -/
def initial : Pairing where
  homes := []
  twins := [0]
  home_lt := List.forall_mem_nil _
  nodup := List.nodup_singleton 0

theorem initial_states : initial.States {} {} := by
  refine ⟨rfl, rfl, rfl, rfl, rfl, ?_⟩
  intro l l' hl
  cases l with
  | zero =>
      obtain rfl : 0 = l' := Option.some.inj hl
      exact ⟨{}, {}, rfl, rfl, .nil _, .inl ⟨rfl, rfl⟩⟩
  | succ l => cases hl

variable {P : Pairing} {st st' : Evaluator}

/-- One program. -/
theorem States.evaluate [StringHash] (h : P.States st st') (hmain : P.twins[0]? = some 0) (program : Program) :
    ∃ P', P.Grows P' ∧ P'.States (Evaluator.evaluate program st).2 (Evaluator.evaluateKeeping program st').2 ∧
      P'.Values (Evaluator.evaluate program st).1 (Evaluator.evaluateKeeping program st').1 := by
  have hresults := alike_evalBlock (alike_callFunction (maxCallDepth + 1)) program P 0 0 hmain _ _ (.null P) st st' h
  unfold Evaluator.evaluate Evaluator.run Evaluator.evaluateKeeping
  generalize evalBlock (callFunction _) 0 .null program st = r,
    evalBlock (EvalM.callKeeping _) 0 .null program st' = r' at hresults ⊢
  cases hresults with
  | ok hgrows hstates hv => exact ⟨_, hgrows, hstates, hv⟩
  | «return» hgrows hstates hv => exact ⟨_, hgrows, hstates, hv⟩
  | error hgrows hstates => exact ⟨_, hgrows, hstates, trivial, rfl⟩

/-- **Releasing scopes** changes no value of a program, but for the numbers of scopes inside of it. -/
theorem States.evaluateAll [StringHash] (programs : List Program) (h : P.States st st') (hmain : P.twins[0]? = some 0) :
    ∃ P', P.Grows P' ∧
      P'.States (Evaluator.evaluateAll Evaluator.evaluate programs st).2
        (Evaluator.evaluateAll Evaluator.evaluateKeeping programs st').2 ∧
      P'.Lists (Evaluator.evaluateAll Evaluator.evaluate programs st).1
        (Evaluator.evaluateAll Evaluator.evaluateKeeping programs st').1 := by
  induction programs generalizing P st st' with
  | nil => exact ⟨P, .refl P, h, .nil P⟩
  | cons program programs ih =>
      obtain ⟨P₁, hP₁, hstates₁, hv⟩ := h.evaluate hmain program
      obtain ⟨P₂, hP₂, hstates₂, hvs⟩ := ih hstates₁ (hP₁.twin hmain)
      exact ⟨P₂, hP₁.trans hP₂, hstates₂, .cons (hP₂.values hv) hvs⟩

/-- Values that stand for each other are the same but for the numbers of scopes. -/
theorem Lists.map_erase {vs vs' : List Value} (h : P.Lists vs vs') :
    vs'.map Value.erase = vs.map Value.erase := by
  rw [h.eq, List.map_map]
  exact List.map_congr_left fun v _ => Value.erase_renumber

end Pairing

end ScriptLang
