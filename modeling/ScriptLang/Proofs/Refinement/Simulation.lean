import ScriptLang.Proofs.Refinement.Expressions

/-!
# Simulation

The machine follows the evaluator through every part of a program, or it runs out of stack
(`Evaluates.simulates`). The proof is by induction on the evaluation. The cases of expressions are in
`ScriptLang.Proofs.Refinement.Expressions`, those of statements and blocks are here.
-/

namespace ScriptLang

open Machine (Moves Works Returns)
open EvalM (enterCall leaveCall lookup?)
open Symbols (Knows Adds Found Clean)

section

variable {p : Plan} {P P₁ P₂ : Part} {scope : Nat} {st st₁ st₂ : Evaluator} {v : Value} {vs vs₁ : List Value}
  {o : Outcome}

/-! ## Parts with the same code -/

/-- A part of a part that has the same code and binds the same names. -/
structure Part.Same (P P₁ : Part) : Prop where
  binders : ∀ deep, P.binders deep = P₁.binders deep
  allowed : ∀ ordered, P.isAllowed ordered = true → P₁.isAllowed ordered = true
  named : P.isNamed none = true → P₁.isNamed none = true
  height : P.height = P₁.height
  emits : ∀ {c c' : Compiler} {offset : Nat} {is : Instructions}, Emits P c offset is c' →
    Emits P₁ c offset is c'

theorem Simulates.same [StringHash] (hP : P.Same P₁) (h : Simulates p P₁ scope st o st₁) :
    Simulates p P scope st o st₁ := by
  intro W agenda running c c' outer is m t happart hagree
  have t₁ := t.inner hP.binders (hP.allowed _) hP.named (hP.emits t.emits) t.holds
  rw [hP.binders, hP.height]
  exact h t₁ happart hagree

namespace Part

theorem same_stmts (s : Stmt) : Same (.stmts [s]) (.stmt s) where
  binders := fun _ => List.append_nil _
  allowed := fun _ h => (@isAllowed_split (.stmts [s]) (.stmt s) (.stmts []) rfl rfl _ h).1
  named := fun h => (Bool.and_eq_true_iff.mp h).1
  height := rfl
  emits := by
    intro c c' offset is h
    cases h with
    | stmts_cons h₁ h₂ =>
        cases h₂
        rw [List.append_nil]
        exact h₁

theorem same_branch (value : Expr) : Same (.branch [.expr value]) (.expr value) where
  binders := fun _ => List.append_nil _
  allowed := fun _ h => (@isAllowed_split (.branch [.expr value]) (.expr value) (.branch []) rfl rfl _ h).1
  named := fun h => (Bool.and_eq_true_iff.mp h).1
  height := rfl
  emits := by
    intro c c' offset is h
    cases h with
    | branch_value h => exact h
    | branch_cons hs => cases hs rfl

/-- A function whose last statement is a `return` needs no other one. -/
theorem same_body (value : Expr) : Same (.body [.return (some value)]) (.stmt (.return (some value))) where
  binders := fun _ => List.append_nil _
  allowed := fun _ h => (@isAllowed_split (.body [.return (some value)]) (.stmt (.return (some value)))
    (.body []) rfl rfl _ h).1
  named := fun h => (Bool.and_eq_true_iff.mp h).1
  height := rfl
  emits := by
    intro c c' offset is h
    cases h with
    | body_return h => exact .return_some h
    | body_cons hs => cases (hs rfl).2

/-- The value of the last expression of a function is returned. -/
theorem same_body_value (value : Expr) :
    Same (.body [.expr value]) (.stmt (.return (some value))) where
  binders := fun _ => List.append_nil _
  allowed := fun _ h => (@isAllowed_split (.body [.expr value]) (.stmt (.return (some value)))
    (.body []) rfl rfl _ h).1
  named := fun h => (Bool.and_eq_true_iff.mp h).1
  height := rfl
  emits := by
    intro c c' offset is h
    cases h with
    | body_value h => exact .return_some h
    | body_cons hs => cases (hs rfl).1

end Part

/-! ## Definitions -/

/-- The expression is no function literal. -/
theorem Expr.isNamed_of_ne_function {e : Expr}
    (he : ∀ name parameters body, e ≠ .function name parameters body) (given : Option String) :
    e.isNamed given = e.isNamed none := by
  cases e with
  | function name parameters body => exact absurd rfl (he name parameters body)
  | «if» condition consequence alternative => rw [Expr.isNamed_if, Expr.isNamed_if]
  | _ => rfl

section

variable {running : Option Birth} {outer : List Nat} {code : Code} {agenda : Agenda} {c c₁ c' : Compiler}
  {offset : Nat} {is js : Instructions} {name : String} {value : Expr}

/-- A `let` binds its name behind its value. -/
theorem Task.let_scoped
    (t : Task p running scope outer code (.stmt (.let name value)) agenda c offset is
      { c₁ with symbols := c₁.symbols.define name })
    (h : Emits (.expr value) c offset js c₁) :
    Scoped p running scope outer (value.binders false) (value.binders true) agenda c c₁ ∧
      Scoped p running scope outer [name] [name] (agenda.done scope (value.binders false)) c₁
        { c₁ with symbols := c₁.symbols.define name } := by
  have hunknown : Unknown (value.binders true ++ [name]) c.symbols := t.fresh.unknown
  have hfresh : ∀ x ∈ value.binders true, some name ≠ some x := by
    rintro x hx ⟨⟩
    exact (List.nodup_append.mp hunknown.nodup).2.2 name hx name (List.mem_singleton_self _) rfl
  have hsub := value.own_sublist.subset
  have hadds := h.adds t.sound hunknown.left (n := some name) t.named hfresh
  have hgiven := (hunknown.right hadds hsub).unknown name (List.mem_singleton_self _)
  obtain ⟨hsound, -⟩ := h.grows t.sound
  have hscoped : Scoped p running scope outer (value.binders false ++ [name]) (value.binders true ++ [name])
      agenda c { c₁ with symbols := c₁.symbols.define name } := t.toScoped
  have hgrows : c₁.Grows { c₁ with symbols := c₁.symbols.define name } :=
    ⟨Symbols.grows_define _ _, List.prefix_refl _⟩
  exact ⟨hscoped.left hsub (List.Subset.refl _) (.define hgiven) hgrows,
    hscoped.right hsub (List.Subset.refl _) hadds hsound⟩

end

variable [StringHash]

/-- A `let` binds the value of an expression that is no function literal. -/
theorem Simulates.let {name : String} {value : Expr}
    (hvalue : ∀ recorded parameters body, value ≠ .function recorded parameters body)
    (h : Simulates p (.expr value) scope st (.values [v]) st₁) :
    Simulates p (.stmt (.let name value)) scope st (.values []) (st₁.bind name v scope) := by
  intro W agenda running c c' outer is m t happart hagree
  obtain ⟨js, c₁, hemits, rfl, rfl⟩ := t.emits.of_let
  obtain ⟨hscoped, hgiven⟩ := t.let_scoped hemits
  have hnamed : value.isNamed none = true := (Expr.isNamed_of_ne_function hvalue _).symm.trans t.named
  have t₁ : Task p running scope outer m.code (.expr value) agenda c m.frame.ip js c₁ :=
    ⟨hscoped, hemits, t.holds.left, t.allowed, hnamed⟩
  rcases h t₁ happart hagree with hover | ⟨W₁, m₁, hcont⟩
  · exact .inl hover
  obtain ⟨m₂, hcont₂⟩ := hcont.define hgiven hagree.active.room t.holds.right
  rw [Nat.add_assoc] at hcont₂
  rw [Instructions.size_append, Instructions.size_cons, Instructions.size_nil, Nat.add_zero]
  exact .inr ⟨W₁, m₂, hcont₂.anti fun _ _ hx => Agenda.done_append.mp hx⟩

/-- A `let` binds a function, and the function knows the name. -/
theorem Simulates.let_function (hp : p.Valid) {name : String} {recorded : Option String}
    {parameters : List String} {body : List Stmt} :
    Simulates p (.stmt (.let name (.function recorded parameters body))) scope st (.values [])
      (({ st with functionsMade := st.functionsMade + 1 } : Evaluator).bind name
        (.function st.functionsMade parameters body scope) scope) := by
  intro W agenda running c c' outer is m t happart hagree
  obtain ⟨js, c₁, hemits, rfl, rfl⟩ := t.emits.of_let
  obtain ⟨hscoped, -⟩ := t.let_scoped hemits
  obtain ⟨ks, cb, hbody, hfits, rfl, rfl⟩ := hemits.of_function
  obtain ⟨hname, hnamed⟩ := Bool.and_eq_true_iff.mp t.named
  obtain rfl : recorded = some name := of_decide_eq_true hname
  have hbinder := List.mem_singleton_self name
  have hnodup : (parameters ++ Stmt.bindersAll true body ++ [name]).Nodup := t.fresh.unknown.nodup
  have hbuiltin := (t.fresh.clean name (List.mem_append_right _ hbinder)).1
  have l : Literal p running scope outer agenda c (some name) parameters body ks cb := by
    refine ⟨hscoped, hbody, hfits, ?_, ?_, t.allowed, hnamed⟩
    · rintro x hx ⟨⟩
      exact (List.nodup_append.mp hnodup).2.2 name (List.mem_append_right _ hx) name hbinder rfl
    · rintro x ⟨⟩
      exact hbuiltin
  rcases hagree.let_function hp l t.toScoped happart t.holds with hover | ⟨W₁, m₁, hcont⟩
  · exact .inl hover
  · exact .inr ⟨W₁, m₁, hcont⟩

theorem Simulates.let_return {name : String} {value : Expr}
    (hvalue : ∀ recorded parameters body, value ≠ .function recorded parameters body)
    (h : Simulates p (.expr value) scope st (.returned v) st₁) :
    Simulates p (.stmt (.let name value)) scope st (.returned v) st₁ := by
  intro W agenda running c c' outer is m t happart hagree
  obtain ⟨js, c₁, hemits, rfl, rfl⟩ := t.emits.of_let
  obtain ⟨hscoped, -⟩ := t.let_scoped hemits
  have hnamed : value.isNamed none = true := (Expr.isNamed_of_ne_function hvalue _).symm.trans t.named
  have t₁ : Task p running scope outer m.code (.expr value) agenda c m.frame.ip js c₁ :=
    ⟨hscoped, hemits, t.holds.left, t.allowed, hnamed⟩
  rcases h t₁ happart hagree with hover | ⟨W₁, m₁, hleaves⟩
  · exact .inl hover
  · exact .inr ⟨W₁, m₁, hleaves.anti fun l x hx hne => Agenda.done_of_ne hx.1 hne⟩

/-! ## Other statements -/

theorem Simulates.return_none : Simulates p (.stmt (.return none)) scope st (.returned .null) st := by
  intro W agenda running c c' outer is m t happart hagree
  have hemits := t.emits
  cases hemits
  have hrefl := Continues.refl hagree
  exact .inr ⟨W, hrefl.return hagree.active.room t.holds fun _ _ hx _ => hx.1⟩

/-- A function without a value returns `null`. -/
theorem Simulates.body_nil : Simulates p (.body []) scope st (.returned .null) st := by
  intro W agenda running c c' outer is m t happart hagree
  have hemits := t.emits
  cases hemits
  have hrefl := Continues.refl hagree
  exact .inr ⟨W, hrefl.return hagree.active.room t.holds fun _ _ hx _ => hx.1⟩

theorem Simulates.return_some {value : Expr}
    (h : Simulates p (.expr value) scope st (.values [v]) st₁) :
    Simulates p (.stmt (.return (some value))) scope st (.returned v) st₁ := by
  intro W agenda running c c' outer is m t happart hagree
  have hemits := t.emits
  cases hemits with
  | return_some hemits =>
    have t₁ : Task p running scope outer m.code (.expr value) agenda c m.frame.ip _ c' :=
      t.inner (fun _ => rfl) id id hemits t.holds.left
    rcases h t₁ happart hagree with hover | ⟨W₁, m₁, hcont⟩
    · exact .inl hover
    · obtain ⟨m₂, hleaves⟩ := hcont.returnValue hagree.active.room t.holds.right fun _ _ hx _ => hx
      exact .inr ⟨W₁, m₂, hleaves⟩

theorem Simulates.return_return {value : Expr}
    (h : Simulates p (.expr value) scope st (.returned v) st₁) :
    Simulates p (.stmt (.return (some value))) scope st (.returned v) st₁ := by
  intro W agenda running c c' outer is m t happart hagree
  have hemits := t.emits
  cases hemits with
  | return_some hemits =>
    have t₁ : Task p running scope outer m.code (.expr value) agenda c m.frame.ip _ c' :=
      t.inner (fun _ => rfl) id id hemits t.holds.left
    exact h t₁ happart hagree

/-- The value of an expression statement stays above the top of the stack. -/
theorem Simulates.expr {value : Expr} (h : Simulates p (.expr value) scope st o st₁)
    (ho : o.HasLength 1) :
    Simulates p (.stmt (.expr value)) scope st o st₁ := by
  intro W agenda running c c' outer is m t happart hagree
  have hemits := t.emits
  cases hemits with
  | expr hemits =>
    have t₁ : Task p running scope outer m.code (.expr value) agenda c m.frame.ip _ c' :=
      t.inner (fun _ => rfl) id id hemits t.holds.left
    rcases h t₁ happart hagree with hover | hfollows
    · exact .inl hover
    cases o with
    | returned w => exact .inr hfollows
    | values vs =>
        obtain ⟨W₁, m₁, hcont⟩ := hfollows
        obtain ⟨v, rfl⟩ := List.length_eq_one_iff.mp ho
        obtain ⟨m₂, hcont₂⟩ := hcont.pop t₁.bounded hagree.active.room t.holds.right
        rw [Nat.add_assoc] at hcont₂
        rw [Instructions.size_append, Instructions.size_cons, Instructions.size_nil, Nat.add_zero]
        exact .inr ⟨W₁, m₂, hcont₂⟩

theorem Simulates.stmts_nil : Simulates p (.stmts []) scope st (.values []) st := by
  intro W agenda running c c' outer is m t happart hagree
  have hemits := t.emits
  cases hemits
  exact .inr ⟨W, m, (Continues.refl hagree).anti fun _ _ => Agenda.done_le⟩

theorem Simulates.exprs_nil : Simulates p (.exprs []) scope st (.values []) st := by
  intro W agenda running c c' outer is m t happart hagree
  have hemits := t.emits
  cases hemits
  exact .inr ⟨W, m, (Continues.refl hagree).anti fun _ _ => Agenda.done_le⟩

/-- A branch without a value has the value `null`. -/
theorem Simulates.branch_nil : Simulates p (.branch []) scope st (.values [.null]) st := by
  intro W agenda running c c' outer is m t happart hagree
  have hemits := t.emits
  cases hemits
  rcases hagree.push t.bounded t.holds rfl rfl .null Opcode.noConfusion rfl with hover | ⟨m₁, hcont⟩
  · exact .inl hover
  · exact .inr ⟨W, m₁, hcont⟩

/-! ## Evaluations -/

/-- Whether a part has values. -/
def Part.isValued : Part → Bool
  | .expr _ | .exprs _ | .branch _ => true
  | _ => false

/-- A part that is evaluated to its end has as many values as its code puts on the stack. -/
theorem Evaluates.hasLength (h : Evaluates P scope st o st₁) (hP : P.isValued = true) :
    o.HasLength P.height := by
  induction h with
  | exprs_cons _ _ _ ih => exact congrArg (· + 1) (ih rfl)
  | if_true _ _ _ _ ih => exact ih rfl
  | if_false _ _ _ _ ih => exact ih rfl
  | branch_value _ ih => exact ih rfl
  | branch_cons _ _ _ _ ih => exact ih rfl
  | «let» => cases hP
  | expr => cases hP
  | stmts_nil => cases hP
  | stmts_last => cases hP
  | stmts_cons => cases hP
  | body_cons => cases hP
  | _ => first | exact rfl | exact trivial

/-- In between two evaluations the scope is still there, and the functions made are counted. -/
theorem Evaluates.between {o₁ : Outcome} (h₁ : Evaluates P₁ scope st o₁ st₁)
    (h₂ : Evaluates P₂ scope st₁ o st₂) (hscope : scope < st.scopes.size) :
    scope < st₁.scopes.size ∧ st₁.functionsMade ≤ st₂.functionsMade := by
  have hscope₁ := Nat.lt_of_lt_of_le hscope (h₁.frame hscope).size
  exact ⟨hscope₁, (h₂.frame hscope₁).functionsMade⟩

/-- **The machine follows the evaluator**: it executes the code of a part as the part is evaluated, or it
runs out of stack. -/
theorem Evaluates.simulates (hp : p.Valid) (h : Evaluates P scope st o st₁)
    (hscope : scope < st.scopes.size) : Simulates p P scope st o st₁ := by
  induction h with
  | bound hvalue => exact Simulates.identifier hp (.inl hvalue)
  | builtin hnone hb => exact Simulates.identifier hp (.inr ⟨hnone, _, hb, rfl⟩)
  | constant he => exact Simulates.constant he
  | boolean => exact Simulates.boolean
  | function => exact Simulates.function hp
  | operation hes h hv ih => exact Simulates.operation hes (ih hscope) hv (h.hasLength rfl)
  | operation_return hes _ ih => exact Simulates.operation_return hes (ih hscope)
  | less h₁ h₂ ih₁ ih₂ =>
      obtain ⟨hscope₁, -⟩ := h₁.between h₂ hscope
      exact Simulates.less h₁ h₂ (ih₁ hscope) (ih₂ hscope₁)
  | less_left h _ => exact Simulates.less_return h (.inl rfl)
  | less_right _ h _ _ => exact Simulates.less_return h (.inr rfl)
  | call_builtin h hok ih => exact Simulates.call_builtin (ih hscope) (Nat.succ.inj (h.hasLength rfl)) hok
  | call_function h hparameters hdepth hbody ih₁ ih₂ =>
      have hlength := Nat.succ.inj (h.hasLength rfl)
      exact Simulates.call_function (ih₁ hscope) hlength hparameters hdepth
        (ih₂ (Evaluator.Frame.lt_size_enterCall ..))
        (hbody.frame (Evaluator.Frame.lt_size_enterCall ..))
  | if_true h₁ hv h₂ ih₁ ih₂ =>
      obtain ⟨hscope₁, hle⟩ := h₁.between h₂ hscope
      exact Simulates.if_true (ih₁ hscope) hv (ih₂ hscope₁) hle (h₂.hasLength rfl)
  | if_false h₁ hv h₂ ih₁ ih₂ =>
      obtain ⟨hscope₁, hle⟩ := h₁.between h₂ hscope
      exact Simulates.if_false (ih₁ hscope) hv (ih₂ hscope₁) hle
  | if_return _ ih => exact Simulates.if_return (ih hscope)
  | exprs_nil => exact Simulates.exprs_nil
  | exprs_cons h₁ h₂ ih₁ ih₂ =>
      obtain ⟨hscope₁, hle⟩ := h₁.between h₂ hscope
      exact Simulates.exprs_cons (ih₁ hscope) (ih₂ hscope₁) hle
  | exprs_head _ ih => exact Simulates.first_returns (Part.sequence_exprs _ _) (ih hscope)
  | exprs_tail h₁ h₂ ih₁ ih₂ =>
      obtain ⟨hscope₁, hle⟩ := h₁.between h₂ hscope
      exact Simulates.exprs_tail (ih₁ hscope) (ih₂ hscope₁) hle
  | @«let» scope st st₁ name value v h ih =>
      by_cases hvalue : ∃ recorded parameters body, value = .function recorded parameters body
      · obtain ⟨recorded, parameters, body, rfl⟩ := hvalue
        cases h with
        | function => exact Simulates.let_function hp
        | constant hv => cases hv
        | operation hes => cases hes
      · exact Simulates.let (fun recorded parameters body heq => hvalue ⟨recorded, parameters, body, heq⟩)
          (ih hscope)
  | let_return h ih =>
      refine Simulates.let_return ?_ (ih hscope)
      rintro recorded parameters body rfl
      cases h with
      | operation_return hes => cases hes
  | return_none => exact Simulates.return_none
  | return_some _ ih => exact Simulates.return_some (ih hscope)
  | return_return _ ih => exact Simulates.return_return (ih hscope)
  | expr h ih => exact Simulates.expr (ih hscope) (h.hasLength rfl)
  | stmts_nil => exact Simulates.stmts_nil
  | stmts_last _ ih => exact Simulates.same (Part.same_stmts _) (ih hscope)
  | stmts_cons _ h₁ h₂ ih₁ ih₂ =>
      obtain ⟨hscope₁, hle⟩ := h₁.between h₂ hscope
      exact Simulates.after (Part.sequence_stmts _ _) rfl rfl (ih₁ hscope) (ih₂ hscope₁) hle
  | stmts_return _ ih => exact Simulates.first_returns (Part.sequence_stmts _ _) (ih hscope)
  | branch_nil => exact Simulates.branch_nil
  | branch_value _ ih => exact Simulates.same (Part.same_branch _) (ih hscope)
  | branch_cons hs h₁ h₂ ih₁ ih₂ =>
      obtain ⟨hscope₁, hle⟩ := h₁.between h₂ hscope
      exact Simulates.after (Part.sequence_branch hs) rfl rfl (ih₁ hscope) (ih₂ hscope₁) hle
  | branch_return hs _ ih => exact Simulates.first_returns (Part.sequence_branch hs) (ih hscope)
  | body_nil => exact Simulates.body_nil
  | body_value _ ih => exact Simulates.same (Part.same_body_value _) (Simulates.return_some (ih hscope))
  | body_value_return _ ih =>
      exact Simulates.same (Part.same_body_value _) (Simulates.return_return (ih hscope))
  | body_cons hs h₁ h₂ ih₁ ih₂ =>
      obtain ⟨hscope₁, hle⟩ := h₁.between h₂ hscope
      exact Simulates.after (Part.sequence_body hs) rfl rfl (ih₁ hscope) (ih₂ hscope₁) hle
  | @body_return scope st st₁ s ss v hs _ ih =>
      by_cases hlast : ss = [] ∧ s.returnsValue = true
      · obtain ⟨rfl, hreturns⟩ := hlast
        cases s with
        | «return» value =>
            cases value with
            | some value => exact Simulates.same (Part.same_body value) (ih hscope)
            | none => cases hreturns
        | _ => cases hreturns
      · refine Simulates.first_returns (Part.sequence_body fun hnil => ⟨hs hnil, ?_⟩) (ih hscope)
        exact Bool.eq_false_iff.mpr fun hreturns => hlast ⟨hnil, hreturns⟩

end

end ScriptLang
