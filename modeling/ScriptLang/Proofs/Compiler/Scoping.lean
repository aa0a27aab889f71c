import ScriptLang.Proofs.Compiler.Definitions
import ScriptLang.Proofs.Compiler.Uses
import ScriptLang.Proofs.Compiler.WellFormed
import ScriptLang.Proofs.Syntax.Grammar

/-!
# Which programs compile

Apart from operands that are too large, nothing but the text of a program and the names that are there before
it decides whether it compiles. `Stmt.areScoped` says when it does: walked in the order of compilation, each
name is in scope where it is used, each operator can stand where it stands, and no operator has two literals
as operands that it never accepts.

`CompileM.Decides own good x` is the link between the two. In tables that know the names of a scope and no
others, the step `x` succeeds exactly if the test `good` of that scope does, and then it has bound the names
`own`.

Main statement: `Compiler.Reachable.compile_isOk_iff`.
-/

namespace ScriptLang

/-! ## Well-scoped programs -/

/-- Which names are in scope. -/
abbrev NameScope := String → Bool

/-- Some more names come into scope. -/
def NameScope.adding (scope : NameScope) (names : List String) : NameScope :=
  fun name => names.contains name || scope name

/-- A name is in scope because it was added or because it was there before. -/
theorem NameScope.adding_eq_true {scope : NameScope} {names : List String} {name : String} :
    scope.adding names name = true ↔ name ∈ names ∨ scope name = true := by
  simp [adding]

@[simp] theorem NameScope.adding_nil (scope : NameScope) : scope.adding [] = scope := rfl

/-- Whether an operator between two operands accepts values of two kinds. -/
def Operator.suits : Operator → Kind → Kind → Bool
  | .equal, _, _ | .notEqual, _, _ => true
  | .plus, .string, .string => true
  | _, .integer, .integer => true
  | _, _, _ => false

/-- Whether an operator may have two operands. Only if both are literals, their kinds are known. -/
def Operator.takes (operator : Operator) (left right : Expr) : Bool :=
  match left.literalKind?, right.literalKind? with
  | some l, some r => operator.suits l r
  | _, _ => true

mutual

/-- Whether an expression is well scoped where some names are in scope. The right operand of `<` comes
before the left one, and what the one binds is in scope in the other. A function literal sees its own name
and its parameters; what its body binds is not seen outside. -/
def Expr.isScoped (scope : NameScope) : Expr → Bool
  | .identifier name => scope name
  | .integer _ | .boolean _ | .string _ => true
  | .array elements => Expr.areScoped scope elements
  | .hash pairs => Expr.arePairsScoped scope pairs
  | .unary operator operand => operator.isUnary && operand.isScoped scope
  | .binary left operator right =>
    operator.isBinary && operator.takes left right &&
      if operator = .lessThan then
        right.isScoped scope && left.isScoped (scope.adding (right.binders false))
      else
        left.isScoped scope && right.isScoped (scope.adding (left.binders false))
  | .if condition consequence none =>
    condition.isScoped scope && Stmt.areScoped (scope.adding (condition.binders false)) consequence
  | .if condition consequence (some alternative) =>
    condition.isScoped scope &&
      (Stmt.areScoped (scope.adding (condition.binders false)) consequence &&
        Stmt.areScoped ((scope.adding (condition.binders false)).adding
          (Stmt.bindersAll false consequence)) alternative)
  | .function name parameters body => Stmt.areScoped (scope.adding (name.toList ++ parameters)) body
  | .call callee arguments =>
    callee.isScoped scope && Expr.areScoped (scope.adding (callee.binders false)) arguments
  | .index collection key =>
    collection.isScoped scope && key.isScoped (scope.adding (collection.binders false))

/-- Whether some expressions, one after the other, are well scoped. -/
def Expr.areScoped (scope : NameScope) : List Expr → Bool
  | [] => true
  | e :: es => e.isScoped scope && Expr.areScoped (scope.adding (e.binders false)) es

/-- Whether the keys and values of a hash literal, one after the other, are well scoped. -/
def Expr.arePairsScoped (scope : NameScope) : List (Expr × Expr) → Bool
  | [] => true
  | (key, value) :: pairs =>
    key.isScoped scope && (value.isScoped (scope.adding (key.binders false)) &&
      Expr.arePairsScoped ((scope.adding (key.binders false)).adding (value.binders false)) pairs)

/-- Whether a statement is well scoped. A `let` does not see its own name. -/
def Stmt.isScoped (scope : NameScope) : Stmt → Bool
  | .let _ value => value.isScoped scope
  | .return none => true
  | .return (some value) | .expr value => value.isScoped scope

/-- Whether some statements, one after the other, are well scoped. -/
def Stmt.areScoped (scope : NameScope) : List Stmt → Bool
  | [] => true
  | s :: ss => s.isScoped scope && Stmt.areScoped (scope.adding (s.binders false)) ss

end

/-- A conditional expression without an alternative is one whose alternative is empty. -/
theorem Expr.isScoped_if (scope : NameScope) (condition : Expr) (consequence : List Stmt)
    (alternative : Option (List Stmt)) :
    (Expr.if condition consequence alternative).isScoped scope =
      (condition.isScoped scope && (Stmt.areScoped (scope.adding (condition.binders false)) consequence &&
        Stmt.areScoped ((scope.adding (condition.binders false)).adding
          (Stmt.bindersAll false consequence)) (alternative.getD []))) := by
  cases alternative with
  | none => exact congrArg _ (Bool.and_true _).symm
  | some alternative => rfl

/-! ## The names that tables know

The scope of a program is a set of names, while tables bind names to places in a chain. What connects the two
is which names are known at all: `Has` compares them at one moment, and `Binds` says how they change along a
step. -/

namespace Symbols

/-- The tables know the names of a scope and no others. -/
structure Has (s : Symbols) (scope : NameScope) : Prop where
  coherent : s.Coherent
  knows : ∀ name, Knows s.tables name ↔ scope name = true

/-- Two chains of tables of one length know the same names, and so do the rests of them. -/
inductive SameNames : List SymbolTable → List SymbolTable → Prop where
  | nil : SameNames [] []
  | cons {t t' : SymbolTable} {ts ts' : List SymbolTable} :
      (∀ name, Knows (t' :: ts') name ↔ Knows (t :: ts) name) → SameNames ts ts' →
      SameNames (t :: ts) (t' :: ts')

/-- Between two states of the tables, the names `own` were bound in the function at hand. The tables around it
may have captured names that they knew. -/
structure Binds (s : Symbols) (own : List String) (s' : Symbols) : Prop where
  coherent : s'.Coherent
  knows : ∀ name, Knows s'.tables name ↔ name ∈ own ∨ Knows s.tables name
  outer : SameNames s.outer s'.outer

variable {s s₁ s₂ : Symbols} {own own₁ own₂ : List String} {scope : NameScope} {name : String}

theorem SameNames.refl : ∀ ts : List SymbolTable, SameNames ts ts
  | [] => .nil
  | _ :: ts => .cons (fun _ => Iff.rfl) (.refl ts)

theorem SameNames.trans {ts₁ ts₂ ts₃ : List SymbolTable} (h₁ : SameNames ts₁ ts₂)
    (h₂ : SameNames ts₂ ts₃) : SameNames ts₁ ts₃ := by
  induction h₁ generalizing ts₃ with
  | nil => exact h₂
  | cons hknows _ ih =>
      cases h₂ with
      | cons hknows' hrest => exact .cons (fun name => (hknows' name).trans (hknows name)) (ih hrest)

/-- Chains of the same names know the same names. -/
theorem SameNames.knows {ts ts' : List SymbolTable} (h : SameNames ts ts') (name : String) :
    Knows ts' name ↔ Knows ts name := by
  cases h with
  | nil => exact Iff.rfl
  | cons hknows _ => exact hknows name

namespace Binds

theorem refl (h : s.Coherent) : s.Binds [] s := ⟨h, by simp, .refl _⟩

/-- Two steps bind the names of both. -/
theorem trans (h₁ : s.Binds own₁ s₁) (h₂ : s₁.Binds own₂ s₂) : s.Binds (own₁ ++ own₂) s₂ where
  coherent := h₂.coherent
  knows := fun name => by rw [h₂.knows, h₁.knows, List.mem_append, or_left_comm, or_assoc]
  outer := h₁.outer.trans h₂.outer

theorem congr (h : s.Binds own₁ s₁) (hown : ∀ name, name ∈ own₂ ↔ name ∈ own₁) : s.Binds own₂ s₁ :=
  ⟨h.coherent, fun name => by rw [h.knows, hown], h.outer⟩

theorem has (h : s.Binds own s₁) (hs : s.Has scope) : s₁.Has (scope.adding own) :=
  ⟨h.coherent, fun name => by rw [h.knows, hs.knows, NameScope.adding_eq_true]⟩

/-- A definition binds one name in the innermost table. -/
theorem define (h : s.Coherent) (name : String) : s.Binds [name] (s.define name) where
  coherent := h.define name
  knows := by
    intro other
    rw [tables, tables, knows_cons, knows_cons, List.mem_singleton]
    by_cases hother : other = name
    · subst hother
      have hself : (s.define other).inner.bindings.get? other = some (s.definedSymbol other) :=
        Bindings.get?_insert_self _ _ _
      simp [hself]
    · have hkept : (s.define name).inner.bindings.get? other = s.inner.bindings.get? other :=
        Bindings.get?_insert_of_ne hother _ _
      rw [hkept, or_iff_right hother]
      exact Iff.rfl
  outer := .refl _

/-- The tables behind a function. -/
theorem leave {name : Option String} {parameters : List String} {t : SymbolTable} {ts : List SymbolTable}
    (h : (s.openFunction name parameters).Binds own s₁) (houter : s₁.outer = t :: ts) :
    s.Binds [] ⟨t, ts⟩ := by
  obtain ⟨t₁, ts₁⟩ := s₁
  cases houter
  have hsame := h.outer
  rw [openFunction_outer] at hsame
  cases hsame with
  | cons hknows hrest => exact ⟨h.coherent.leave rfl, fun name => by simp [hknows name, tables], hrest⟩

end Binds

/-! ### Looking names up -/

/-- Tables that have captured a name know it before, as a table around them stores it. -/
theorem SameNames.of_gains {t : SymbolTable} {found : Symbol} (hget : t.bindings.get? name = some found)
    {within within' around : List SymbolTable}
    (h : List.Forall₂ (SymbolTable.Gains name) within within') :
    SameNames (within ++ t :: around) (within' ++ t :: around) := by
  induction h with
  | nil => exact .refl _
  | @cons u u' within within' hgains _ ih =>
      refine .cons (fun other => ?_) ih
      rw [knows_cons, knows_cons]
      by_cases hother : other = name
      · subst hother
        have hbefore : Knows (within ++ t :: around) other :=
          ⟨t, List.mem_append_right _ List.mem_cons_self, found, hget⟩
        simp [hgains.stored, hbefore]
      · rw [hgains.others other hother]
        exact or_congr_right (ih.knows other)

/-- Looking a name up binds none. -/
theorem Binds.resolve (h : s.Coherent) {symbol : Symbol} (hresolve : s.resolve? name = some (symbol, s₁)) :
    s.Binds [] s₁ := by
  have hcoherent : s₁.Coherent := (Coherent.resolves (resolve?_eq_some.mp hresolve) h).1
  suffices hsame : SameNames s.tables s₁.tables by
    rw [tables, tables] at hsame
    cases hsame with
    | cons hknows hrest => exact ⟨hcoherent, fun name => by simp [tables, hknows name], hrest⟩
  have hstored : ¬ ∀ t ∈ s.tables, t.bindings.get? name = none := by
    rw [← resolve?_eq_none, hresolve]
    exact Option.some_ne_none _
  obtain ⟨within, t, around, found, heq, hnone, hget⟩ := exists_innermost hstored
  have hlexical := h.lexical name
  by_cases hdirect : within = [] ∨ found.place = .global ∨ found.place = .builtin
  · have hfound := hlexical.direct within t around found heq hnone hget hdirect
    rw [hresolve] at hfound
    cases hfound
    exact .refl _
  · simp only [not_or] at hdirect
    obtain ⟨hwithin, hglobal, hbuiltin⟩ := hdirect
    obtain ⟨symbol', s', within', hresolve', -, heq', hgains, -⟩ :=
      hlexical.captured within t around found heq hnone hget hwithin hglobal hbuiltin
    rw [hresolve] at hresolve'
    cases hresolve'
    rw [heq, heq']
    exact .of_gains hget hgains

/-- **A name is not found exactly if it is not in scope.** -/
theorem Has.resolve?_eq_none (h : s.Has scope) : s.resolve? name = none ↔ scope name = false := by
  rw [Symbols.resolve?_eq_none, ← Bool.not_eq_true, ← h.knows]
  simp only [Knows, not_exists, not_and, Option.eq_none_iff_forall_ne_some]

/-! ### Functions -/

/-- Inside a function its own name and its parameters are in scope as well. -/
theorem Has.openFunction (h : s.Has scope) (name : Option String) (parameters : List String) :
    (s.openFunction name parameters).Has (scope.adding (name.toList ++ parameters)) where
  coherent := by
    rw [openFunction_eq]
    have hnamed : (s.enterNamed name).Coherent := by
      cases name with
      | none => exact h.coherent.enter
      | some name => exact h.coherent.enter.apply (.defineFunctionName name)
    generalize s.enterNamed name = opened at hnamed
    induction parameters generalizing opened with
    | nil => exact hnamed
    | cons parameter parameters ih => exact ih _ (hnamed.define parameter)
  knows := by
    intro other
    have htracks := s.tracks_openFunction name parameters other
    rw [openFunction_captures, List.map_nil, or_iff_left List.not_mem_nil] at htracks
    rw [tables, knows_cons, ← Option.isSome_iff_exists, htracks, openFunction_outer,
      NameScope.adding_eq_true, ← h.knows]
    rfl

end Symbols

/-! ## Steps of a compilation

A step that binds no name and goes wrong nowhere is `Neutral`; most of those that write code are, since
operands that are too large are left out of account. The other steps are `loadName`, which fails if a name is
not in scope, `store`, which binds one, and the tests of operators. -/

/-- Whether an operand of an instruction is too large. -/
def CompileError.isOverflow : CompileError → Bool
  | .operandOverflow .. => true
  | _ => false

/-- What comes of a step that can go wrong only where `good` is false, if all operands fit. -/
def Assembly.Decided {α : Type} (a : Assembly) (own : List String) (good : Bool) :
    EStateM.Result CompileError Assembly α → Prop
  | .ok _ a' => good = true ∧ a.symbols.Binds own a'.symbols
  | .error e _ => e.isOverflow = true ∨ good = false

/-- What comes of a step that starts where another one has ended. -/
theorem Assembly.Decided.of_binds {α : Type} {a a₁ : Assembly} {own₁ own₂ : List String} {good : Bool}
    {r : EStateM.Result CompileError Assembly α} (h : a₁.Decided own₂ good r)
    (hbinds : a.symbols.Binds own₁ a₁.symbols) : a.Decided (own₁ ++ own₂) good r := by
  cases r with
  | ok v a₂ => exact ⟨h.1, hbinds.trans h.2⟩
  | error e a₂ => exact h

namespace CompileM

variable {α β : Type} {own own₁ own₂ : List String} {good good₁ good₂ : NameScope → Bool}

/-- Where some names are in scope and no others, a step succeeds exactly if `good` holds of them, and it binds
the names `own`. -/
def Decides (own : List String) (good : NameScope → Bool) (x : CompileM α) : Prop :=
  ∀ (scope : NameScope) (a : Assembly), a.symbols.Has scope → a.Decided own (good scope) (x a)

/-- A step that binds no name and goes wrong nowhere. -/
abbrev Neutral (x : CompileM α) : Prop := Decides [] (fun _ => true) x

theorem Decides.congr {x : CompileM α} (h : Decides own₁ good₁ x)
    (hown : ∀ name, name ∈ own₂ ↔ name ∈ own₁) (hgood : ∀ scope, good₂ scope = good₁ scope) :
    Decides own₂ good₂ x := by
  intro scope a ha
  have hx := h scope a ha
  rw [hgood]
  cases hr : x a with
  | ok v a' =>
      rw [hr] at hx
      exact ⟨hx.1, hx.2.congr hown⟩
  | error e a' =>
      rw [hr] at hx
      exact hx

/-- The second step is decided in the scope that the names of the first one have come into. -/
theorem Decides.bind {x : CompileM α} {f : α → CompileM β} (hx : Decides own₁ good₁ x)
    (hf : ∀ v, Decides own₂ good₂ (f v)) :
    Decides (own₁ ++ own₂) (fun scope => good₁ scope && good₂ (scope.adding own₁)) (x >>= f) := by
  intro scope a ha
  have hfirst := hx scope a ha
  show a.Decided _ (good₁ scope && good₂ (scope.adding own₁)) _
  rw [bind_apply]
  cases hr : x a with
  | error e a₁ =>
      rw [hr] at hfirst
      exact hfirst.imp_right fun hbad => by rw [hbad, Bool.false_and]
  | ok v a₁ =>
      rw [hr] at hfirst
      obtain ⟨hgood, hbinds⟩ := hfirst
      have hsecond := hf v (scope.adding own₁) a₁ (hbinds.has ha)
      show a.Decided _ (good₁ scope && good₂ (scope.adding own₁)) (f v a₁)
      rw [hgood, Bool.true_and]
      exact hsecond.of_binds hbinds

/-- Before a step that is neutral. -/
theorem Decides.then {x : CompileM α} {f : α → CompileM β} (hx : Decides own good x)
    (hf : ∀ v, Neutral (f v)) : Decides own good (x >>= f) :=
  (hx.bind hf).congr (by simp) (by simp)

/-- Behind a step that is neutral. -/
theorem Neutral.before {x : CompileM α} {f : α → CompileM β} (hx : Neutral x)
    (hf : ∀ v, Decides own good (f v)) : Decides own good (x >>= f) :=
  (hx.bind hf).congr (by simp) (by simp)

theorem neutral_pure (v : α) : Neutral (pure v : CompileM α) := fun _ _ ha => ⟨rfl, .refl ha.coherent⟩

theorem neutral_get : Neutral (get : CompileM Assembly) := fun _ _ ha => ⟨rfl, .refl ha.coherent⟩

/-- A change of the state that leaves the tables alone. -/
theorem neutral_modify {f : Assembly → Assembly} (h : ∀ a : Assembly, (f a).symbols = a.symbols) :
    Neutral (modify f : CompileM Unit) := by
  intro scope a ha
  refine ⟨rfl, ?_⟩
  rw [h a]
  exact .refl ha.coherent

/-! ### Writing code -/

theorem neutral_checkOperands (i : Instruction) : Neutral (checkOperands i) := by
  unfold checkOperands
  cases i.overflow? with
  | none => exact neutral_pure ()
  | some p => exact fun _ _ _ => .inl rfl

theorem neutral_emit (i : Instruction) : Neutral (emit i) :=
  (neutral_checkOperands i).then fun _ => neutral_modify fun _ => rfl

theorem neutral_patch (position : Nat) (i : Instruction) : Neutral (patch position i) :=
  (neutral_checkOperands i).then fun _ => neutral_modify fun _ => rfl

theorem neutral_position : Neutral position := neutral_get.then fun _ => neutral_pure _

theorem neutral_addConstant (v : Value) : Neutral (addConstant v) := fun _ _ ha => ⟨rfl, .refl ha.coherent⟩

theorem neutral_loadConstant (v : Value) : Neutral (loadConstant v) :=
  (neutral_addConstant v).then fun _ => neutral_emit _

theorem neutral_load (symbol : Symbol) : Neutral (load symbol) := by
  rw [load_eq_emit]
  exact neutral_emit _

theorem neutral_loadAll (symbols : List Symbol) : Neutral (symbols.forM load) := by
  induction symbols with
  | nil => exact neutral_pure ()
  | cons symbol symbols ih => exact (neutral_load symbol).then fun _ => ih

/-- A function literal puts a constant into the pool and loads it. -/
theorem neutral_loadFunction (code : Code) (table : SymbolTable) (numParameters : Nat) :
    Neutral (loadFunction code table numParameters) :=
  (neutral_loadAll table.captures).then fun _ => (neutral_addConstant _).then fun _ => neutral_emit _

theorem neutral_endBranch : Neutral endBranch := by
  refine neutral_get.then fun a => ?_
  by_cases hends : a.emitter.endsWith .pop = true
  · rw [if_pos hends]
    exact neutral_modify fun _ => rfl
  · rw [if_neg hends]
    exact neutral_emit _

theorem neutral_endBody : Neutral endBody := by
  -- whether there is a `return` to be written is decided behind the first test
  have hreturn : Neutral (do unless (← get).emitter.endsWith .returnValue do emit .return) := by
    refine neutral_get.then fun a => ?_
    by_cases hends : a.emitter.endsWith .returnValue = true
    · rw [if_pos hends]
      exact neutral_pure ()
    · rw [if_neg hends]
      exact neutral_emit _
  refine neutral_get.then fun a => ?_
  by_cases hends : a.emitter.endsWith .pop = true
  · rw [if_pos hends]
    exact Neutral.before (neutral_modify fun _ => rfl) fun _ => hreturn
  · rw [if_neg hends]
    exact hreturn

/-! ### Names -/

/-- A name can be loaded exactly if it is in scope. -/
theorem loadName_decides (name : String) : Decides [] (fun scope => scope name) (loadName name) := by
  intro scope a ha
  cases hresolve : a.symbols.resolve? name with
  | none =>
      rw [loadName_of_none hresolve]
      exact .inr (ha.resolve?_eq_none.mp hresolve)
  | some p =>
      obtain ⟨symbol, symbols⟩ := p
      have hbinds : a.symbols.Binds [] symbols := .resolve ha.coherent hresolve
      have hfound : scope name = true := by
        rw [← Bool.not_eq_false, ← ha.resolve?_eq_none, hresolve]
        exact Option.some_ne_none _
      have hload := neutral_load symbol _ { a with symbols } (hbinds.has ha)
      show a.Decided [] (scope name) (loadName name a)
      rw [loadName_of_some hresolve, hfound]
      exact hload.of_binds hbinds

/-- A name is bound by storing under it. -/
theorem store_decides (name : String) : Decides [name] (fun _ => true) (store name) := by
  refine neutral_get.before fun a => ?_
  have hdefine : Decides [name] (fun _ => true)
      (modify fun a => { a with symbols := a.symbols.define name } : CompileM Unit) :=
    fun _ _ ha => ⟨rfl, .define ha.coherent name⟩
  refine hdefine.then fun _ => ?_
  cases (a.symbols.definedSymbol name).place <;> exact neutral_emit _

/-- A function that is opened, written and closed. Its own name and its parameters are in scope inside it, and
nothing that is bound there is bound outside. -/
theorem Decides.function {name : Option String} {parameters : List String} {body ending : CompileM Unit}
    {f : Code × SymbolTable → CompileM β} (hbody : Decides own good body) (hsteady : Steady body)
    (hending : Neutral ending) (hending' : Steady ending) (hf : ∀ r, Neutral (f r)) :
    Decides [] (fun scope => good (scope.adding (name.toList ++ parameters)))
      (do beginFunction name parameters; body; ending; f (← endFunction)) := by
  intro scope a ha
  obtain ⟨inside, hbegin, hsymbols, haround⟩ : ∃ inside : Assembly,
      beginFunction name parameters a = .ok () inside ∧
        inside.symbols = a.symbols.openFunction name parameters ∧ inside.around = a.emitter :: a.around :=
    ⟨_, beginFunction_apply name parameters a, rfl, rfl⟩
  have hopen : inside.symbols.Has (scope.adding (name.toList ++ parameters)) :=
    hsymbols ▸ ha.openFunction name parameters
  have hinside := (hbody.then fun _ => hending) _ inside hopen
  have hbalanced := (hsteady.bind fun _ => hending') inside
  show a.Decided [] (good (scope.adding (name.toList ++ parameters))) _
  rw [bind_apply, hbegin]
  show a.Decided [] _ ((body >>= fun _ => ending >>= fun _ => endFunction >>= f) inside)
  rw [← bind_assoc, bind_apply]
  cases hr : (body >>= fun _ => ending) inside with
  | error e a₁ =>
      rw [hr] at hinside
      exact hinside
  | ok u a₁ =>
      rw [hr] at hinside hbalanced
      obtain ⟨hgood, hbinds⟩ := hinside
      rw [hsymbols] at hbinds
      have hdepth : a₁.symbols.outer.length = a.symbols.outer.length + 1 := by
        rw [hbalanced.depth, hsymbols, Symbols.openFunction_outer, List.length_cons]
      obtain ⟨table, tables, houter⟩ := List.exists_cons_of_length_eq_add_one hdepth
      have hleave := hbinds.leave houter
      -- what follows is written where the function began
      have hrest := hf (a₁.emitter.code, a₁.symbols.inner) scope
        ⟨a₁.constants, ⟨table, tables⟩, a.emitter, a.around⟩ (hleave.has ha)
      show a.Decided [] _ ((endFunction >>= f) a₁)
      rw [bind_apply, endFunction_apply (hbalanced.around.trans haround) houter, hgood]
      exact hrest.of_binds hleave

/-! ### Operators -/

/-- A computation that does not look at the state succeeds in every scope or in none. -/
theorem decides_ofExcept {x : Except CompileError α} {ok : Bool} (hok : x.isOk = ok) :
    Decides [] (fun _ => ok) (MonadExcept.ofExcept x : CompileM α) := by
  subst hok
  cases x with
  | ok v => exact neutral_pure v
  | error e => exact fun _ _ _ => .inr rfl

/-- Only the two prefix operators have an instruction with one operand. -/
theorem decides_unaryInstruction (operator : Operator) :
    Decides [] (fun _ => operator.isUnary)
      (do emit (← MonadExcept.ofExcept operator.unaryInstruction)) :=
  (decides_ofExcept (by cases operator <;> rfl)).then fun _ => neutral_emit _

/-- Only the infix operators have an instruction with two operands. -/
theorem decides_binaryInstruction (operator : Operator) :
    Decides [] (fun _ => operator.isBinary)
      (do emit (← MonadExcept.ofExcept operator.binaryInstruction)) :=
  (decides_ofExcept (by cases operator <;> rfl)).then fun _ => neutral_emit _

/-- Two literals are compared with the operator between them before the operator itself is looked at. -/
theorem exists_decides_checkLiteralOperands (left : Expr) (operator : Operator) (right : Expr) :
    ∃ accepted : Bool,
      (operator.isBinary && accepted) = (operator.isBinary && operator.takes left right) ∧
        Decides [] (fun _ => accepted) (checkLiteralOperands left operator right) := by
  unfold checkLiteralOperands Operator.takes
  cases hleft : left.literalKind? with
  | none => exact ⟨true, rfl, neutral_pure ()⟩
  | some l =>
      cases hright : right.literalKind? with
      | none => exact ⟨true, rfl, neutral_pure ()⟩
      | some r =>
          refine ⟨operator.accepts l r, ?_, ?_⟩
          · cases operator <;> cases l <;> cases r <;> rfl
          · cases haccepts : operator.accepts l r with
            | true => simpa only [haccepts, if_true] using neutral_pure ()
            | false => exact fun _ _ _ => by simpa only [haccepts] using .inr rfl

end CompileM

/-! ## Programs

By induction on the program, in the order of compilation, which is the order of `Expr.isScoped`. Each case
comes down to `Decides.bind` and `Decides.congr`. -/

open CompileM

mutual

/-- Compiling an expression succeeds exactly if it is well scoped, and binds its binders. -/
theorem Expr.compile_decides : ∀ e : Expr,
    Decides (e.binders false) (fun scope => e.isScoped scope) e.compile
  | .identifier name => by
      rw [Expr.compile]
      exact loadName_decides name
  | .integer value => by
      rw [Expr.compile]
      exact neutral_loadConstant _
  | .string contents => by
      rw [Expr.compile]
      exact neutral_loadConstant _
  | .boolean true | .boolean false => by
      rw [Expr.compile]
      exact neutral_emit _
  | .array elements => by
      rw [Expr.compile]
      exact (Expr.compileAll_decides elements).then fun _ => neutral_emit _
  | .hash pairs => by
      rw [Expr.compile]
      exact (Expr.compilePairs_decides pairs).then fun _ => neutral_emit _
  | .unary operator operand => by
      rw [Expr.compile]
      refine ((Expr.compile_decides operand).bind fun _ => decides_unaryInstruction operator).congr ?_ ?_
      · simp [Expr.binders]
      · exact fun scope => by rw [Expr.isScoped, Bool.and_comm]
  | .binary left operator right => by
      rw [Expr.compile]
      obtain ⟨accepted, hsame, hcheck⟩ := exists_decides_checkLiteralOperands left operator right
      have hleft := Expr.compile_decides left
      have hright := Expr.compile_decides right
      have hinstruction := decides_binaryInstruction operator
      by_cases hless : operator = .lessThan
      · simp only [if_pos hless]
        refine (hcheck.bind fun _ => hright.bind fun _ => hleft.bind fun _ => hinstruction).congr ?_ ?_
        · simp [Expr.binders, or_comm]
        · intro scope
          rw [Expr.isScoped, if_pos hless, ← hsame]
          simp only [NameScope.adding_nil]
          ac_rfl
      · simp only [if_neg hless]
        refine (hcheck.bind fun _ => hleft.bind fun _ => hright.bind fun _ => hinstruction).congr ?_ ?_
        · simp [Expr.binders]
        · intro scope
          rw [Expr.isScoped, if_neg hless, ← hsame]
          simp only [NameScope.adding_nil]
          ac_rfl
  | .if condition consequence alternative => by
      rw [Expr.compile, Expr.binders_if]
      refine ((Expr.compile_decides condition).bind fun _ => neutral_position.before fun _ =>
        (neutral_emit _).before fun _ => (Stmt.compileAll_decides consequence).bind fun _ =>
        neutral_endBranch.before fun _ => neutral_position.before fun _ => (neutral_emit _).before fun _ =>
        neutral_position.before fun _ => (neutral_patch _ _).before fun _ =>
        (Stmt.compileAlternative_decides alternative).then fun _ => neutral_position.then fun _ =>
        neutral_patch _ _).congr (fun _ => Iff.rfl) ?_
      exact fun scope => Expr.isScoped_if scope condition consequence alternative
  | .function name parameters body => by
      rw [Expr.compile]
      exact Decides.function (Stmt.compileAll_decides body) (Stmt.compileAll_steady body) neutral_endBody
        steady_endBody fun (code, table) => neutral_loadFunction code table parameters.length
  | .call callee arguments => by
      rw [Expr.compile]
      exact (Expr.compile_decides callee).bind fun _ =>
        (Expr.compileAll_decides arguments).then fun _ => neutral_emit _
  | .index collection key => by
      rw [Expr.compile]
      exact (Expr.compile_decides collection).bind fun _ =>
        (Expr.compile_decides key).then fun _ => neutral_emit _

theorem Expr.compileAll_decides : ∀ es : List Expr,
    Decides (Expr.bindersAll false es) (fun scope => Expr.areScoped scope es) (Expr.compileAll es)
  | [] => by
      rw [Expr.compileAll]
      exact neutral_pure ()
  | e :: es => by
      rw [Expr.compileAll]
      exact (Expr.compile_decides e).bind fun _ => Expr.compileAll_decides es

theorem Expr.compilePairs_decides : ∀ pairs : List (Expr × Expr),
    Decides (Expr.bindersPairs false pairs) (fun scope => Expr.arePairsScoped scope pairs)
      (Expr.compilePairs pairs)
  | [] => by
      rw [Expr.compilePairs]
      exact neutral_pure ()
  | (key, value) :: pairs => by
      rw [Expr.compilePairs]
      exact (Expr.compile_decides key).bind fun _ => (Expr.compile_decides value).bind fun _ =>
        Expr.compilePairs_decides pairs

/-- An alternative that is missing has no names and is well scoped. -/
theorem Stmt.compileAlternative_decides : ∀ alternative : Option (List Stmt),
    Decides (Stmt.bindersAll false (alternative.getD []))
      (fun scope => Stmt.areScoped scope (alternative.getD [])) (Stmt.compileAlternative alternative)
  | none => by
      rw [Stmt.compileAlternative]
      exact neutral_emit _
  | some alternative => by
      rw [Stmt.compileAlternative]
      exact (Stmt.compileAll_decides alternative).then fun _ => neutral_endBranch

/-- A statement is decided by its expression. A `let` also binds its name, behind it. -/
theorem Stmt.compile_decides : ∀ s : Stmt,
    Decides (s.binders false) (fun scope => s.isScoped scope) s.compile
  | .let name value => by
      rw [Stmt.compile]
      refine ((Expr.compile_decides value).bind fun _ => store_decides name).congr (fun _ => Iff.rfl) ?_
      exact fun scope => by rw [Stmt.isScoped, Bool.and_true]
  | .return none => by
      rw [Stmt.compile]
      exact neutral_emit _
  | .return (some value) => by
      rw [Stmt.compile]
      exact (Expr.compile_decides value).then fun _ => neutral_emit _
  | .expr value => by
      rw [Stmt.compile]
      exact (Expr.compile_decides value).then fun _ => neutral_emit _

/-- Each statement is decided in the scope that the statements before it leave. -/
theorem Stmt.compileAll_decides : ∀ ss : List Stmt,
    Decides (Stmt.bindersAll false ss) (fun scope => Stmt.areScoped scope ss) (Stmt.compileAll ss)
  | [] => by
      rw [Stmt.compileAll]
      exact neutral_pure ()
  | s :: ss => by
      rw [Stmt.compileAll]
      exact (Stmt.compile_decides s).bind fun _ => Stmt.compileAll_decides ss

end

/-! ## Main statement -/

namespace Compiler

/-- Whether a name stands for a global. -/
def hasGlobal (c : Compiler) (name : String) : Bool :=
  match c.symbols.main.bindings.get? name with
  | some symbol => symbol.place = .global
  | none => false

/-- What is in scope at the beginning of a program: the built-in functions, and the globals of the programs
before it. -/
def scope (c : Compiler) : NameScope := fun name => (Builtin.ofName? name).isSome || c.hasGlobal name

theorem hasGlobal_initial (name : String) : initial.hasGlobal name = false := by
  unfold hasGlobal
  cases hget : initial.symbols.main.bindings.get? name with
  | none => rfl
  | some symbol =>
      rw [Symbols.main_of_nested initial_nested] at hget
      show decide (symbol.place = .global) = false
      rw [(initial_get? hget).1]
      rfl

variable {c : Compiler}

/-- The globals of a program that compiles are those of the programs before it and the names that it binds. A
program that does not compile leaves none behind. -/
theorem Reachable.hasGlobal_compile (h : c.Reachable) (program : Program) (name : String) :
    (c.compile program).2.hasGlobal name = true ↔
      c.hasGlobal name = true ∨
        (c.compile program).1.isOk = true ∧ name ∈ Stmt.bindersAll false program := by
  rcases hcompile : c.compile program with ⟨result, c'⟩
  cases result with
  | error e =>
      rw [compile_error hcompile]
      simp [Except.isOk, Except.toBool]
  | ok b =>
      obtain ⟨is, hemits, -, -⟩ := compile_emits hcompile
      have hdefines := hemits.defines h.sound.symbols
      have hok : (Except.ok b : Except CompileError Bytecode).isOk = true := rfl
      simp only [hok, true_and]
      by_cases hmem : name ∈ Stmt.bindersAll false program
      · obtain ⟨k, hget, -⟩ := hdefines.own h.nested_eq name hmem
        simp [hasGlobal, hget, hmem]
      · simp only [hasGlobal, hdefines.others name (.inr hmem), hmem, or_false]

/-- What comes of a program where some names are in scope and no others. -/
theorem compile_decided {scope : NameScope} (hc : c.symbols.Has scope) (program : Program) :
    (∀ b c', c.compile program = (.ok b, c') →
      Stmt.areScoped scope program = true ∧ c.symbols.Binds (Stmt.bindersAll false program) c'.symbols) ∧
    ∀ e c', c.compile program = (.error e, c') →
      e.isOverflow = true ∨ Stmt.areScoped scope program = false := by
  have hdecides := Stmt.compileAll_decides program scope (Assembly.resume c) hc
  cases hrun : Stmt.compileAll program (Assembly.resume c) with
  | ok u a =>
      rw [hrun] at hdecides
      refine ⟨fun b c' h => ?_, fun e c' h => ?_⟩ <;> rw [compile, Assembly.compile, hrun] at h <;> cases h
      exact hdecides
  | error e a =>
      rw [hrun] at hdecides
      refine ⟨fun b c' h => ?_, fun e' c' h => ?_⟩ <;> rw [compile, Assembly.compile, hrun] at h <;> cases h
      exact hdecides

/-- At first the built-in functions are known. -/
theorem initial_has : initial.symbols.Has initial.scope where
  coherent := Symbols.after_coherent (Builtin.all.map fun b : Builtin => .defineBuiltin b.index b.name)
  knows := by
    intro name
    rw [scope, hasGlobal_initial, Bool.or_false]
    constructor
    · intro hknows
      by_contra hname
      exact initial_not_knows (Option.not_isSome_iff_eq_none.mp hname) hknows
    · intro hname
      obtain ⟨b, hb⟩ := Option.isSome_iff_exists.mp hname
      obtain rfl : b.name = name := by simpa using List.find?_some hb
      refine ⟨_, List.mem_cons_self, ?_⟩
      cases b <;> exact ⟨_, rfl⟩

/-- **The tables of a reachable compiler** know the built-in functions and the globals. -/
theorem Reachable.has (h : c.Reachable) : c.symbols.Has c.scope := by
  induction h with
  | initial => exact initial_has
  | @compile c program hc ih =>
      have hglobals := hc.hasGlobal_compile program
      rcases hcompile : c.compile program with ⟨result, c'⟩
      cases result with
      | error e =>
          rw [compile_error hcompile]
          exact ih
      | ok b =>
          have hbinds := ((compile_decided ih program).1 b c' hcompile).2
          rw [hcompile] at hglobals
          refine ⟨hbinds.coherent, fun name => ?_⟩
          have hglobal : c'.hasGlobal name = true ↔
              c.hasGlobal name = true ∨ name ∈ Stmt.bindersAll false program :=
            (hglobals name).trans (or_congr_right (and_iff_right rfl))
          rw [hbinds.knows, ih.knows, scope, scope, Bool.or_eq_true, Bool.or_eq_true, hglobal]
          tauto

/-- **Compilation accepts exactly the well-scoped programs**, unless an operand is too large. What is in scope
at first are the built-in functions and the globals, which are the names that the programs bound that compiled
before. -/
theorem Reachable.compile_isOk_iff (h : c.Reachable) {program : Program}
    (hfits : ∀ opcode operand width,
      (c.compile program).1 ≠ .error (.operandOverflow opcode operand width)) :
    ((c.compile program).1.isOk = true ↔ Stmt.areScoped c.scope program = true) ∧
      (∀ name, (c.compile program).2.hasGlobal name = true ↔
        c.hasGlobal name = true ∨
          (c.compile program).1.isOk = true ∧ name ∈ Stmt.bindersAll false program) ∧
      ∀ name, Compiler.initial.hasGlobal name = false := by
  refine ⟨?_, h.hasGlobal_compile program, hasGlobal_initial⟩
  obtain ⟨hok, herror⟩ := compile_decided h.has program
  rcases hcompile : c.compile program with ⟨result, c'⟩
  rw [hcompile] at hfits
  cases result with
  | ok b => exact iff_of_true rfl (hok b c' hcompile).1
  | error e =>
      refine iff_of_false Bool.false_ne_true ?_
      rcases herror e c' hcompile with hoverflow | hscoped
      · cases e with
        | operandOverflow opcode operand width => exact absurd rfl (hfits opcode operand width)
        | _ => cases hoverflow
      · exact Bool.eq_false_iff.mp hscoped

/-- A comparison whose right operand binds a name that the left one uses. -/
def comparingProgram (operator : Operator) : Program :=
  [.expr (.binary (.identifier "a") operator (.if (.boolean true) [.let "a" (.integer 1)] none))]

/-- The right operand of `<` comes first, that of `>` does not. -/
theorem comparingProgram_isOk : (initial.compile (comparingProgram .lessThan)).1.isOk = true ∧
    (initial.compile (comparingProgram .greaterThan)).1.isOk = false := by
  have hfits : ∀ operator, operator = .lessThan ∨ operator = .greaterThan →
      ∀ opcode operand width, (initial.compile (comparingProgram operator)).1 ≠
        .error (.operandOverflow opcode operand width) := by
    intro operator hoperator opcode operand width herror
    have hnone : (match (initial.compile (comparingProgram operator)).1 with
        | .ok _ => false
        | .error e => e.isOverflow) = false := by
      rcases hoperator with rfl | rfl <;> decide +kernel
    rw [herror] at hnone
    cases hnone
  constructor
  · exact (Reachable.initial.compile_isOk_iff (hfits _ (.inl rfl))).1.mpr (by decide +kernel)
  · rw [Bool.eq_false_iff]
    exact (Reachable.initial.compile_isOk_iff (hfits _ (.inr rfl))).1.not.mpr (by decide +kernel)

end Compiler

end ScriptLang
