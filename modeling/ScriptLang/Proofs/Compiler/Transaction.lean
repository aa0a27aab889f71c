import ScriptLang.Compiler
import ScriptLang.Proofs.Symbols.Soundness

/-!
# Compilation as a transaction

A compilation may fail anywhere: inside functions that are half written, behind names that were captured
for them and constants that were added. That nothing is left of the attempt rests on what every step of a
compilation does, whatever comes of it (`CompileM.Steady`): constants are only added behind those that are
there, and a step that succeeds has closed all functions that it opened.

Main statement: `Assembly.compileEach_transaction`.
-/

namespace ScriptLang

/-- Whether an error is about the program. The other errors would be about functions that are closed but
were never opened. -/
def CompileError.concernsProgram : CompileError → Bool
  | .outermostScope | .outermostTable => false
  | _ => true

/-! ## The depth of the tables

How deep a chain is decides which names can be captured, and whether a function is open. Only opening and
leaving a function change it. -/

namespace Symbols

/-- The rules of looking a name up keep the number of tables. -/
theorem Resolves.length_outer {s s' : Symbols} {name : String} {symbol : Symbol}
    (h : Resolves name s symbol s') : s'.outer.length = s.outer.length := by
  induction h with
  | stored => rfl
  | main _ _ _ ih | captured _ _ _ _ ih => exact congrArg Nat.succ ih

/-- Looking a name up opens and closes no table. -/
theorem length_resolve? {s s' : Symbols} {name : String} {symbol : Symbol}
    (h : s.resolve? name = some (symbol, s')) : s'.outer.length = s.outer.length :=
  (resolve?_eq_some.mp h).length_outer

end Symbols

/-! ## Steady steps

Each step that the compiler is put together from is steady, and steady steps in a row are steady
(`Steady.bind`). Functions are the one place where steps that are not steady by themselves, opening and
closing a table, come in a pair. -/

/-- Between two states of a compilation all functions that were opened have been closed, and constants
have only been added. -/
structure Assembly.Balanced (a a' : Assembly) : Prop where
  constants : a.constants.toList <+: a'.constants.toList
  depth : a'.symbols.outer.length = a.symbols.outer.length
  around : a'.around = a.around

/-- What comes of a step. A failure may leave functions open, but no constant is lost. -/
def Assembly.Settles {α : Type} (a : Assembly) : EStateM.Result CompileError Assembly α → Prop
  | .ok _ a' => a.Balanced a'
  | .error e a' => a.constants.toList <+: a'.constants.toList ∧ e.concernsProgram = true

namespace Assembly

variable {α : Type} {a a₁ a₂ : Assembly}

theorem Balanced.refl (a : Assembly) : a.Balanced a := ⟨List.prefix_refl _, rfl, rfl⟩

/-- One stretch of a compilation after another. -/
theorem Balanced.trans (h₁ : a.Balanced a₁) (h₂ : a₁.Balanced a₂) : a.Balanced a₂ :=
  ⟨h₁.constants.trans h₂.constants, h₂.depth.trans h₁.depth, h₂.around.trans h₁.around⟩

/-- What comes of a step also settles seen from an earlier state. -/
theorem Settles.of_balanced {r : EStateM.Result CompileError Assembly α} (h₁ : a.Balanced a₁)
    (h : a₁.Settles r) : a.Settles r := by
  cases r with
  | ok v a₂ => exact h₁.trans h
  | error e a₂ => exact ⟨h₁.constants.trans h.1, h.2⟩

end Assembly

namespace CompileM

variable {α β : Type}

/-- The second of two steps runs on the state that the first one leaves, if it succeeds. -/
theorem bind_apply (x : CompileM α) (f : α → CompileM β) (a : Assembly) :
    (x >>= f) a = match x a with
      | .ok v a' => f v a'
      | .error e a' => .error e a' := by
  show EStateM.bind x f a = _
  rw [EStateM.bind]
  cases x a <;> rfl

theorem get_apply (a : Assembly) : (get : CompileM Assembly) a = .ok a a := rfl

/-- Wherever a step starts, it settles. -/
def Steady (x : CompileM α) : Prop := ∀ a : Assembly, a.Settles (x a)

theorem steady_pure (v : α) : Steady (pure v : CompileM α) := .refl

theorem steady_get : Steady (get : CompileM Assembly) := .refl

/-- A failure with an error about the program loses nothing. -/
theorem steady_throw {e : CompileError} (h : e.concernsProgram = true) :
    Steady (throw e : CompileM α) := fun _ => ⟨List.prefix_refl _, h⟩

/-- A change of the state that opens and closes no function. -/
theorem steady_modify {f : Assembly → Assembly} (h : ∀ a : Assembly, a.Balanced (f a)) :
    Steady (modify f : CompileM Unit) := h

/-- A computation that does not look at the state. -/
theorem steady_ofExcept {x : Except CompileError α}
    (h : ∀ e, x = .error e → e.concernsProgram = true) :
    Steady (MonadExcept.ofExcept x : CompileM α) := by
  cases x with
  | ok v => exact steady_pure v
  | error e => exact steady_throw (h e rfl)

/-- If the first step fails, the second does not run; otherwise constants are added behind those of the
first. -/
theorem Steady.bind {x : CompileM α} {f : α → CompileM β} (hx : Steady x) (hf : ∀ v, Steady (f v)) :
    Steady (x >>= f) := by
  intro a
  have hfirst := hx a
  rw [bind_apply]
  cases hr : x a with
  | ok v a₁ =>
      rw [hr] at hfirst
      exact (hf v a₁).of_balanced hfirst
  | error e a₁ =>
      rw [hr] at hfirst
      exact hfirst

/-! ### Writing code -/

/-- The check of operands fails or does nothing. -/
theorem steady_checkOperands (i : Instruction) : Steady (checkOperands i) := by
  unfold checkOperands
  cases i.overflow? with
  | none => exact steady_pure ()
  | some p => exact steady_throw rfl

theorem steady_emit (i : Instruction) : Steady (emit i) :=
  (steady_checkOperands i).bind fun _ => steady_modify fun _ => ⟨List.prefix_refl _, rfl, rfl⟩

/-- Filling in a jump changes bytes that were written before, but no constant. -/
theorem steady_patch (position : Nat) (i : Instruction) : Steady (patch position i) :=
  (steady_checkOperands i).bind fun _ => steady_modify fun _ => ⟨List.prefix_refl _, rfl, rfl⟩

theorem steady_position : Steady position := steady_get.bind fun _ => steady_pure _

/-- A constant goes behind all others. -/
theorem steady_addConstant (v : Value) : Steady (addConstant v) := fun _ =>
  ⟨⟨[v], (Array.toList_push ..).symm⟩, rfl, rfl⟩

theorem steady_loadConstant (v : Value) : Steady (loadConstant v) :=
  (steady_addConstant v).bind fun _ => steady_emit _

theorem steady_load (symbol : Symbol) : Steady (load symbol) := by
  unfold load
  cases symbol.place <;> exact steady_emit _

theorem steady_loadAll (symbols : List Symbol) : Steady (symbols.forM load) := by
  induction symbols with
  | nil => exact steady_pure ()
  | cons symbol symbols ih => exact (steady_load symbol).bind fun _ => ih

/-- A name that is not found is an error, and the tables are as before. -/
theorem loadName_of_none {name : String} {a : Assembly} (h : a.symbols.resolve? name = none) :
    loadName name a = .error (.undefinedVariable name) a := by
  simp only [loadName, bind_apply, get_apply, Symbols.resolve_of_resolve?_none h]
  rfl

/-- A name that is found is loaded, in tables that have captured it where they had to. -/
theorem loadName_of_some {name : String} {a : Assembly} {symbol : Symbol} {symbols : Symbols}
    (h : a.symbols.resolve? name = some (symbol, symbols)) :
    loadName name a = load symbol { a with symbols } := by
  simp only [loadName, bind_apply, get_apply, Symbols.resolve_of_resolve?_some h]
  rfl

/-- Loading a name captures symbols in the tables that are open, and opens none. -/
theorem steady_loadName (name : String) : Steady (loadName name) := by
  intro a
  cases hresolve : a.symbols.resolve? name with
  | none =>
      rw [loadName_of_none hresolve]
      exact ⟨List.prefix_refl _, rfl⟩
  | some p =>
      obtain ⟨symbol, symbols⟩ := p
      have hbalanced : a.Balanced { a with symbols } :=
        ⟨List.prefix_refl _, Symbols.length_resolve? hresolve, rfl⟩
      rw [loadName_of_some hresolve]
      exact (steady_load symbol { a with symbols }).of_balanced hbalanced

/-- A definition changes the innermost table and the code. -/
theorem steady_store (name : String) : Steady (store name) := by
  refine steady_get.bind fun a => ?_
  refine Steady.bind (steady_modify ?_) fun _ => ?_
  · exact fun _ => ⟨List.prefix_refl _, rfl, rfl⟩
  · cases (a.symbols.definedSymbol name).place <;> exact steady_emit _

theorem steady_endBranch : Steady endBranch := by
  refine steady_get.bind fun a => ?_
  by_cases hends : a.emitter.endsWith .pop = true
  · rw [if_pos hends]
    exact steady_modify fun _ => ⟨List.prefix_refl _, rfl, rfl⟩
  · rw [if_neg hends]
    exact steady_emit _

/-- The end of a body looks at the last instruction only. -/
theorem steady_endBody : Steady endBody := by
  -- whether there is a `return` to be written is decided behind the first test
  have hreturn : Steady (do unless (← get).emitter.endsWith .returnValue do emit .return) := by
    refine steady_get.bind fun a => ?_
    by_cases hends : a.emitter.endsWith .returnValue = true
    · rw [if_pos hends]
      exact steady_pure ()
    · rw [if_neg hends]
      exact steady_emit _
  refine steady_get.bind fun a => ?_
  by_cases hends : a.emitter.endsWith .pop = true
  · rw [if_pos hends]
    refine Steady.bind (steady_modify ?_) fun _ => hreturn
    exact fun _ => ⟨List.prefix_refl _, rfl, rfl⟩
  · rw [if_neg hends]
    exact hreturn

theorem steady_loadFunction (code : Code) (table : SymbolTable) (numParameters : Nat) :
    Steady (loadFunction code table numParameters) :=
  (steady_loadAll table.captures).bind fun _ => (steady_addConstant _).bind fun _ => steady_emit _

/-- An operator that does not suit two literals is an error about the program. -/
theorem steady_checkLiteralOperands (left : Expr) (operator : Operator) (right : Expr) :
    Steady (checkLiteralOperands left operator right) := by
  unfold checkLiteralOperands
  split
  · split
    · exact steady_pure ()
    · exact steady_throw rfl
  · exact steady_pure ()

theorem steady_unaryInstruction (operator : Operator) :
    Steady (MonadExcept.ofExcept operator.unaryInstruction : CompileM Instruction) :=
  steady_ofExcept fun e h => by cases operator <;> cases h <;> rfl

theorem steady_binaryInstruction (operator : Operator) :
    Steady (MonadExcept.ofExcept operator.binaryInstruction : CompileM Instruction) :=
  steady_ofExcept fun e h => by
    cases operator <;> cases h
    rfl

/-! ### Functions -/

/-- The beginning of a function opens its tables. -/
theorem beginFunction_apply (name : Option String) (parameters : List String) (a : Assembly) :
    beginFunction name parameters a = .ok () { a with
      symbols := a.symbols.openFunction name parameters
      emitter := {}
      around := a.emitter :: a.around } := by
  cases name <;> rfl

/-- The end of a function closes it, if there is one to close. -/
theorem endFunction_apply {a : Assembly} {emitter : Emitter} {around : List Emitter}
    {table : SymbolTable} {tables : List SymbolTable} (haround : a.around = emitter :: around)
    (houter : a.symbols.outer = table :: tables) :
    endFunction a = .ok (a.emitter.code, a.symbols.inner)
      ⟨a.constants, ⟨table, tables⟩, emitter, around⟩ := by
  obtain ⟨constants, ⟨inner, outer⟩, current, others⟩ := a
  cases haround
  cases houter
  rfl

/-- A function that is opened, written and closed. What follows gets its code and its symbols. -/
theorem Steady.function {name : Option String} {parameters : List String} {body ending : CompileM Unit}
    {f : Code × SymbolTable → CompileM β} (hbody : Steady body) (hending : Steady ending)
    (hf : ∀ r, Steady (f r)) :
    Steady (do beginFunction name parameters; body; ending; f (← endFunction)) := by
  intro a
  have hbegin := beginFunction_apply name parameters a
  have houter := a.symbols.openFunction_outer name parameters
  generalize a.symbols.openFunction name parameters = symbols at hbegin houter
  rw [bind_apply, hbegin]
  show a.Settles ((body >>= fun _ => ending >>= fun _ => endFunction >>= f) _)
  have hinside := (hbody.bind fun _ => hending)
    { a with symbols, emitter := {}, around := a.emitter :: a.around }
  rw [← bind_assoc, bind_apply]
  cases hr : (body >>= fun _ => ending)
      { a with symbols, emitter := {}, around := a.emitter :: a.around } with
  | error e a₁ =>
      rw [hr] at hinside
      exact hinside
  | ok u a₁ =>
      rw [hr] at hinside
      have hdepth : a₁.symbols.outer.length = a.symbols.outer.length + 1 := by
        rw [hinside.depth]
        exact congrArg List.length houter
      obtain ⟨table, tables, htables⟩ := List.exists_cons_of_length_eq_add_one hdepth
      show a.Settles ((endFunction >>= f) a₁)
      rw [bind_apply, endFunction_apply hinside.around htables]
      rw [htables, List.length_cons] at hdepth
      have hbalanced : a.Balanced ⟨a₁.constants, ⟨table, tables⟩, a.emitter, a.around⟩ :=
        ⟨hinside.constants, Nat.add_right_cancel hdepth, rfl⟩
      exact (hf _ _).of_balanced hbalanced

end CompileM

/-! ## Programs

By induction on the program; every case is a sequence of steady steps. -/

open CompileM

mutual

/-- Expressions are steady: a function literal closes what it opens, all others open nothing. -/
theorem Expr.compile_steady : ∀ e : Expr, Steady e.compile
  | .identifier name => by
      rw [Expr.compile]
      exact steady_loadName name
  | .integer value => by
      rw [Expr.compile]
      exact steady_loadConstant _
  | .string contents => by
      rw [Expr.compile]
      exact steady_loadConstant _
  | .boolean true | .boolean false => by
      rw [Expr.compile]
      exact steady_emit _
  | .array elements => by
      rw [Expr.compile]
      exact (Expr.compileAll_steady elements).bind fun _ => steady_emit _
  | .hash pairs => by
      rw [Expr.compile]
      exact (Expr.compilePairs_steady pairs).bind fun _ => steady_emit _
  | .unary operator operand => by
      rw [Expr.compile]
      exact (Expr.compile_steady operand).bind fun _ =>
        (steady_unaryInstruction operator).bind fun _ => steady_emit _
  | .binary left operator right => by
      rw [Expr.compile]
      refine (steady_checkLiteralOperands left operator right).bind fun _ => ?_
      have hleft := Expr.compile_steady left
      have hright := Expr.compile_steady right
      have hinstruction : Steady (do emit (← MonadExcept.ofExcept operator.binaryInstruction)) :=
        (steady_binaryInstruction operator).bind fun _ => steady_emit _
      by_cases hless : operator = .lessThan
      · rw [if_pos hless]
        exact hright.bind fun _ => hleft.bind fun _ => hinstruction
      · rw [if_neg hless]
        exact hleft.bind fun _ => hright.bind fun _ => hinstruction
  | .if condition consequence alternative => by
      rw [Expr.compile]
      exact (Expr.compile_steady condition).bind fun _ => steady_position.bind fun _ =>
        (steady_emit _).bind fun _ => (Stmt.compileAll_steady consequence).bind fun _ =>
        steady_endBranch.bind fun _ => steady_position.bind fun _ => (steady_emit _).bind fun _ =>
        steady_position.bind fun _ => (steady_patch _ _).bind fun _ =>
        (Stmt.compileAlternative_steady alternative).bind fun _ => steady_position.bind fun _ =>
        steady_patch _ _
  | .function name parameters body => by
      rw [Expr.compile]
      exact Steady.function (Stmt.compileAll_steady body) steady_endBody
        fun (code, table) => steady_loadFunction code table parameters.length
  | .call callee arguments => by
      rw [Expr.compile]
      exact (Expr.compile_steady callee).bind fun _ =>
        (Expr.compileAll_steady arguments).bind fun _ => steady_emit _
  | .index collection key => by
      rw [Expr.compile]
      exact (Expr.compile_steady collection).bind fun _ =>
        (Expr.compile_steady key).bind fun _ => steady_emit _

theorem Expr.compileAll_steady : ∀ es : List Expr, Steady (Expr.compileAll es)
  | [] => by
      rw [Expr.compileAll]
      exact steady_pure ()
  | e :: es => by
      rw [Expr.compileAll]
      exact (Expr.compile_steady e).bind fun _ => Expr.compileAll_steady es

theorem Expr.compilePairs_steady : ∀ pairs : List (Expr × Expr), Steady (Expr.compilePairs pairs)
  | [] => by
      rw [Expr.compilePairs]
      exact steady_pure ()
  | (key, value) :: pairs => by
      rw [Expr.compilePairs]
      exact (Expr.compile_steady key).bind fun _ => (Expr.compile_steady value).bind fun _ =>
        Expr.compilePairs_steady pairs

theorem Stmt.compileAlternative_steady : ∀ alternative : Option (List Stmt),
    Steady (Stmt.compileAlternative alternative)
  | none => by
      rw [Stmt.compileAlternative]
      exact steady_emit _
  | some alternative => by
      rw [Stmt.compileAlternative]
      exact (Stmt.compileAll_steady alternative).bind fun _ => steady_endBranch

theorem Stmt.compile_steady : ∀ s : Stmt, Steady s.compile
  | .let name value => by
      rw [Stmt.compile]
      exact (Expr.compile_steady value).bind fun _ => steady_store name
  | .return none => by
      rw [Stmt.compile]
      exact steady_emit _
  | .return (some value) => by
      rw [Stmt.compile]
      exact (Expr.compile_steady value).bind fun _ => steady_emit _
  | .expr value => by
      rw [Stmt.compile]
      exact (Expr.compile_steady value).bind fun _ => steady_emit _

theorem Stmt.compileAll_steady : ∀ ss : List Stmt, Steady (Stmt.compileAll ss)
  | [] => by
      rw [Stmt.compileAll]
      exact steady_pure ()
  | s :: ss => by
      rw [Stmt.compileAll]
      exact (Stmt.compile_steady s).bind fun _ => Stmt.compileAll_steady ss

end

/-! ## Compilations

Between programs no function is open and no code is being written. In such a state, which is all that is kept
from one program to the next, a failed compilation is undone by putting the old tables and constants back. -/

namespace Assembly

/-- No function is open, and no code has been written. -/
def AtRest (a : Assembly) : Prop := a.emitter = {} ∧ a.around = []

/-- A compilation at rest goes on as if its state had been taken out and put into a new one. -/
theorem atRest_iff {a : Assembly} : a.AtRest ↔ resume a.compiler = a := by
  obtain ⟨constants, symbols, emitter, around⟩ := a
  simp only [AtRest, resume, compiler, mk.injEq, true_and]
  exact and_congr eq_comm eq_comm

theorem resume_atRest (c : Compiler) : (resume c).AtRest := ⟨rfl, rfl⟩

/-- **A failed compilation** changes nothing. -/
theorem compile_of_error {a : Assembly} {program : Program} (ha : a.AtRest) {e : CompileError}
    (h : (a.compile program).1 = .error e) :
    (a.compile program).2 = a ∧ e.concernsProgram = true := by
  have hsteady := Stmt.compileAll_steady program a
  unfold compile at h ⊢
  cases hr : Stmt.compileAll program a with
  | ok u a' =>
      rw [hr] at h
      cases h
  | error e' a' =>
      rw [hr] at h hsteady
      cases h
      refine ⟨?_, hsteady.2⟩
      -- the constants from before stand in front of those that were added
      have hconstants : a'.constants.shrink a.constants.size = a.constants := by
        rw [← Array.toList_inj, Array.toList_shrink, ← Array.length_toList]
        exact (List.prefix_iff_eq_take.mp hsteady.1).symm
      obtain ⟨hemitter, haround⟩ := ha
      obtain ⟨constants, symbols, emitter, around⟩ := a
      cases hemitter
      cases haround
      exact congrArg (fun constants : Array Value => mk constants symbols {} []) hconstants

/-- **A compilation that succeeds** closes all functions and adds constants. -/
theorem compile_of_ok {a : Assembly} {program : Program} {b : Bytecode}
    (h : (a.compile program).1 = .ok b) :
    (a.compile program).2.AtRest ∧
      (a.compile program).2.symbols.outer.length = a.symbols.outer.length ∧
      a.constants.toList <+: (a.compile program).2.constants.toList := by
  have hsteady := Stmt.compileAll_steady program a
  unfold compile at h ⊢
  cases hr : Stmt.compileAll program a with
  | ok u a' =>
      rw [hr] at hsteady
      exact ⟨⟨rfl, rfl⟩, hsteady.depth, hsteady.constants⟩
  | error e a' =>
      rw [hr] at h
      cases h

/-- A compilation ends at rest, whether it succeeds or fails. -/
theorem compile_atRest {a : Assembly} (ha : a.AtRest) (program : Program) :
    (a.compile program).2.AtRest := by
  cases h : (a.compile program).1 with
  | error e => rwa [(compile_of_error ha h).1]
  | ok b => exact (compile_of_ok h).1

/-! ### Sequences of programs -/

/-- Compiles some programs one after another and gives what comes of each. Where a program is marked, the
state that it leaves is taken out and put into a new compilation. -/
def compileEach (a : Assembly) :
    List (Program × Bool) → List (Except CompileError Bytecode) × Assembly
  | [] => ([], a)
  | (program, marked) :: steps =>
    let (result, a) := a.compile program
    let (results, a) := compileEach (if marked then resume a.compiler else a) steps
    (result :: results, a)

/-- The steps of a sequence whose programs were compiled. -/
def compiled (steps : List (Program × Bool)) (results : List (Except CompileError Bytecode)) :
    List (Program × Bool) :=
  ((steps.zip results).filter (·.2.isOk)).map (·.1)

/-- One program in front of others. That it is marked makes no difference. -/
theorem compileEach_cons {a : Assembly} (ha : a.AtRest) (program : Program) (marked : Bool)
    (steps : List (Program × Bool)) :
    a.compileEach ((program, marked) :: steps) =
      ((a.compile program).1 :: ((a.compile program).2.compileEach steps).1,
        ((a.compile program).2.compileEach steps).2) := by
  have hrest := atRest_iff.mp (compile_atRest ha program)
  cases marked with
  | false => rfl
  | true =>
      simp only [compileEach, if_pos]
      rw [hrest]

/-- A sequence of compilations ends at rest. -/
theorem compileEach_atRest {a : Assembly} (ha : a.AtRest) (steps : List (Program × Bool)) :
    (a.compileEach steps).2.AtRest := by
  induction steps generalizing a with
  | nil => exact ha
  | cons step steps ih =>
      rw [compileEach_cons ha]
      exact ih (compile_atRest ha step.1)

theorem compileEach_unmarked {a : Assembly} (ha : a.AtRest) (steps : List (Program × Bool)) :
    a.compileEach (steps.map fun step => (step.1, false)) = a.compileEach steps := by
  induction steps generalizing a with
  | nil => rfl
  | cons step steps ih =>
      rw [List.map_cons, compileEach_cons ha, compileEach_cons ha, ih (compile_atRest ha step.1)]

/-- Programs that cannot be compiled might as well not be there. -/
theorem compileEach_compiled {a : Assembly} (ha : a.AtRest) (steps : List (Program × Bool)) :
    a.compileEach (compiled steps (a.compileEach steps).1) =
      ((a.compileEach steps).1.filter (·.isOk), (a.compileEach steps).2) := by
  induction steps generalizing a with
  | nil => rfl
  | cons step steps ih =>
      obtain ⟨program, marked⟩ := step
      have hrest := ih (compile_atRest ha program)
      rw [compileEach_cons ha]
      cases h : (a.compile program).1 with
      | error e =>
          rw [(compile_of_error ha h).1] at hrest ⊢
          exact hrest
      | ok b =>
          have hkept : compiled ((program, marked) :: steps)
              (.ok b :: ((a.compile program).2.compileEach steps).1) =
              (program, marked) :: compiled steps ((a.compile program).2.compileEach steps).1 := rfl
          rw [hkept, compileEach_cons ha, hrest, h]
          rfl

/-! ## Main statement -/

/-- **Transactions**: after any sequence of programs, a program that cannot be compiled leaves the whole
state as it is, and the error is about the program. One that can be compiled leaves no function open, tables
of the same depth, and the constants with others behind them. Hence a sequence may do without the programs
that cannot be compiled, and it makes no difference where the state is put into a new compilation. -/
theorem compileEach_transaction (c : Compiler) (steps : List (Program × Bool)) (program : Program) :
    let results := ((resume c).compileEach steps).1
    let a := ((resume c).compileEach steps).2
    (match a.compile program with
      | (.error e, a') => a' = a ∧ e.concernsProgram = true
      | (.ok _, a') => a'.emitter = {} ∧ a'.around = [] ∧
          a'.symbols.outer.length = a.symbols.outer.length ∧
          a.constants.toList <+: a'.constants.toList) ∧
      (resume c).compileEach (compiled steps results) = (results.filter (·.isOk), a) ∧
      (resume c).compileEach (steps.map fun step => (step.1, false)) = (results, a) ∧
      resume a.compiler = a := by
  have hstart := resume_atRest c
  intro results a
  have ha : a.AtRest := compileEach_atRest hstart steps
  refine ⟨?_, compileEach_compiled hstart steps, compileEach_unmarked hstart steps, atRest_iff.mp ha⟩
  rcases h : a.compile program with ⟨result, a'⟩
  cases result with
  | error e =>
      have hfailed := compile_of_error ha (congrArg Prod.fst h)
      rwa [h] at hfailed
  | ok b =>
      have hdone := compile_of_ok (congrArg Prod.fst h)
      rw [h] at hdone
      exact ⟨hdone.1.1, hdone.1.2, hdone.2⟩

/-- A name that is missing two functions deep, behind a constant and a captured name. -/
example :
    let program := [.expr (.function none ["a"] [.expr (.integer 1),
      .expr (.function none [] [.expr (.identifier "a"), .expr (.identifier "missing")])])]
    ((resume .initial).compile program).1.isOk = false ∧
      ((resume .initial).compile program).2.constants = #[] := by
  constructor
  · decide +kernel
  · rfl

end Assembly

end ScriptLang
