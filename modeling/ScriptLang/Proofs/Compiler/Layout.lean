import ScriptLang.Compiler
import ScriptLang.Proofs.Bytecode.Stream

/-!
# The layout of compiled code

`Emits part c offset is c'` says which instructions the code of a part of a program consists of, when it
stands at `offset` and the compiler goes from `c` to `c'`. The compiler gets there by writing
instructions, taking some back and filling in the targets of jumps later; here the final instructions of
a part are those of its parts with something between and behind them.

An operation (`Expr.operands?`, `Expr.instruction?`) is the code of its operands and one instruction that
combines their values, so one rule covers arrays, hashes, operators, calls and indexing. Only `<` has a
rule of its own, because its operands come in the opposite order.
-/

namespace ScriptLang

/-! ## Parts of programs -/

/-- The parts of a program that have code of their own. -/
inductive Part where
  | expr (e : Expr)
  | exprs (es : List Expr)
  | stmt (s : Stmt)
  | stmts (ss : List Stmt)
  /-- A branch of an `if`. -/
  | branch (block : List Stmt)
  /-- The body of a function. -/
  | body (block : List Stmt)

/-- The keys and values of a hash literal in the order of the text. -/
def Expr.flatten : List (Expr × Expr) → List Expr
  | [] => []
  | (key, value) :: pairs => key :: value :: flatten pairs

@[simp] theorem Expr.length_flatten : ∀ pairs : List (Expr × Expr),
    (flatten pairs).length = pairs.length * 2
  | [] => rfl
  | (_, _) :: pairs => by simp [flatten, length_flatten pairs, Nat.add_mul]

/-- The operands of an operation, if an expression is one. -/
def Expr.operands? : Expr → Option (List Expr)
  | .array elements => some elements
  | .hash pairs => some (flatten pairs)
  | .unary _ operand => some [operand]
  | .binary left operator right => if operator = .lessThan then none else some [left, right]
  | .call callee arguments => some (callee :: arguments)
  | .index collection key => some [collection, key]
  | _ => none

/-- The instruction that combines the operands of an operation. -/
def Expr.instruction? : Expr → Option Instruction
  | .array elements => some (.array elements.length)
  | .hash pairs => some (.hash (pairs.length * 2))
  | .unary operator _ => operator.unaryInstruction.toOption
  | .binary _ operator _ => operator.binaryInstruction.toOption
  | .call _ arguments => some (.call arguments.length)
  | .index _ _ => some .index
  | _ => none

/-- The constant that a literal loads, if it loads one. -/
def Expr.constant? : Expr → Option Value
  | .integer value => some (.integer value)
  | .string contents => some (.string contents)
  | _ => none

/-- Whether a statement leaves a value that is taken off the stack at once. -/
def Stmt.isExpr : Stmt → Bool
  | .expr _ => true
  | _ => false

/-- Whether a statement returns a value. -/
def Stmt.returnsValue : Stmt → Bool
  | .return (some _) => true
  | _ => false

theorem Stmt.isExpr_eq_true_iff {s : Stmt} : s.isExpr = true ↔ ∃ value, s = .expr value := by
  cases s <;> simp [isExpr]

theorem Stmt.returnsValue_eq_true_iff {s : Stmt} :
    s.returnsValue = true ↔ ∃ value, s = .return (some value) := by
  cases s with
  | «return» value => cases value <;> simp [returnsValue]
  | «let» name value => simp [returnsValue]
  | expr value => simp [returnsValue]

/-! ## Symbols and instructions -/

/-- The instruction that loads what a symbol stands for. -/
def Symbol.loadInstruction (symbol : Symbol) : Instruction :=
  match symbol.place with
  | .global => .getGlobal symbol.index
  | .local => .getLocal symbol.index
  | .builtin => .getBuiltin symbol.index
  | .free => .getFree symbol.index
  | .function => .currentClosure

/-- The instruction that stores a value under a symbol. -/
def Symbol.storeInstruction (symbol : Symbol) : Instruction :=
  match symbol.place with
  | .global => .setGlobal symbol.index
  | _ => .setLocal symbol.index

namespace Symbols

/-- The tables inside a function, before its body. -/
def openFunction (symbols : Symbols) (name : Option String) (parameters : List String) : Symbols :=
  parameters.foldl define <|
    match name with
    | some name => symbols.enter.defineFunctionName name
    | none => symbols.enter

/-- The tables behind the body of a function. -/
def leave (symbols : Symbols) : Symbols := symbols.leave?.getD symbols

end Symbols

/-! ## The layout -/

/-- The instructions of a part of a program at an offset. The rule for `if` says where its jumps go: to
the first instruction of the alternative, and behind its last one. A missing alternative has the code of
an empty one. -/
inductive Emits : Part → Compiler → Nat → Instructions → Compiler → Prop where
  | identifier {c : Compiler} {offset : Nat} {name : String} {symbol : Symbol} {symbols : Symbols} :
      c.symbols.resolve? name = some (symbol, symbols) →
      Emits (.expr (.identifier name)) c offset [symbol.loadInstruction] { c with symbols }
  | constant {c : Compiler} {offset : Nat} {e : Expr} {v : Value} :
      e.constant? = some v →
      Emits (.expr e) c offset [.constant c.constants.size]
        { c with constants := c.constants.push v }
  | boolean {c : Compiler} {offset : Nat} {value : Bool} :
      Emits (.expr (.boolean value)) c offset [if value then .true else .false] c
  | operation {c c' : Compiler} {offset : Nat} {e : Expr} {es : List Expr} {is : Instructions}
      {i : Instruction} :
      e.operands? = some es → e.instruction? = some i →
      Emits (.exprs es) c offset is c' →
      Emits (.expr e) c offset (is ++ [i]) c'
  | less {c c' : Compiler} {offset : Nat} {left right : Expr} {is : Instructions} :
      Emits (.exprs [right, left]) c offset is c' →
      Emits (.expr (.binary left .lessThan right)) c offset (is ++ [.greaterThan]) c'
  | if {c c₁ c₂ c₃ : Compiler} {offset start : Nat} {condition : Expr} {consequence : List Stmt}
      {alternative : Option (List Stmt)} {is js ks : Instructions} :
      Emits (.expr condition) c offset is c₁ →
      Emits (.branch consequence) c₁ (offset + Instructions.size is + 3) js c₂ →
      start = offset + Instructions.size is + 3 + Instructions.size js + 3 →
      Emits (.branch (alternative.getD [])) c₂ start ks c₃ →
      Emits (.expr (.if condition consequence alternative)) c offset
        (is ++ .jumpNotTruthy start :: (js ++ .jump (start + Instructions.size ks) :: ks)) c₃
  | function {c c' : Compiler} {offset : Nat} {name : Option String} {parameters : List String}
      {body : List Stmt} {is : Instructions} :
      Emits (.body body) { c with symbols := c.symbols.openFunction name parameters } 0 is c' →
      (∀ i ∈ is, i.Fits) →
      Emits (.expr (.function name parameters body)) c offset
        (c'.symbols.inner.captures.map Symbol.loadInstruction ++
          [.closure c'.constants.size c'.symbols.inner.captures.length])
        { symbols := c'.symbols.leave
          constants := c'.constants.push (.compiledFunction
            ⟨Instructions.toCode is, c'.symbols.inner.numDefinitions, parameters.length⟩) }
  | exprs_nil {c : Compiler} {offset : Nat} : Emits (.exprs []) c offset [] c
  | exprs_cons {c c₁ c₂ : Compiler} {offset : Nat} {e : Expr} {es : List Expr}
      {is js : Instructions} :
      Emits (.expr e) c offset is c₁ →
      Emits (.exprs es) c₁ (offset + Instructions.size is) js c₂ →
      Emits (.exprs (e :: es)) c offset (is ++ js) c₂
  | let {c c' : Compiler} {offset : Nat} {name : String} {value : Expr} {is : Instructions} :
      Emits (.expr value) c offset is c' →
      Emits (.stmt (.let name value)) c offset
        (is ++ [(c'.symbols.definedSymbol name).storeInstruction])
        { c' with symbols := c'.symbols.define name }
  | return_none {c : Compiler} {offset : Nat} : Emits (.stmt (.return none)) c offset [.return] c
  | return_some {c c' : Compiler} {offset : Nat} {value : Expr} {is : Instructions} :
      Emits (.expr value) c offset is c' →
      Emits (.stmt (.return (some value))) c offset (is ++ [.returnValue]) c'
  | expr {c c' : Compiler} {offset : Nat} {value : Expr} {is : Instructions} :
      Emits (.expr value) c offset is c' →
      Emits (.stmt (.expr value)) c offset (is ++ [.pop]) c'
  | stmts_nil {c : Compiler} {offset : Nat} : Emits (.stmts []) c offset [] c
  | stmts_cons {c c₁ c₂ : Compiler} {offset : Nat} {s : Stmt} {ss : List Stmt}
      {is js : Instructions} :
      Emits (.stmt s) c offset is c₁ →
      Emits (.stmts ss) c₁ (offset + Instructions.size is) js c₂ →
      Emits (.stmts (s :: ss)) c offset (is ++ js) c₂
  | branch_nil {c : Compiler} {offset : Nat} : Emits (.branch []) c offset [.null] c
  | branch_value {c c' : Compiler} {offset : Nat} {value : Expr} {is : Instructions} :
      Emits (.expr value) c offset is c' →
      Emits (.branch [.expr value]) c offset is c'
  | branch_cons {c c₁ c₂ : Compiler} {offset : Nat} {s : Stmt} {ss : List Stmt}
      {is js : Instructions} :
      (ss = [] → s.isExpr = false) →
      Emits (.stmt s) c offset is c₁ →
      Emits (.branch ss) c₁ (offset + Instructions.size is) js c₂ →
      Emits (.branch (s :: ss)) c offset (is ++ js) c₂
  | body_nil {c : Compiler} {offset : Nat} : Emits (.body []) c offset [.return] c
  | body_value {c c' : Compiler} {offset : Nat} {value : Expr} {is : Instructions} :
      Emits (.expr value) c offset is c' →
      Emits (.body [.expr value]) c offset (is ++ [.returnValue]) c'
  | body_return {c c' : Compiler} {offset : Nat} {value : Expr} {is : Instructions} :
      Emits (.expr value) c offset is c' →
      Emits (.body [.return (some value)]) c offset (is ++ [.returnValue]) c'
  | body_cons {c c₁ c₂ : Compiler} {offset : Nat} {s : Stmt} {ss : List Stmt}
      {is js : Instructions} :
      (ss = [] → s.isExpr = false ∧ s.returnsValue = false) →
      Emits (.stmt s) c offset is c₁ →
      Emits (.body ss) c₁ (offset + Instructions.size is) js c₂ →
      Emits (.body (s :: ss)) c offset (is ++ js) c₂

end ScriptLang
