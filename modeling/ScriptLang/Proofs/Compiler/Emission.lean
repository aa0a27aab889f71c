import ScriptLang.Proofs.Compiler.Layout
import ScriptLang.Proofs.Compiler.Transaction

/-!
# What compilation writes

A successful compilation writes the instructions that the layout of the program asks for, and nothing
else. Main statement: `Compiler.compile_emits`.

`Wrote a is a'` compares the code before and behind a step: the instructions `is` were added at the end.
Patches and instructions that are taken back stay inside a step, so no step changes what was there before.
-/

namespace ScriptLang

/-! ## Steps of a compilation

What is known of a step that succeeds, one equivalence for each thing that a step can be put together from. A
compilation that succeeds is taken apart with these lemmas until only states are left. -/

namespace CompileM

variable {α β : Type}

/-- Two steps succeed if the first one does, and the second from where the first one ends. -/
theorem bind_eq_ok {x : CompileM α} {f : α → CompileM β} {a a₂ : Assembly} {r : β} :
    (x >>= f) a = .ok r a₂ ↔ ∃ b a₁, x a = .ok b a₁ ∧ f b a₁ = .ok r a₂ := by
  show EStateM.bind x f a = .ok r a₂ ↔ _
  rw [EStateM.bind]
  cases x a with
  | error e a₁ => simp
  | ok b a₁ =>
      constructor
      · intro h
        exact ⟨b, a₁, rfl, h⟩
      · rintro ⟨b, a₁, hb, h⟩
        cases hb
        exact h

theorem pure_eq_ok {b r : β} {a a' : Assembly} :
    (pure b : CompileM β) a = .ok r a' ↔ (b, a) = (r, a') := by
  show EStateM.Result.ok b a = .ok r a' ↔ _
  rw [EStateM.Result.ok.injEq, Prod.mk.injEq]

theorem get_eq_ok {a r a' : Assembly} : (get : CompileM Assembly) a = .ok r a' ↔ (a, a) = (r, a') :=
  pure_eq_ok

theorem set_eq_ok {s a a' : Assembly} {r : Unit} : (set s : CompileM Unit) a = .ok r a' ↔ s = a' := by
  show EStateM.Result.ok () s = .ok r a' ↔ _
  rw [EStateM.Result.ok.injEq, and_iff_right rfl]

theorem modify_eq_ok {f : Assembly → Assembly} {a a' : Assembly} {r : Unit} :
    (modify f : CompileM Unit) a = .ok r a' ↔ f a = a' := set_eq_ok (a := a)

theorem modifyGet_eq_ok {f : Assembly → β × Assembly} {a a' : Assembly} {r : β} :
    (modifyGet f : CompileM β) a = .ok r a' ↔ f a = (r, a') := by
  show EStateM.Result.ok (f a).1 (f a).2 = .ok r a' ↔ _
  rw [EStateM.Result.ok.injEq, Prod.ext_iff]

theorem not_throw_eq_ok {e : CompileError} {a a' : Assembly} {r : β} :
    ¬ (throw e : CompileM β) a = .ok r a' := by
  show ¬ EStateM.Result.error e a = .ok r a'
  simp

theorem ofExcept_eq_ok {x : Except CompileError β} {a a' : Assembly} {r : β} :
    (MonadExcept.ofExcept x : CompileM β) a = .ok r a' ↔ x = .ok r ∧ a = a' := by
  cases x with
  | error e => simpa [MonadExcept.ofExcept] using not_throw_eq_ok
  | ok b =>
      rw [Except.ok.injEq, ← Prod.mk.injEq]
      exact pure_eq_ok

/-- The operands of an instruction pass the check exactly if they fit. -/
theorem checkOperands_eq_ok {i : Instruction} {a a' : Assembly} {r : Unit} :
    checkOperands i a = .ok r a' ↔ i.Fits ∧ a = a' := by
  rw [checkOperands, Instruction.Fits]
  cases i.overflow? with
  | none => simpa using pure_eq_ok (b := ()) (r := r)
  | some p => simpa using not_throw_eq_ok

theorem emit_apply (i : Instruction) (a : Assembly) :
    emit i a = match i.overflow? with
      | none => .ok () { a with emitter := a.emitter.append i }
      | some (operand, width) => .error (.operandOverflow i.opcode operand width) a := by
  unfold emit checkOperands
  cases i.overflow? <;> rfl

theorem patch_apply (position : Nat) (i : Instruction) (a : Assembly) :
    patch position i a = match i.overflow? with
      | none => .ok () { a with emitter := a.emitter.patch position i }
      | some (operand, width) => .error (.operandOverflow i.opcode operand width) a := by
  unfold patch checkOperands
  cases i.overflow? <;> rfl

/-- Writing an instruction succeeds exactly if its operands fit. -/
theorem emit_eq_ok {i : Instruction} {a a' : Assembly} {r : Unit} :
    emit i a = .ok r a' ↔ i.Fits ∧ { a with emitter := a.emitter.append i } = a' := by
  simp only [emit, bind_eq_ok, checkOperands_eq_ok, modify_eq_ok]
  constructor
  · rintro ⟨_, _, ⟨hfit, rfl⟩, h⟩
    exact ⟨hfit, h⟩
  · rintro ⟨hfit, h⟩
    exact ⟨(), a, ⟨hfit, rfl⟩, h⟩

/-- Filling in a jump succeeds exactly if its target fits. -/
theorem patch_eq_ok {position : Nat} {i : Instruction} {a a' : Assembly} {r : Unit} :
    patch position i a = .ok r a' ↔
      i.Fits ∧ { a with emitter := a.emitter.patch position i } = a' := by
  simp only [patch, bind_eq_ok, checkOperands_eq_ok, modify_eq_ok]
  constructor
  · rintro ⟨_, _, ⟨hfit, rfl⟩, h⟩
    exact ⟨hfit, h⟩
  · rintro ⟨hfit, h⟩
    exact ⟨(), a, ⟨hfit, rfl⟩, h⟩

theorem position_eq_ok {a a' : Assembly} {r : Nat} :
    position a = .ok r a' ↔ (a.emitter.position, a) = (r, a') := by
  simp only [position, bind_eq_ok, get_eq_ok]
  constructor
  · rintro ⟨_, _, h, hr⟩
    cases h
    exact pure_eq_ok.mp hr
  · intro hr
    exact ⟨a, a, rfl, pure_eq_ok.mpr hr⟩

end CompileM

/-- Between two states of a compilation some instructions were written in the function at hand, and their
operands fit. -/
structure Wrote (a : Assembly) (is : Instructions) (a' : Assembly) : Prop where
  code : a'.emitter.code.toList = a.emitter.code.toList ++ Instructions.encode is
  fits : ∀ i ∈ is, i.Fits
  around : a'.around = a.around

namespace Wrote

variable {a a₁ a₂ : Assembly} {is js : Instructions}

theorem nil (a : Assembly) : Wrote a [] a := ⟨by simp, by simp, rfl⟩

theorem trans (h₁ : Wrote a is a₁) (h₂ : Wrote a₁ js a₂) : Wrote a (is ++ js) a₂ := by
  constructor
  · rw [h₂.code, h₁.code]
    simp
  · intro i hi
    rcases List.mem_append.mp hi with hi | hi
    · exact h₁.fits i hi
    · exact h₂.fits i hi
  · exact h₂.around.trans h₁.around

theorem fits_append {i : Instruction} (h : Wrote a is a₁) (hfit : i.Fits) :
    ∀ j ∈ is ++ [i], j.Fits := by
  intro j hj
  rcases List.mem_append.mp hj with hj | hj
  · exact h.fits j hj
  · rw [List.mem_singleton.mp hj]
    exact hfit

/-- The code has grown by the size of what was written. -/
theorem position (h : Wrote a is a₁) :
    a₁.emitter.position = a.emitter.position + Instructions.size is := by
  have hlen := congrArg List.length h.code
  simpa [Emitter.position, Instructions.size] using hlen

end Wrote

theorem Emitter.toList_append (e : Emitter) (i : Instruction) :
    (e.append i).code.toList = e.code.toList ++ i.encode := by
  simp [Emitter.append]

theorem Emitter.position_append (e : Emitter) (i : Instruction) :
    (e.append i).position = e.position + i.size := by
  rw [position, ← Array.length_toList, toList_append, List.length_append, Array.length_toList]
  rfl

/-- Filling in the target of a jump changes that jump alone. -/
theorem Emitter.toList_patch {e : Emitter} {pre post : List UInt8} {i j : Instruction}
    {position : Nat} (h : e.code.toList = pre ++ i.encode ++ post)
    (hposition : position = pre.length) (hsize : i.size = j.size) :
    (e.patch position j).code.toList = pre ++ j.encode ++ post := by
  subst hposition
  exact Code.toList_write_instruction pre post h hsize

theorem Code.size_write : ∀ (bytes : List UInt8) (code : Code) (offset : Nat),
    (code.write offset bytes).size = code.size
  | [], _, _ => rfl
  | byte :: bytes, code, offset => by
      rw [write, size_write bytes, Array.size_setIfInBounds]

theorem Emitter.position_patch (e : Emitter) (position : Nat) (i : Instruction) :
    (e.patch position i).position = e.position := Code.size_write _ _ _

theorem Emitter.endsWith_append (e : Emitter) (i : Instruction) (op : Opcode) :
    (e.append i).endsWith op = decide (i.opcode = op) := rfl

namespace CompileM

/-- Writing one instruction. -/
theorem emit_wrote {i : Instruction} {a a' : Assembly} (h : emit i a = .ok () a') :
    Wrote a [i] a' ∧ a'.compiler = a.compiler ∧ a'.emitter = a.emitter.append i := by
  obtain ⟨hfit, h⟩ := emit_eq_ok.mp h
  cases h
  refine ⟨⟨?_, ?_, rfl⟩, rfl, rfl⟩
  · simp [Emitter.toList_append]
  · intro j hj
    rw [List.mem_singleton.mp hj]
    exact hfit

/-- A constant is added to the pool, and loaded from where it was put. -/
theorem loadConstant_emits {v : Value} {a a' : Assembly} (h : loadConstant v a = .ok () a') :
    Wrote a [.constant a.constants.size] a' ∧
      a'.compiler = ⟨a.symbols, a.constants.push v⟩ := by
  simp only [loadConstant, addConstant, bind_eq_ok, modifyGet_eq_ok] at h
  obtain ⟨_, a₁, h₁, h⟩ := h
  cases h₁
  obtain ⟨hw, hc, -⟩ := emit_wrote h
  exact ⟨⟨hw.code, hw.fits, hw.around⟩, hc⟩

theorem load_eq_emit (symbol : Symbol) : load symbol = emit symbol.loadInstruction := by
  rw [load, Symbol.loadInstruction]
  cases symbol.place <;> rfl

/-- A name is looked up, and the symbol that was found is loaded. -/
theorem loadName_emits {name : String} {a a' : Assembly} (h : loadName name a = .ok () a') :
    ∃ is, Emits (.expr (.identifier name)) a.compiler a.emitter.position is a'.compiler ∧
      Wrote a is a' := by
  cases hresolve : a.symbols.resolve? name with
  | none =>
      rw [loadName_of_none hresolve] at h
      cases h
  | some p =>
      obtain ⟨symbol, symbols⟩ := p
      rw [loadName_of_some hresolve, load_eq_emit] at h
      obtain ⟨hw, hc, -⟩ := emit_wrote h
      refine ⟨[symbol.loadInstruction], ?_, ⟨hw.code, hw.fits, hw.around⟩⟩
      rw [hc]
      exact .identifier hresolve

/-- A name is defined, and the store goes to its slot. -/
theorem store_apply (name : String) (a : Assembly) :
    store name a = emit (a.symbols.definedSymbol name).storeInstruction
      { a with symbols := a.symbols.define name } := by
  simp only [store, bind_apply, get_apply, Symbol.storeInstruction]
  cases (a.symbols.definedSymbol name).place <;> rfl

/-- Storing writes one instruction, in tables that have the definition. -/
theorem store_emits {name : String} {a a' : Assembly} (h : store name a = .ok () a') :
    Wrote a [(a.symbols.definedSymbol name).storeInstruction] a' ∧
      a'.compiler = ⟨a.symbols.define name, a.constants⟩ ∧
      a'.emitter = a.emitter.append (a.symbols.definedSymbol name).storeInstruction := by
  rw [store_apply] at h
  obtain ⟨hw, hc, he⟩ := emit_wrote h
  exact ⟨⟨hw.code, hw.fits, hw.around⟩, hc, he⟩

/-- Loading some symbols one after the other. -/
theorem forM_load_wrote : ∀ (symbols : List Symbol) {a a' : Assembly},
    symbols.forM load a = .ok () a' →
    Wrote a (symbols.map Symbol.loadInstruction) a' ∧ a'.compiler = a.compiler
  | [], a, a', h => by
      have h := pure_eq_ok.mp h
      cases h
      exact ⟨.nil a, rfl⟩
  | symbol :: symbols, a, a', h => by
      have h := bind_eq_ok.mp h
      obtain ⟨_, a₁, h₁, h⟩ := h
      rw [load_eq_emit] at h₁
      obtain ⟨hw₁, hc₁, -⟩ := emit_wrote h₁
      obtain ⟨hw, hc⟩ := forM_load_wrote symbols h
      exact ⟨hw₁.trans hw, hc.trans hc₁⟩

/-- A function is a constant; behind its captured values the closure is made. -/
theorem loadFunction_wrote {code : Code} {table : SymbolTable} {numParameters : Nat}
    {a a' : Assembly} (h : loadFunction code table numParameters a = .ok () a') :
    Wrote a (table.captures.map Symbol.loadInstruction ++
      [.closure a.constants.size table.captures.length]) a' ∧
      a'.compiler = ⟨a.symbols,
        a.constants.push (.compiledFunction ⟨code, table.numDefinitions, numParameters⟩)⟩ := by
  simp only [loadFunction, addConstant, bind_eq_ok, modifyGet_eq_ok] at h
  obtain ⟨_, a₁, h₁, _, a₂, h₂, h⟩ := h
  obtain ⟨hw₁, hc₁⟩ := forM_load_wrote _ h₁
  have hsym : a₁.symbols = a.symbols := congrArg Compiler.symbols hc₁
  have hcon : a₁.constants = a.constants := congrArg Compiler.constants hc₁
  cases h₂
  obtain ⟨hw, hc, -⟩ := emit_wrote h
  rw [hcon] at hw
  refine ⟨hw₁.trans ⟨hw.code, hw.fits, hw.around⟩, ?_⟩
  rw [hc, ← hsym, ← hcon]
  rfl

end CompileM

/-- The check of the operands changes nothing. -/
theorem checkLiteralOperands_apply (left right : Expr) (operator : Operator) (a : Assembly) :
    checkLiteralOperands left operator right a = .ok () a ∨
      ∃ e, checkLiteralOperands left operator right a = .error e a := by
  unfold checkLiteralOperands
  cases left.literalKind? with
  | none => exact .inl rfl
  | some l =>
      cases right.literalKind? with
      | none => exact .inl rfl
      | some r =>
          cases hok : operator.accepts l r with
          | false => exact .inr ⟨_, by simp only [hok]; rfl⟩
          | true => exact .inl (by simp only [hok]; rfl)

theorem checkLiteralOperands_eq {left right : Expr} {operator : Operator} {a a' : Assembly}
    (h : checkLiteralOperands left operator right a = .ok () a') : a' = a := by
  obtain hok | ⟨e, herror⟩ := checkLiteralOperands_apply left right operator a
  · cases hok.symm.trans h
    rfl
  · cases herror.symm.trans h

/-! ## How branches and bodies end

Whether the last statement of a branch or a body leaves a value cannot be seen from the bytes, so the compiler
looks at the last instruction that it wrote. These lemmas say what that comes to in terms of the last
statement. -/

namespace CompileM

/-- Behind an expression statement a branch takes the `pop` back. -/
theorem endBranch_append_pop {a a' : Assembly} {e : Emitter}
    (he : a.emitter = e.append .pop) (h : endBranch a = .ok () a') :
    a'.emitter.code.toList = e.code.toList ∧ a'.compiler = a.compiler ∧ a'.around = a.around := by
  have hends : a.emitter.endsWith .pop = true := by rw [he]; rfl
  simp only [endBranch, bind_eq_ok, get_eq_ok] at h
  obtain ⟨_, _, h₀, h⟩ := h
  cases h₀
  rw [if_pos hends] at h
  have h := modify_eq_ok.mp h
  cases h
  refine ⟨?_, rfl, rfl⟩
  simp only [he, Emitter.append, Emitter.removeLast]
  exact Code.toList_truncate e.code.toList Instruction.pop.encode (by simp)

/-- Behind any other statement, and in an empty branch, there is a `null`. -/
theorem endBranch_wrote {a a' : Assembly} (hends : a.emitter.endsWith .pop = false)
    (h : endBranch a = .ok () a') : Wrote a [.null] a' ∧ a'.compiler = a.compiler := by
  simp only [endBranch, bind_eq_ok, get_eq_ok] at h
  obtain ⟨_, _, h₀, h⟩ := h
  cases h₀
  rw [if_neg (by simp [hends])] at h
  obtain ⟨hw, hc, -⟩ := emit_wrote h
  exact ⟨hw, hc⟩

/-- Behind an expression statement a body turns the `pop` into a `returnValue`. -/
theorem endBody_append_pop {a a' : Assembly} {e : Emitter} (he : a.emitter = e.append .pop)
    (h : endBody a = .ok () a') :
    a'.emitter.code.toList = e.code.toList ++ Instruction.returnValue.encode ∧
      a'.compiler = a.compiler ∧ a'.around = a.around := by
  have hends : a.emitter.endsWith .pop = true := by rw [he]; rfl
  have hreturn : a.emitter.returnLast.endsWith .returnValue = true := by rw [he]; rfl
  simp only [endBody, bind_eq_ok, get_eq_ok] at h
  obtain ⟨_, _, h₀, h⟩ := h
  cases h₀
  rw [if_pos hends] at h
  simp only [bind_eq_ok, modify_eq_ok, get_eq_ok] at h
  obtain ⟨_, _, h₁, _, _, h₂, h⟩ := h
  cases h₁
  cases h₂
  rw [if_pos hreturn] at h
  cases pure_eq_ok.mp h
  refine ⟨?_, rfl, rfl⟩
  have hcode : (e.append .pop).code.toList = e.code.toList ++ Instruction.pop.encode ++ [] := by
    simp [Emitter.toList_append]
  have hsize : Instruction.pop.size = Instruction.returnValue.size := rfl
  have hwrite := Code.toList_write_instruction _ _ hcode hsize
  rw [List.append_nil] at hwrite
  rw [← hwrite, he]
  rfl

/-- Behind a statement that returns a value a body needs nothing more. -/
theorem endBody_of_returnValue {a a' : Assembly} (hends : a.emitter.endsWith .pop = false)
    (hreturn : a.emitter.endsWith .returnValue = true) (h : endBody a = .ok () a') : a' = a := by
  simp only [endBody, bind_eq_ok, get_eq_ok] at h
  obtain ⟨_, _, h₀, h⟩ := h
  cases h₀
  rw [if_neg (by simp [hends])] at h
  simp only [bind_eq_ok, get_eq_ok] at h
  obtain ⟨_, _, h₁, h⟩ := h
  cases h₁
  rw [if_pos hreturn] at h
  cases pure_eq_ok.mp h
  rfl

/-- Behind any other statement, and in an empty body, there is a `return`. -/
theorem endBody_wrote {a a' : Assembly} (hends : a.emitter.endsWith .pop = false)
    (hreturn : a.emitter.endsWith .returnValue = false) (h : endBody a = .ok () a') :
    Wrote a [.return] a' ∧ a'.compiler = a.compiler := by
  simp only [endBody, bind_eq_ok, get_eq_ok] at h
  obtain ⟨_, _, h₀, h⟩ := h
  cases h₀
  rw [if_neg (by simp [hends])] at h
  simp only [bind_eq_ok, get_eq_ok] at h
  obtain ⟨_, _, h₁, h⟩ := h
  cases h₁
  rw [if_neg (by simp [hreturn])] at h
  obtain ⟨hw, hc, -⟩ := emit_wrote h
  exact ⟨hw, hc⟩

/-- Behind a function the code around it goes on. -/
theorem endFunction_eq_ok {a a' : Assembly} {emitter : Emitter} {around : List Emitter} {code : Code}
    {table : SymbolTable} (haround : a.around = emitter :: around)
    (h : endFunction a = .ok (code, table) a') :
    code = a.emitter.code ∧ table = a.symbols.inner ∧
      a' = ⟨a.constants, a.symbols.leave, emitter, around⟩ := by
  simp only [endFunction, bind_eq_ok, get_eq_ok] at h
  obtain ⟨_, _, h₀, h⟩ := h
  cases h₀
  simp only [haround, bind_eq_ok, set_eq_ok] at h
  obtain ⟨_, _, rfl, h⟩ := h
  cases hleave : a.symbols.leave? with
  | none =>
      simp only [hleave] at h
      exact absurd h not_throw_eq_ok
  | some symbols =>
      simp only [hleave, bind_eq_ok, set_eq_ok] at h
      obtain ⟨_, _, rfl, h⟩ := h
      cases pure_eq_ok.mp h
      exact ⟨rfl, rfl, by rw [Symbols.leave, hleave, Option.getD_some]⟩

end CompileM

/-! ## Parts of programs

One lemma for each rule of the layout (`Emits`): if the steps for the parts write the code that the layout
asks for, the step for the whole does too. -/

open CompileM

/-- A compilation writes the code of a part. -/
def Writes (part : Part) (a a' : Assembly) : Prop :=
  ∃ is, Emits part a.compiler a.emitter.position is a'.compiler ∧ Wrote a is a'

/-- One instruction behind the operands of an operation. -/
theorem Writes.operation {e : Expr} {es : List Expr} {i : Instruction} {a a₁ a' : Assembly}
    (hes : e.operands? = some es) (hi : e.instruction? = some i)
    (h : Writes (.exprs es) a a₁) (hemit : emit i a₁ = .ok () a') : Writes (.expr e) a a' := by
  obtain ⟨is, hlayout, hw⟩ := h
  obtain ⟨hw', hc, -⟩ := emit_wrote hemit
  refine ⟨is ++ [i], ?_, hw.trans hw'⟩
  rw [hc]
  exact .operation hes hi hlayout

/-- A comparison with its operands the other way round. -/
theorem Writes.less {left right : Expr} {a a₁ a' : Assembly}
    (h : Writes (.exprs [right, left]) a a₁) (hemit : emit .greaterThan a₁ = .ok () a') :
    Writes (.expr (.binary left .lessThan right)) a a' := by
  obtain ⟨is, hlayout, hw⟩ := h
  obtain ⟨hw', hc, -⟩ := emit_wrote hemit
  refine ⟨is ++ [.greaterThan], ?_, hw.trans hw'⟩
  rw [hc]
  exact .less hlayout

theorem Writes.exprs_nil (a : Assembly) : Writes (.exprs []) a a := ⟨[], .exprs_nil, .nil a⟩

theorem Writes.exprs_cons {e : Expr} {es : List Expr} {a a₁ a' : Assembly}
    (h₁ : Writes (.expr e) a a₁) (h : Writes (.exprs es) a₁ a') : Writes (.exprs (e :: es)) a a' := by
  obtain ⟨is, hlayout₁, hw₁⟩ := h₁
  obtain ⟨js, hlayout, hw⟩ := h
  rw [hw₁.position] at hlayout
  exact ⟨is ++ js, .exprs_cons hlayout₁ hlayout, hw₁.trans hw⟩

/-- A compilation writes the code of a statement. What a branch or a body needs to know about its last
statement is whether it leaves a value, and the state in front of the instruction that drops or returns
this value. -/
inductive WritesStmt : Stmt → Assembly → Assembly → Prop where
  | value {value : Expr} {a a₁ : Assembly} :
      Writes (.expr value) a a₁ → Instruction.pop.Fits →
      WritesStmt (.expr value) a { a₁ with emitter := a₁.emitter.append .pop }
  | returnValue {value : Expr} {a a₁ : Assembly} :
      Writes (.expr value) a a₁ → Instruction.returnValue.Fits →
      WritesStmt (.return (some value)) a { a₁ with emitter := a₁.emitter.append .returnValue }
  | other {s : Stmt} {a a' : Assembly} :
      Writes (.stmt s) a a' → s.isExpr = false → s.returnsValue = false →
      a'.emitter.endsWith .pop = false → a'.emitter.endsWith .returnValue = false →
      WritesStmt s a a'

/-- The code of a statement, without what is known of its end. -/
theorem WritesStmt.writes {s : Stmt} {a a' : Assembly} (h : WritesStmt s a a') :
    Writes (.stmt s) a a' := by
  cases h with
  | value h hfit =>
      obtain ⟨is, hlayout, hw⟩ := h
      refine ⟨is ++ [.pop], .expr hlayout, ?_, hw.fits_append hfit, hw.around⟩
      rw [Emitter.toList_append, hw.code]
      simp
  | returnValue h hfit =>
      obtain ⟨is, hlayout, hw⟩ := h
      refine ⟨is ++ [.returnValue], .return_some hlayout, ?_, hw.fits_append hfit, hw.around⟩
      rw [Emitter.toList_append, hw.code]
      simp
  | other h => exact h

/-- The jumps of an `if` are written before their targets are known, and filled in later. -/
theorem Writes.if {condition : Expr} {consequence : List Stmt} {alternative : Option (List Stmt)}
    {a a₁ a₂ a₃ a₄ : Assembly}
    (h₁ : Writes (.expr condition) a a₁)
    (h₂ : Writes (.branch consequence)
      { a₁ with emitter := a₁.emitter.append (.jumpNotTruthy 9999) } a₂)
    (ha₃ : a₃ = { a₂ with
      emitter := (a₂.emitter.append (.jump 9999)).patch a₁.emitter.position
        (.jumpNotTruthy (a₂.emitter.append (.jump 9999)).position) })
    (hfit₃ : (Instruction.jumpNotTruthy (a₂.emitter.append (.jump 9999)).position).Fits)
    (h₄ : Writes (.branch (alternative.getD [])) a₃ a₄)
    (hfit₅ : (Instruction.jump a₄.emitter.position).Fits) :
    Writes (.expr (.if condition consequence alternative)) a
      { a₄ with emitter := a₄.emitter.patch a₂.emitter.position (.jump a₄.emitter.position) } := by
  obtain ⟨is, hlayout₁, hw₁⟩ := h₁
  obtain ⟨js, hlayout₂, hw₂⟩ := h₂
  obtain ⟨ks, hlayout₄, hw₄⟩ := h₄
  have hsize₁ := hw₁.position
  -- the code in front of the first jump, behind it, and in front of the second one
  have hcode₁ : a₂.emitter.code.toList = a₁.emitter.code.toList ++
      (Instruction.jumpNotTruthy 9999).encode ++ Instructions.encode js := by
    rw [hw₂.code, Emitter.toList_append]
  have hsize₂ : a₂.emitter.position =
      a.emitter.position + Instructions.size is + 3 + Instructions.size js := by
    rw [hw₂.position, Emitter.position_append, hsize₁]
    rfl
  have hsize₃ : (a₂.emitter.append (.jump 9999)).position =
      a.emitter.position + Instructions.size is + 3 + Instructions.size js + 3 := by
    rw [Emitter.position_append, hsize₂]
    rfl
  have hcode₃ : a₃.emitter.code.toList = a₁.emitter.code.toList ++
      (Instruction.jumpNotTruthy (a₂.emitter.append (.jump 9999)).position).encode ++
      (Instructions.encode js ++ (Instruction.jump 9999).encode) := by
    rw [ha₃]
    refine Emitter.toList_patch (i := .jumpNotTruthy 9999) ?_ rfl rfl
    rw [Emitter.toList_append, hcode₁, List.append_assoc]
  have hsize₃' : a₃.emitter.position = (a₂.emitter.append (.jump 9999)).position := by
    rw [ha₃]
    exact Emitter.position_patch _ _ _
  have hsize₄ := hw₄.position
  have hcode₄ : a₄.emitter.code.toList = (a₁.emitter.code.toList ++
      (Instruction.jumpNotTruthy (a₂.emitter.append (.jump 9999)).position).encode ++
      Instructions.encode js) ++ (Instruction.jump 9999).encode ++ Instructions.encode ks := by
    rw [hw₄.code, hcode₃]
    simp
  have hcode₅ : (a₄.emitter.patch a₂.emitter.position (.jump a₄.emitter.position)).code.toList =
      (a₁.emitter.code.toList ++
        (Instruction.jumpNotTruthy (a₂.emitter.append (.jump 9999)).position).encode ++
        Instructions.encode js) ++
        (Instruction.jump a₄.emitter.position).encode ++ Instructions.encode ks := by
    refine Emitter.toList_patch hcode₄ ?_ rfl
    rw [Emitter.position, ← Array.length_toList, hcode₁]
    simp
    rfl
  refine ⟨is ++ .jumpNotTruthy (a₂.emitter.append (.jump 9999)).position ::
    (js ++ .jump a₄.emitter.position :: ks), ?_, ?_, ?_, ?_⟩
  · have hc₃ : a₃.compiler = a₂.compiler := by rw [ha₃]; rfl
    rw [Emitter.position_append, hsize₁] at hlayout₂
    rw [hsize₃', hc₃] at hlayout₄
    rw [hsize₄, hsize₃']
    exact .if hlayout₁ hlayout₂ hsize₃ hlayout₄
  · show (a₄.emitter.patch _ _).code.toList = _
    rw [hcode₅, hw₁.code]
    simp
  · intro i hi
    simp only [List.mem_append, List.mem_cons] at hi
    rcases hi with hi | rfl | hi | rfl | hi
    · exact hw₁.fits i hi
    · exact hfit₃
    · exact hw₂.fits i hi
    · exact hfit₅
    · exact hw₄.fits i hi
  · have haround₃ : a₃.around = a₂.around := by rw [ha₃]
    exact hw₄.around.trans (haround₃.trans (hw₂.around.trans hw₁.around))

/-- The end of a branch behind one of its statements that is not the last, or leaves no value. -/
theorem Writes.branch_cons {s : Stmt} {ss : List Stmt} {a a₁ a' : Assembly}
    (hs : ss = [] → s.isExpr = false) (h₁ : Writes (.stmt s) a a₁)
    (h : Writes (.branch ss) a₁ a') : Writes (.branch (s :: ss)) a a' := by
  obtain ⟨is, hlayout₁, hw₁⟩ := h₁
  obtain ⟨js, hlayout, hw⟩ := h
  rw [hw₁.position] at hlayout
  exact ⟨is ++ js, .branch_cons hs hlayout₁ hlayout, hw₁.trans hw⟩

/-- A branch that goes on with `ss` behind a statement. -/
theorem Writes.branch_stmt {s : Stmt} {ss : List Stmt} {a a₀ a₁ a' : Assembly}
    (h₀ : WritesStmt s a a₀) (h₁ : ss = [] → a₁ = a₀) (h : endBranch a₁ = .ok () a')
    (hrest : a₀.emitter.endsWith .pop = false ∨ ss ≠ [] → Writes (.branch ss) a₀ a') :
    Writes (.branch (s :: ss)) a a' := by
  by_cases hss : ss = []
  · subst hss
    obtain rfl := h₁ rfl
    cases h₀ with
    | value hvalue =>
        obtain ⟨is, hlayout, hw⟩ := hvalue
        obtain ⟨hcode, hc, haround⟩ := endBranch_append_pop rfl h
        refine ⟨is, ?_, ⟨hcode.trans hw.code, hw.fits, haround.trans hw.around⟩⟩
        rw [hc]
        exact .branch_value hlayout
    | returnValue hvalue hfit =>
        exact .branch_cons (fun _ => rfl) (WritesStmt.returnValue hvalue hfit).writes
          (hrest (.inl rfl))
    | other hw hs _ hpop _ => exact .branch_cons (fun _ => hs) hw (hrest (.inl hpop))
  · exact .branch_cons (fun hnil => absurd hnil hss) h₀.writes (hrest (.inr hss))

theorem Writes.stmts_nil (a : Assembly) : Writes (.stmts []) a a := ⟨[], .stmts_nil, .nil a⟩

theorem Writes.stmts_cons {s : Stmt} {ss : List Stmt} {a a₁ a' : Assembly}
    (h₁ : Writes (.stmt s) a a₁) (h : Writes (.stmts ss) a₁ a') : Writes (.stmts (s :: ss)) a a' := by
  obtain ⟨is, hlayout₁, hw₁⟩ := h₁
  obtain ⟨js, hlayout, hw⟩ := h
  rw [hw₁.position] at hlayout
  exact ⟨is ++ js, .stmts_cons hlayout₁ hlayout, hw₁.trans hw⟩

/-- In front of the last statement of a body, statements are written as anywhere else. -/
theorem Writes.body_cons {s : Stmt} {ss : List Stmt} {a a₁ a' : Assembly}
    (hs : ss = [] → s.isExpr = false ∧ s.returnsValue = false) (h₁ : Writes (.stmt s) a a₁)
    (h : Writes (.body ss) a₁ a') : Writes (.body (s :: ss)) a a' := by
  obtain ⟨is, hlayout₁, hw₁⟩ := h₁
  obtain ⟨js, hlayout, hw⟩ := h
  rw [hw₁.position] at hlayout
  exact ⟨is ++ js, .body_cons hs hlayout₁ hlayout, hw₁.trans hw⟩

/-- A body that goes on with `ss` behind a statement. -/
theorem Writes.body_stmt {s : Stmt} {ss : List Stmt} {a a₀ a₁ a' : Assembly}
    (h₀ : WritesStmt s a a₀) (h₁ : ss = [] → a₁ = a₀) (h : endBody a₁ = .ok () a')
    (hrest : a₀.emitter.endsWith .pop = false ∧ a₀.emitter.endsWith .returnValue = false ∨ ss ≠ [] →
      Writes (.body ss) a₀ a') :
    Writes (.body (s :: ss)) a a' := by
  by_cases hss : ss = []
  · subst hss
    obtain rfl := h₁ rfl
    cases h₀ with
    | value hvalue =>
        obtain ⟨is, hlayout, hw⟩ := hvalue
        obtain ⟨hcode, hc, haround⟩ := endBody_append_pop rfl h
        refine ⟨is ++ [.returnValue], ?_, ?_, hw.fits_append (i := .returnValue) rfl,
          haround.trans hw.around⟩
        · rw [hc]
          exact .body_value hlayout
        · rw [hcode, hw.code]
          simp
    | returnValue hvalue =>
        obtain ⟨is, hlayout, hw⟩ := hvalue
        obtain rfl := endBody_of_returnValue rfl rfl h
        refine ⟨is ++ [.returnValue], .body_return hlayout, ?_,
          hw.fits_append (i := .returnValue) rfl, hw.around⟩
        rw [Emitter.toList_append, hw.code]
        simp
    | other hw hexpr hvalue hpop hreturn =>
        exact .body_cons (fun _ => ⟨hexpr, hvalue⟩) hw (hrest (.inl ⟨hpop, hreturn⟩))
  · exact .body_cons (fun hnil => absurd hnil hss) h₀.writes (hrest (.inr hss))

/-- The code of a function goes into the constants, and the values that it captures are loaded. -/
theorem Writes.function {name : Option String} {parameters : List String} {body : List Stmt}
    {a a₁ a₂ a' : Assembly} {code : Code} {table : SymbolTable}
    (hbody : Writes (.body body)
      ⟨a.constants, a.symbols.openFunction name parameters, {}, a.emitter :: a.around⟩ a₁)
    (hend : endFunction a₁ = .ok (code, table) a₂)
    (h : loadFunction code table parameters.length a₂ = .ok () a') :
    Writes (.expr (.function name parameters body)) a a' := by
  obtain ⟨is, hlayout, hwbody⟩ := hbody
  obtain ⟨rfl, rfl, rfl⟩ := endFunction_eq_ok hwbody.around hend
  obtain ⟨hw, hc⟩ := loadFunction_wrote h
  have hcode : a₁.emitter.code = Instructions.toCode is := by
    rw [← Array.toList_inj, hwbody.code]
    simp [Instructions.toCode]
  refine ⟨_, ?_, ⟨hw.code, hw.fits, hw.around⟩⟩
  rw [hc, hcode]
  exact .function (c := a.compiler) hlayout hwbody.fits

theorem compileAll_nil {ss : List Stmt} {a a' : Assembly}
    (h : Stmt.compileAll ss a = .ok () a') (hss : ss = []) : a' = a := by
  subst hss
  rw [Stmt.compileAll] at h
  have h := pure_eq_ok.mp h
  cases h
  rfl

/-! ## The code of every part -/

mutual

/-- The code of an expression. -/
theorem Expr.compile_writes (e : Expr) {a a' : Assembly} (h : e.compile a = .ok () a') :
    Writes (.expr e) a a' := by
  cases e with
  | identifier name =>
      rw [Expr.compile] at h
      exact loadName_emits h
  | integer value =>
      rw [Expr.compile] at h
      obtain ⟨hw, hc⟩ := loadConstant_emits h
      refine ⟨_, ?_, hw⟩
      rw [hc]
      exact .constant (c := a.compiler) rfl
  | string contents =>
      rw [Expr.compile] at h
      obtain ⟨hw, hc⟩ := loadConstant_emits h
      refine ⟨_, ?_, hw⟩
      rw [hc]
      exact .constant (c := a.compiler) rfl
  | boolean value =>
      have h : emit (if value then .true else .false) a = .ok () a' := by
        cases value <;> (rw [Expr.compile] at h; exact h)
      obtain ⟨hw, hc, -⟩ := emit_wrote h
      refine ⟨_, ?_, hw⟩
      rw [hc]
      exact .boolean
  | array elements =>
      rw [Expr.compile, bind_eq_ok] at h
      obtain ⟨_, a₁, h₁, h⟩ := h
      exact .operation rfl rfl (Expr.compileAll_writes elements h₁) h
  | hash pairs =>
      rw [Expr.compile, bind_eq_ok] at h
      obtain ⟨_, a₁, h₁, h⟩ := h
      exact .operation rfl rfl (Expr.compilePairs_writes pairs h₁) h
  | unary operator operand =>
      simp only [Expr.compile, bind_eq_ok, ofExcept_eq_ok] at h
      obtain ⟨_, a₁, h₁, i, _, ⟨hi, rfl⟩, h⟩ := h
      exact .operation rfl (by simp [Expr.instruction?, hi, Except.toOption])
        ((Expr.compile_writes operand h₁).exprs_cons (.exprs_nil a₁)) h
  | binary left operator right =>
      rw [Expr.compile, bind_eq_ok] at h
      obtain ⟨_, a₀, h₀, h⟩ := h
      have ha₀ : a₀ = a := checkLiteralOperands_eq h₀
      subst ha₀
      by_cases hless : operator = .lessThan
      · subst hless
        rw [if_pos rfl] at h
        simp only [bind_eq_ok, ofExcept_eq_ok] at h
        obtain ⟨_, a₁, h₁, _, a₂, h₂, i, _, ⟨hi, rfl⟩, h⟩ := h
        cases hi
        exact ((Expr.compile_writes right h₁).exprs_cons
          ((Expr.compile_writes left h₂).exprs_cons (.exprs_nil a₂))).less h
      · rw [if_neg hless] at h
        simp only [bind_eq_ok, ofExcept_eq_ok] at h
        obtain ⟨_, a₁, h₁, _, a₂, h₂, i, _, ⟨hi, rfl⟩, h⟩ := h
        exact .operation (by simp [Expr.operands?, hless])
          (by simp [Expr.instruction?, hi, Except.toOption])
          ((Expr.compile_writes left h₁).exprs_cons
            ((Expr.compile_writes right h₂).exprs_cons (.exprs_nil a₂))) h
  | «if» condition consequence alternative =>
      simp only [Expr.compile, bind_eq_ok, position_eq_ok, emit_eq_ok, patch_eq_ok] at h
      obtain ⟨_, a₁, h₁, _, _, hp₁, _, _, ⟨-, hj₁⟩, _, a₂, h₂, _, a₃, h₃, _, _, hp₃, _, _,
        ⟨-, hj₃⟩, _, _, hp₄, _, _, ⟨hfit₄, hj₄⟩, _, a₅, h₅, _, _, hp₅, hfit₅, hj₅⟩ := h
      cases hp₁; cases hj₁; cases hp₃; cases hj₃; cases hp₄; cases hj₄; cases hp₅; cases hj₅
      exact (Expr.compile_writes condition h₁).if
        (Stmt.branch_writes consequence (.inl rfl) h₂ h₃) rfl hfit₄
        (Stmt.compileAlternative_writes alternative rfl h₅) hfit₅
  | function name parameters body =>
      simp only [Expr.compile, bind_eq_ok, beginFunction, modify_eq_ok] at h
      obtain ⟨_, _, h₁, _, a₂, h₂, _, a₃, h₃, ⟨code, table⟩, a₄, h₄, h⟩ := h
      cases h₁
      exact .function (Stmt.body_writes body (.inl ⟨rfl, rfl⟩) h₂ h₃) h₄ h
  | call callee arguments =>
      simp only [Expr.compile, bind_eq_ok] at h
      obtain ⟨_, a₁, h₁, _, a₂, h₂, h⟩ := h
      exact .operation rfl rfl
        ((Expr.compile_writes callee h₁).exprs_cons (Expr.compileAll_writes arguments h₂)) h
  | index collection key =>
      simp only [Expr.compile, bind_eq_ok] at h
      obtain ⟨_, a₁, h₁, _, a₂, h₂, h⟩ := h
      exact .operation rfl rfl ((Expr.compile_writes collection h₁).exprs_cons
        ((Expr.compile_writes key h₂).exprs_cons (.exprs_nil a₂))) h

/-- The code of some expressions. -/
theorem Expr.compileAll_writes (es : List Expr) {a a' : Assembly}
    (h : Expr.compileAll es a = .ok () a') : Writes (.exprs es) a a' := by
  cases es with
  | nil =>
      rw [Expr.compileAll] at h
      have h := pure_eq_ok.mp h
      cases h
      exact .exprs_nil a
  | cons e es =>
      rw [Expr.compileAll, bind_eq_ok] at h
      obtain ⟨_, a₁, h₁, h⟩ := h
      exact (Expr.compile_writes e h₁).exprs_cons (Expr.compileAll_writes es h)

/-- The code of the keys and values of a hash literal. -/
theorem Expr.compilePairs_writes (pairs : List (Expr × Expr)) {a a' : Assembly}
    (h : Expr.compilePairs pairs a = .ok () a') : Writes (.exprs (Expr.flatten pairs)) a a' := by
  match pairs with
  | [] =>
      rw [Expr.compilePairs] at h
      have h := pure_eq_ok.mp h
      cases h
      exact .exprs_nil a
  | (key, value) :: pairs =>
      simp only [Expr.compilePairs, bind_eq_ok] at h
      obtain ⟨_, a₁, h₁, _, a₂, h₂, h⟩ := h
      exact (Expr.compile_writes key h₁).exprs_cons
        ((Expr.compile_writes value h₂).exprs_cons (Expr.compilePairs_writes pairs h))

/-- The code of a statement. -/
theorem Stmt.compile_writes (s : Stmt) {a a' : Assembly} (h : s.compile a = .ok () a') :
    WritesStmt s a a' := by
  match s with
  | .let name value =>
      rw [Stmt.compile, bind_eq_ok] at h
      obtain ⟨_, a₁, h₁, h⟩ := h
      obtain ⟨is, hlayout, hw₁⟩ := Expr.compile_writes value h₁
      obtain ⟨hw, hc, he⟩ := store_emits h
      refine .other ⟨_, ?_, hw₁.trans hw⟩ rfl rfl ?_ ?_
      · rw [hc]
        exact .let hlayout
      · rw [he, Emitter.endsWith_append, Symbol.storeInstruction]
        split <;> rfl
      · rw [he, Emitter.endsWith_append, Symbol.storeInstruction]
        split <;> rfl
  | .return none =>
      rw [Stmt.compile] at h
      obtain ⟨hw, hc, he⟩ := emit_wrote h
      refine .other ⟨_, ?_, hw⟩ rfl rfl (by rw [he]; rfl) (by rw [he]; rfl)
      rw [hc]
      exact .return_none
  | .return (some value) =>
      rw [Stmt.compile, bind_eq_ok] at h
      obtain ⟨_, a₁, h₁, h⟩ := h
      obtain ⟨hfit, h⟩ := emit_eq_ok.mp h
      cases h
      exact .returnValue (Expr.compile_writes value h₁) hfit
  | .expr value =>
      rw [Stmt.compile, bind_eq_ok] at h
      obtain ⟨_, a₁, h₁, h⟩ := h
      obtain ⟨hfit, h⟩ := emit_eq_ok.mp h
      cases h
      exact .value (Expr.compile_writes value h₁) hfit

/-- The code of some statements. -/
theorem Stmt.compileAll_writes (ss : List Stmt) {a a' : Assembly}
    (h : Stmt.compileAll ss a = .ok () a') : Writes (.stmts ss) a a' := by
  cases ss with
  | nil =>
      rw [Stmt.compileAll] at h
      have h := pure_eq_ok.mp h
      cases h
      exact .stmts_nil a
  | cons s ss =>
      rw [Stmt.compileAll, bind_eq_ok] at h
      obtain ⟨_, a₁, h₁, h⟩ := h
      exact (Stmt.compile_writes s h₁).writes.stmts_cons (Stmt.compileAll_writes ss h)

/-- The code of a branch. -/
theorem Stmt.branch_writes (ss : List Stmt) {a a₁ a' : Assembly}
    (hends : a.emitter.endsWith .pop = false ∨ ss ≠ [])
    (h₁ : Stmt.compileAll ss a = .ok () a₁) (h : endBranch a₁ = .ok () a') :
    Writes (.branch ss) a a' := by
  cases ss with
  | nil =>
      rw [Stmt.compileAll] at h₁
      have h₁ := pure_eq_ok.mp h₁
      cases h₁
      obtain ⟨hw, hc⟩ := endBranch_wrote (by simpa using hends) h
      refine ⟨_, ?_, hw⟩
      rw [hc]
      exact .branch_nil
  | cons s ss =>
      rw [Stmt.compileAll, bind_eq_ok] at h₁
      obtain ⟨_, a₀, h₀, h₁⟩ := h₁
      exact .branch_stmt (Stmt.compile_writes s h₀) (compileAll_nil h₁) h
        fun hends => Stmt.branch_writes ss hends h₁ h

/-- The code of an alternative, which may be missing. -/
theorem Stmt.compileAlternative_writes (alternative : Option (List Stmt)) {a a' : Assembly}
    (hends : a.emitter.endsWith .pop = false)
    (h : Stmt.compileAlternative alternative a = .ok () a') :
    Writes (.branch (alternative.getD [])) a a' := by
  cases alternative with
  | none =>
      rw [Stmt.compileAlternative] at h
      obtain ⟨hw, hc, -⟩ := emit_wrote h
      refine ⟨_, ?_, hw⟩
      rw [hc]
      exact .branch_nil
  | some block =>
      rw [Stmt.compileAlternative, bind_eq_ok] at h
      obtain ⟨_, a₁, h₁, h⟩ := h
      exact Stmt.branch_writes block (.inl hends) h₁ h

/-- The code of the body of a function. -/
theorem Stmt.body_writes (ss : List Stmt) {a a₁ a' : Assembly}
    (hends : a.emitter.endsWith .pop = false ∧ a.emitter.endsWith .returnValue = false ∨ ss ≠ [])
    (h₁ : Stmt.compileAll ss a = .ok () a₁) (h : endBody a₁ = .ok () a') :
    Writes (.body ss) a a' := by
  cases ss with
  | nil =>
      rw [Stmt.compileAll] at h₁
      have h₁ := pure_eq_ok.mp h₁
      cases h₁
      obtain ⟨hpop, hreturn⟩ : _ ∧ _ := by simpa using hends
      obtain ⟨hw, hc⟩ := endBody_wrote hpop hreturn h
      refine ⟨_, ?_, hw⟩
      rw [hc]
      exact .body_nil
  | cons s ss =>
      rw [Stmt.compileAll, bind_eq_ok] at h₁
      obtain ⟨_, a₀, h₀, h₁⟩ := h₁
      exact .body_stmt (Stmt.compile_writes s h₀) (compileAll_nil h₁) h
        fun hends => Stmt.body_writes ss hends h₁ h

end

/-! ## Whole programs -/

/-- A compiled program consists of the instructions of its layout. -/
theorem Compiler.compile_emits {c c' : Compiler} {program : Program} {b : Bytecode}
    (h : c.compile program = (.ok b, c')) :
    ∃ is, Emits (.stmts program) c 0 is c' ∧ (∀ i ∈ is, i.Fits) ∧
      b = ⟨Instructions.toCode is, c'.constants⟩ := by
  rw [compile, Assembly.compile] at h
  cases hrun : Stmt.compileAll program (Assembly.resume c) with
  | error e a => simp [hrun] at h
  | ok u a =>
      simp only [hrun, Prod.mk.injEq, Except.ok.injEq] at h
      obtain ⟨rfl, rfl⟩ := h
      obtain ⟨is, hlayout, hw⟩ := Stmt.compileAll_writes program hrun
      refine ⟨is, hlayout, hw.fits, ?_⟩
      have hcode : a.emitter.code = Instructions.toCode is := by
        rw [← Array.toList_inj, hw.code]
        simp [Instructions.toCode, Assembly.resume]
      rw [hcode]
      rfl

end ScriptLang
