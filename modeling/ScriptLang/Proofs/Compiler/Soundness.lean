import ScriptLang.Proofs.Bytecode.Stack
import ScriptLang.Proofs.Symbols.Soundness

/-!
# What compiled code refers to

`Compiler.Sound` holds of every state that a compiler can reach: its symbols are sound, and every function
among its constants is the code of some body. Main statements, each by induction on the layout:

* `Emits.grows` and `Emits.poolSound` — compiling keeps a compiler sound, and constants and slots stay
  where they are;
* `Emits.refers` — whatever an instruction refers to exists when the function around it is finished;
* `Emits.balanced` — a part of a program leaves as many values on the stack as it should, and its jumps
  go forward.
-/

namespace ScriptLang

/-! ## Compiler states

Constants are only added, so that an index means the same constant for ever. That is what makes it possible to
say of a function in the pool that its own constants are in front of it. -/

/-- A function is the code of some body. Its constants are at the front of a pool. -/
inductive FunctionOf (pool : Array Value) : CompiledFunction → Prop where
  | body {c c' : Compiler} {block : List Stmt} {is : Instructions} :
      Emits (.body block) c 0 is c' →
      c.symbols.Sound → c.symbols.nested = true →
      (∀ i ∈ is, i.Fits) →
      c'.constants.toList <+: pool.toList →
      FunctionOf pool
        ⟨Instructions.toCode is, c'.symbols.inner.numDefinitions, c.symbols.inner.numDefinitions⟩

/-- Constants that are added later do not matter to a function. -/
theorem FunctionOf.mono {pool pool' : Array Value} {f : CompiledFunction} (h : FunctionOf pool f)
    (hpool : pool.toList <+: pool'.toList) : FunctionOf pool' f := by
  cases h with
  | body hbody hs hn hfits hpre => exact .body hbody hs hn hfits (hpre.trans hpool)

theorem getElem?_of_isPrefix {pool pool' : Array Value} {k : Nat} {v : Value}
    (h : pool.toList <+: pool'.toList) (hk : pool[k]? = some v) : pool'[k]? = some v := by
  obtain ⟨more, hmore⟩ := h
  rw [← Array.getElem?_toList] at hk ⊢
  have hlt := (List.getElem?_eq_some_iff.mp hk).1
  rw [← hmore, List.getElem?_append_left hlt, hk]

theorem isPrefix_push (pool : Array Value) (v : Value) : pool.toList <+: (pool.push v).toList := by
  rw [Array.toList_push]
  exact List.prefix_append _ _

namespace Compiler

/-- Every function among the constants is the code of some body. -/
def PoolSound (c : Compiler) : Prop :=
  ∀ f, .compiledFunction f ∈ c.constants.toList → FunctionOf c.constants f

/-- The symbols are sound, and so are the constants. -/
structure Sound (c : Compiler) : Prop where
  symbols : c.symbols.Sound
  pool : c.PoolSound

/-- Constants and slots stay where they are. -/
structure Grows (c c' : Compiler) : Prop where
  symbols : c.symbols.Grows c'.symbols
  constants : c.constants.toList <+: c'.constants.toList

theorem Grows.refl (c : Compiler) : c.Grows c := ⟨.refl _, List.prefix_refl _⟩

theorem Grows.trans {c₁ c₂ c₃ : Compiler} (h₁ : c₁.Grows c₂) (h₂ : c₂.Grows c₃) : c₁.Grows c₃ :=
  ⟨h₁.symbols.trans h₂.symbols, h₁.constants.trans h₂.constants⟩

theorem grows_push (c : Compiler) (v : Value) :
    c.Grows { c with constants := c.constants.push v } :=
  ⟨.refl _, isPrefix_push _ _⟩

/-- The pool stays sound if each new function is the code of some body. -/
theorem PoolSound.push {pool : Array Value} {symbols symbols' : Symbols} {v : Value}
    (h : PoolSound ⟨symbols, pool⟩)
    (hv : ∀ f, v = .compiledFunction f → FunctionOf (pool.push v) f) :
    PoolSound ⟨symbols', pool.push v⟩ := by
  intro f hf
  rw [Array.toList_push] at hf
  rcases List.mem_append.mp hf with hf | hf
  · exact (h f hf).mono (isPrefix_push _ _)
  · exact hv f (List.mem_singleton.mp hf).symm

/-- **The first state** is sound. -/
theorem initial_isSound : Sound initial := ⟨initial_sound, by simp [PoolSound, initial]⟩

end Compiler

/-- The constants of expressions are no functions. -/
theorem Expr.constant?_ne_function {e : Expr} {v : Value} (h : e.constant? = some v)
    (f : CompiledFunction) : v ≠ .compiledFunction f := by
  rintro rfl
  cases e <;> simp [constant?] at h

/-- **Compiling** keeps the symbols sound, and constants and slots stay where they are. -/
theorem Emits.grows {P : Part} {c c' : Compiler} {offset : Nat} {is : Instructions}
    (h : Emits P c offset is c') (hc : c.symbols.Sound) : c'.symbols.Sound ∧ c.Grows c' := by
  induction h with
  | identifier hresolve =>
      obtain ⟨hs, -, hgrows, -⟩ := Symbols.resolve?_spec hresolve hc
      exact ⟨hs, hgrows, List.prefix_refl _⟩
  | constant => exact ⟨hc, Compiler.grows_push _ _⟩
  | boolean => exact ⟨hc, .refl _⟩
  | operation _ _ _ ih => exact ih hc
  | less _ ih => exact ih hc
  | «if» _ _ _ _ ih₁ ih₂ ih₃ =>
      obtain ⟨hc₁, hg₁⟩ := ih₁ hc
      obtain ⟨hc₂, hg₂⟩ := ih₂ hc₁
      obtain ⟨hc₃, hg₃⟩ := ih₃ hc₂
      exact ⟨hc₃, (hg₁.trans hg₂).trans hg₃⟩
  | @function c c' offset name parameters body is hbody hfits ih =>
      obtain ⟨hc', hgrows⟩ := ih (hc.openFunction name parameters)
      obtain ⟨hleave, -, hgrows', -⟩ := hc'.leave hgrows.symbols
      exact ⟨hleave, hgrows', hgrows.constants.trans (isPrefix_push _ _)⟩
  | exprs_nil => exact ⟨hc, .refl _⟩
  | exprs_cons _ _ ih₁ ih₂ =>
      obtain ⟨hc₁, hg₁⟩ := ih₁ hc
      obtain ⟨hc₂, hg₂⟩ := ih₂ hc₁
      exact ⟨hc₂, hg₁.trans hg₂⟩
  | «let» _ ih =>
      obtain ⟨hc₁, hg₁⟩ := ih hc
      exact ⟨hc₁.define _, hg₁.trans ⟨Symbols.grows_define _ _, List.prefix_refl _⟩⟩
  | return_none => exact ⟨hc, .refl _⟩
  | return_some _ ih => exact ih hc
  | expr _ ih => exact ih hc
  | stmts_nil => exact ⟨hc, .refl _⟩
  | stmts_cons _ _ ih₁ ih₂ =>
      obtain ⟨hc₁, hg₁⟩ := ih₁ hc
      obtain ⟨hc₂, hg₂⟩ := ih₂ hc₁
      exact ⟨hc₂, hg₁.trans hg₂⟩
  | branch_nil => exact ⟨hc, .refl _⟩
  | branch_value _ ih => exact ih hc
  | branch_cons _ _ _ ih₁ ih₂ =>
      obtain ⟨hc₁, hg₁⟩ := ih₁ hc
      obtain ⟨hc₂, hg₂⟩ := ih₂ hc₁
      exact ⟨hc₂, hg₁.trans hg₂⟩
  | body_nil => exact ⟨hc, .refl _⟩
  | body_value _ ih => exact ih hc
  | body_return _ ih => exact ih hc
  | body_cons _ _ _ ih₁ ih₂ =>
      obtain ⟨hc₁, hg₁⟩ := ih₁ hc
      obtain ⟨hc₂, hg₂⟩ := ih₂ hc₁
      exact ⟨hc₂, hg₁.trans hg₂⟩

/-- **Constants** stay sound: every function that compiling adds is the code of its body. -/
theorem Emits.poolSound {P : Part} {c c' : Compiler} {offset : Nat} {is : Instructions}
    (h : Emits P c offset is c') (hs : c.symbols.Sound) (hc : c.PoolSound) : c'.PoolSound := by
  induction h with
  | identifier => exact hc
  | constant hv => exact hc.push fun f hf => absurd hf (Expr.constant?_ne_function hv f)
  | boolean => exact hc
  | operation _ _ _ ih => exact ih hs hc
  | less _ ih => exact ih hs hc
  | «if» h₁ h₂ _ _ ih₁ ih₂ ih₃ =>
      obtain ⟨hs₁, -⟩ := h₁.grows hs
      obtain ⟨hs₂, -⟩ := h₂.grows hs₁
      exact ih₃ hs₂ (ih₂ hs₁ (ih₁ hs hc))
  | @function c c' offset name parameters body is hbody hfits ih =>
      have hopen := hs.openFunction name parameters
      refine (ih hopen hc).push fun f hf => ?_
      cases hf
      have hfun := FunctionOf.body hbody hopen (Symbols.openFunction_nested _ _ _) hfits
        (isPrefix_push c'.constants (.compiledFunction
          ⟨Instructions.toCode is, c'.symbols.inner.numDefinitions, parameters.length⟩))
      simpa using hfun
  | exprs_nil => exact hc
  | exprs_cons h₁ _ ih₁ ih₂ => exact ih₂ (h₁.grows hs).1 (ih₁ hs hc)
  | «let» _ ih => exact ih hs hc
  | return_none => exact hc
  | return_some _ ih => exact ih hs hc
  | expr _ ih => exact ih hs hc
  | stmts_nil => exact hc
  | stmts_cons h₁ _ ih₁ ih₂ => exact ih₂ (h₁.grows hs).1 (ih₁ hs hc)
  | branch_nil => exact hc
  | branch_value _ ih => exact ih hs hc
  | branch_cons _ h₁ _ ih₁ ih₂ => exact ih₂ (h₁.grows hs).1 (ih₁ hs hc)
  | body_nil => exact hc
  | body_value _ ih => exact ih hs hc
  | body_return _ ih => exact ih hs hc
  | body_cons _ h₁ _ ih₁ ih₂ => exact ih₂ (h₁.grows hs).1 (ih₁ hs hc)

theorem Compiler.Sound.emits {P : Part} {c c' : Compiler} {offset : Nat} {is : Instructions}
    (hc : c.Sound) (h : Emits P c offset is c') : c'.Sound :=
  ⟨(h.grows hc.symbols).1, h.poolSound hc.symbols hc.pool⟩

/-! ## References

An instruction that was emitted refers to what is there at that time. Later there is more, so that the
reference stays good until the function is finished. -/

/-- What an instruction refers to exists. -/
def Instruction.Refers (c : Compiler) : Instruction → Prop
  | .constant k => ∃ v, c.constants[k]? = some v ∧ (v.kind = .integer ∨ v.kind = .string)
  | .closure k n =>
    ∃ f, c.constants[k]? = some (.compiledFunction f) ∧ Code.FreeBelow f.code n
  | .getLocal k | .setLocal k =>
    c.symbols.nested = Bool.true ∧ k < c.symbols.inner.numDefinitions
  | .getFree k => c.symbols.nested = Bool.true ∧ k < c.symbols.inner.captures.length
  | .currentClosure => c.symbols.nested = Bool.true
  | .getBuiltin k => k < Builtin.all.length
  | _ => True

theorem Instruction.Refers.mono {c c' : Compiler} {i : Instruction} (h : i.Refers c)
    (hc : c.Grows c') : i.Refers c' := by
  have hnested := hc.symbols.nested_eq
  have hslots := hc.symbols.inner.numDefinitions
  have hcaptures := hc.symbols.inner.captures.length_le
  cases i with
  | constant k =>
      obtain ⟨v, hv, hkind⟩ := h
      exact ⟨v, getElem?_of_isPrefix hc.constants hv, hkind⟩
  | closure k n =>
      obtain ⟨f, hf, hfree⟩ := h
      exact ⟨f, getElem?_of_isPrefix hc.constants hf, hfree⟩
  | getLocal k => exact ⟨hnested.trans h.1, Nat.lt_of_lt_of_le h.2 hslots⟩
  | setLocal k => exact ⟨hnested.trans h.1, Nat.lt_of_lt_of_le h.2 hslots⟩
  | getFree k => exact ⟨hnested.trans h.1, Nat.lt_of_lt_of_le h.2 hcaptures⟩
  | currentClosure => exact hnested.trans h
  | getBuiltin k => exact h
  | _ => trivial

theorem forall_mem_append {p : Instruction → Prop} {is js : Instructions} (h₁ : ∀ i ∈ is, p i)
    (h₂ : ∀ i ∈ js, p i) : ∀ i ∈ is ++ js, p i := by
  intro i hi
  rcases List.mem_append.mp hi with hi | hi
  · exact h₁ i hi
  · exact h₂ i hi

theorem forall_mem_mono {c c' : Compiler} {is : Instructions} (h : ∀ i ∈ is, i.Refers c)
    (hc : c.Grows c') : ∀ i ∈ is, i.Refers c' := fun i hi => (h i hi).mono hc

theorem forall_mem_singleton {p : Instruction → Prop} {i : Instruction} (h : p i) :
    ∀ j ∈ [i], p j := by
  intro j hj
  rw [List.mem_singleton.mp hj]
  exact h

/-- A symbol whose slot exists can be loaded. -/
theorem Symbol.Valid.refers {c : Compiler} {symbol : Symbol}
    (h : symbol.Valid c.symbols.nested c.symbols.inner) : symbol.loadInstruction.Refers c := by
  rw [Valid] at h
  rw [loadInstruction]
  cases hplace : symbol.place with
  | global => trivial
  | «local» =>
      simp only [hplace] at h
      exact h
  | builtin =>
      simp only [hplace] at h
      obtain ⟨b, hb, -⟩ := Option.map_eq_some_iff.mp h.2
      exact (List.getElem?_eq_some_iff.mp hb).1
  | free =>
      simp only [hplace] at h
      obtain ⟨captured, hcaptured, -⟩ := Option.map_eq_some_iff.mp h.2
      exact ⟨h.1, (List.getElem?_eq_some_iff.mp hcaptured).1⟩
  | function =>
      simp only [hplace] at h
      exact h

theorem Symbols.Found.refers {c : Compiler} {name : String} {symbol : Symbol}
    (h : Symbols.Found name c.symbols.inner c.symbols.outer symbol) (hs : c.symbols.Sound) :
    symbol.loadInstruction.Refers c := by
  rcases h with h | ⟨-, hplace, hmain⟩
  · exact Symbol.Valid.refers (hs.inner _ _ h).2
  · have hvalid := (SoundFrom.main hs _ _ hmain).2
    rw [Symbol.Valid] at hvalid
    rw [Symbol.loadInstruction]
    rcases hplace with hplace | hplace
    · simp only [hplace]
      trivial
    · simp only [hplace] at hvalid ⊢
      obtain ⟨b, hb, -⟩ := Option.map_eq_some_iff.mp hvalid.2
      exact (List.getElem?_eq_some_iff.mp hb).1

/-- What a function captures can be loaded around it. -/
theorem SymbolTable.Lends.refers {c : Compiler} {symbol : Symbol}
    (h : c.symbols.inner.Lends symbol) (hs : c.symbols.Sound) :
    symbol.loadInstruction.Refers c :=
  Symbol.Valid.refers (hs.inner _ _ h.1).2

/-- The instruction of an operation refers to nothing. -/
theorem Expr.instruction?_refers {e : Expr} {i : Instruction} (h : e.instruction? = some i)
    (c : Compiler) : i.Refers c := by
  cases e with
  | unary operator operand =>
      cases operator <;> simp [instruction?, Operator.unaryInstruction, Except.toOption] at h <;>
        subst h <;> trivial
  | binary left operator right =>
      cases operator <;> simp [instruction?, Operator.binaryInstruction, Except.toOption] at h <;>
        subst h <;> trivial
  | array elements => simp [instruction?] at h; subst h; trivial
  | hash pairs => simp [instruction?] at h; subst h; trivial
  | call callee arguments => simp [instruction?] at h; subst h; trivial
  | index collection key => simp [instruction?] at h; subst h; trivial
  | _ => simp [instruction?] at h

theorem Symbols.storeInstruction_refers (c : Compiler) (name : String) :
    (c.symbols.definedSymbol name).storeInstruction.Refers
      { c with symbols := c.symbols.define name } := by
  rw [Symbol.storeInstruction, definedSymbol, definitionPlace_eq]
  cases hn : c.symbols.nested with
  | false => trivial
  | true => exact ⟨hn, Nat.lt_succ_self _⟩

/-- **References**: what the instructions of a part of a program refer to exists in the state of the
compiler behind them. -/
theorem Emits.refers {P : Part} {c c' : Compiler} {offset : Nat} {is : Instructions}
    (h : Emits P c offset is c') (hc : c.symbols.Sound) : ∀ i ∈ is, i.Refers c' := by
  induction h with
  | identifier hresolve =>
      obtain ⟨hs, -, -, hfound⟩ := Symbols.resolve?_spec hresolve hc
      exact forall_mem_singleton (Symbols.Found.refers hfound hs)
  | @constant c offset e v hv =>
      refine forall_mem_singleton ⟨v, by simp, ?_⟩
      cases e <;> simp [Expr.constant?] at hv <;> subst hv <;> simp [Value.kind]
  | @boolean c offset value =>
      cases value <;> exact forall_mem_singleton trivial
  | operation _ hi _ ih =>
      exact forall_mem_append (ih hc) (forall_mem_singleton (Expr.instruction?_refers hi _))
  | less _ ih => exact forall_mem_append (ih hc) (forall_mem_singleton trivial)
  | «if» h₁ h₂ _ h₃ ih₁ ih₂ ih₃ =>
      obtain ⟨hc₁, -⟩ := h₁.grows hc
      obtain ⟨hc₂, hg₂⟩ := h₂.grows hc₁
      obtain ⟨-, hg₃⟩ := h₃.grows hc₂
      refine forall_mem_append (forall_mem_mono (ih₁ hc) (hg₂.trans hg₃)) ?_
      refine List.forall_mem_cons.mpr ⟨trivial, ?_⟩
      refine forall_mem_append (forall_mem_mono (ih₂ hc₁) hg₃) ?_
      exact List.forall_mem_cons.mpr ⟨trivial, ih₃ hc₂⟩
  | @function c c' offset name parameters body is hbody hfits ih =>
      have hopen := hc.openFunction name parameters
      obtain ⟨hc', hgrows⟩ := hbody.grows hopen
      obtain ⟨hleave, -, -, hlends⟩ := hc'.leave hgrows.symbols
      refine forall_mem_append ?_ (forall_mem_singleton ?_)
      · intro i hi
        obtain ⟨symbol, hsymbol, rfl⟩ := List.mem_map.mp hi
        exact (hlends symbol hsymbol).refers (c := ⟨c'.symbols.leave, _⟩) hleave
      · refine ⟨_, Array.getElem?_push_size, is, Code.decodes_toCode hfits, fun k hk => ?_⟩
        exact (ih hopen _ hk).2
  | exprs_nil => exact List.forall_mem_nil _
  | exprs_cons h₁ h₂ ih₁ ih₂ =>
      obtain ⟨hc₁, -⟩ := h₁.grows hc
      exact forall_mem_append (forall_mem_mono (ih₁ hc) (h₂.grows hc₁).2) (ih₂ hc₁)
  | @«let» c c' offset name value is h ih =>
      refine forall_mem_append (forall_mem_mono (ih hc) ⟨Symbols.grows_define _ _, List.prefix_refl _⟩)
        (forall_mem_singleton ?_)
      exact Symbols.storeInstruction_refers c' name
  | return_none => exact forall_mem_singleton trivial
  | return_some _ ih => exact forall_mem_append (ih hc) (forall_mem_singleton trivial)
  | expr _ ih => exact forall_mem_append (ih hc) (forall_mem_singleton trivial)
  | stmts_nil => exact List.forall_mem_nil _
  | stmts_cons h₁ h₂ ih₁ ih₂ =>
      obtain ⟨hc₁, -⟩ := h₁.grows hc
      exact forall_mem_append (forall_mem_mono (ih₁ hc) (h₂.grows hc₁).2) (ih₂ hc₁)
  | branch_nil => exact forall_mem_singleton trivial
  | branch_value _ ih => exact ih hc
  | branch_cons _ h₁ h₂ ih₁ ih₂ =>
      obtain ⟨hc₁, -⟩ := h₁.grows hc
      exact forall_mem_append (forall_mem_mono (ih₁ hc) (h₂.grows hc₁).2) (ih₂ hc₁)
  | body_nil => exact forall_mem_singleton trivial
  | body_value _ ih => exact forall_mem_append (ih hc) (forall_mem_singleton trivial)
  | body_return _ ih => exact forall_mem_append (ih hc) (forall_mem_singleton trivial)
  | body_cons _ h₁ h₂ ih₁ ih₂ =>
      obtain ⟨hc₁, -⟩ := h₁.grows hc
      exact forall_mem_append (forall_mem_mono (ih₁ hc) (h₂.grows hc₁).2) (ih₂ hc₁)

/-! ## Stack heights

How many values are on the stack in front of an instruction depends on where it stands, and not on how the
machine got there. `Balanced` states that, with the jumps of the code. -/

/-- The number of values that a part of a program leaves on the stack. -/
def Part.height : Part → Nat
  | .expr _ | .branch _ => 1
  | .exprs es => es.length
  | .stmt _ | .stmts _ | .body _ => 0

/-- The instruction of an operation replaces the values of its operands by one value. -/
theorem Expr.instruction?_pops {e : Expr} {es : List Expr} {i : Instruction}
    (hi : e.instruction? = some i) (hes : e.operands? = some es) :
    i.pops = es.length ∧ i.pushes = 1 ∧ i.target? = none := by
  cases e with
  | array elements =>
      cases hi
      cases hes
      exact ⟨rfl, rfl, rfl⟩
  | hash pairs =>
      cases hi
      cases hes
      exact ⟨(length_flatten pairs).symm, rfl, rfl⟩
  | unary operator operand =>
      cases hes
      cases operator <;> simp [instruction?, Operator.unaryInstruction, Except.toOption] at hi <;>
        subst hi <;> exact ⟨rfl, rfl, rfl⟩
  | binary left operator right =>
      cases operator <;> simp [operands?] at hes <;> subst hes <;>
        simp [instruction?, Operator.binaryInstruction, Except.toOption] at hi <;>
        subst hi <;> exact ⟨rfl, rfl, rfl⟩
  | call callee arguments =>
      cases hi
      cases hes
      exact ⟨rfl, rfl, rfl⟩
  | index collection key =>
      cases hi
      cases hes
      exact ⟨rfl, rfl, rfl⟩
  | _ => simp [instruction?] at hi

/-- Loading puts one value on the stack, whatever the place. -/
theorem Symbol.loadInstruction_pops (symbol : Symbol) :
    symbol.loadInstruction.pops = 0 ∧ symbol.loadInstruction.pushes = 1 ∧
      symbol.loadInstruction.target? = none := by
  rw [loadInstruction]
  cases symbol.place <;> exact ⟨rfl, rfl, rfl⟩

/-- Storing takes one value off the stack. -/
theorem Symbol.storeInstruction_pops (symbol : Symbol) :
    symbol.storeInstruction.pops = 1 ∧ symbol.storeInstruction.pushes = 0 ∧
      symbol.storeInstruction.target? = none := by
  rw [storeInstruction]
  cases symbol.place <;> exact ⟨rfl, rfl, rfl⟩

open Instructions (heightAfter)

theorem Balanced.singleton {offset height : Nat} {i : Instruction} (hpops : i.pops ≤ height)
    (htarget : i.target? = none) : Balanced offset height [i] :=
  show Balanced offset height ([] ++ [i]) from Balanced.concat trivial hpops htarget

/-- Loading some symbols pushes as many values. -/
theorem balanced_loads (symbols : List Symbol) : ∀ offset height : Nat,
    Balanced offset height (symbols.map Symbol.loadInstruction) ∧
      heightAfter height (symbols.map Symbol.loadInstruction) = height + symbols.length := by
  induction symbols with
  | nil => exact fun _ _ => ⟨trivial, rfl⟩
  | cons symbol symbols ih =>
      intro offset height
      obtain ⟨hpops, hpushes, htarget⟩ := symbol.loadInstruction_pops
      obtain ⟨hbal, hheight⟩ := ih (offset + symbol.loadInstruction.size)
        (symbol.loadInstruction.heightAfter height)
      have hafter : symbol.loadInstruction.heightAfter height = height + 1 := by
        rw [Instruction.heightAfter, hpops, hpushes]
        rfl
      refine ⟨⟨by omega, by simp [htarget], hbal⟩, ?_⟩
      rw [List.map_cons, Instructions.heightAfter_cons, hheight, hafter, List.length_cons]
      omega

/-- One more instruction that takes the topmost value off the stack. -/
theorem balanced_take {offset height : Nat} {is : Instructions} {i : Instruction}
    (h : Balanced offset height is ∧ heightAfter height is = height + 1) (hpops : i.pops = 1)
    (hpushes : i.pushes = 0) (htarget : i.target? = none) :
    Balanced offset height (is ++ [i]) ∧ heightAfter height (is ++ [i]) = height := by
  refine ⟨h.1.concat (by rw [h.2, hpops]; exact Nat.le_add_left _ _) htarget, ?_⟩
  rw [Instructions.heightAfter_append, h.2, Instructions.heightAfter_cons,
    Instructions.heightAfter_nil, Instruction.heightAfter, hpops, hpushes]
  rfl

/-- Instructions behind others that leave the stack as it was. -/
theorem balanced_append {offset height n : Nat} {is js : Instructions}
    (h₁ : Balanced offset height is ∧ heightAfter height is = height)
    (h₂ : Balanced (offset + Instructions.size is) height js ∧ heightAfter height js = height + n) :
    Balanced offset height (is ++ js) ∧ heightAfter height (is ++ js) = height + n := by
  refine ⟨h₁.1.append (by rw [h₁.2]; exact h₂.1), ?_⟩
  rw [Instructions.heightAfter_append, h₁.2, h₂.2]

/-- **Stack heights**: a part of a program takes no value off the stack that was there before, and leaves
its own values on it. -/
theorem Emits.balanced {P : Part} {c c' : Compiler} {offset : Nat} {is : Instructions}
    (h : Emits P c offset is c') : ∀ height : Nat,
    Balanced offset height is ∧ heightAfter height is = height + P.height := by
  induction h with
  | @identifier c offset name symbol symbols hresolve =>
      intro height
      exact balanced_loads [symbol] _ _
  | constant => exact fun height => ⟨.singleton (Nat.zero_le _) rfl, rfl⟩
  | @boolean c offset value =>
      intro height
      cases value <;> exact ⟨.singleton (Nat.zero_le _) rfl, rfl⟩
  | operation hes hi _ ih =>
      intro height
      obtain ⟨hbal, hheight⟩ := ih height
      obtain ⟨hpops, hpushes, htarget⟩ := Expr.instruction?_pops hi hes
      have hlen : heightAfter height _ = height + _ := hheight
      refine ⟨hbal.concat (by rw [hlen, hpops]; exact Nat.le_add_left _ _) htarget, ?_⟩
      simp only [Instructions.heightAfter_append, hlen, Instructions.heightAfter_cons,
        Instructions.heightAfter_nil, Instruction.heightAfter, hpops, hpushes, Part.height]
      omega
  | less _ ih =>
      intro height
      obtain ⟨hbal, hheight⟩ := ih height
      have hlen : heightAfter height _ = height + 2 := hheight
      refine ⟨hbal.concat (by rw [hlen]; exact Nat.le_add_left _ _) rfl, ?_⟩
      rw [Instructions.heightAfter_append, hlen]
      rfl
  | @«if» c c₁ c₂ c₃ offset start condition consequence alternative is js ks h₁ h₂ hstart h₃
      ih₁ ih₂ ih₃ =>
      intro height
      obtain ⟨hbal₁, hheight₁⟩ := ih₁ height
      obtain ⟨hbal₂, hheight₂⟩ := ih₂ height
      obtain ⟨hbal₃, hheight₃⟩ := ih₃ height
      have hh₁ : heightAfter height is = height + 1 := hheight₁
      have hh₂ : heightAfter height js = height + 1 := hheight₂
      have hh₃ : heightAfter height ks = height + 1 := hheight₃
      have hjnt : (Instruction.jumpNotTruthy start).heightAfter (height + 1) = height := rfl
      have hjmp : ∀ target, (Instruction.jump target).heightAfter (height + 1) = height := fun _ => rfl
      have hsize₁ : (Instruction.jumpNotTruthy start).size = 3 := rfl
      have hsize₂ : ∀ target, (Instruction.jump target).size = 3 := fun _ => rfl
      -- the jump behind the consequence, together with the alternative that it skips
      have hrest : Balanced (offset + Instructions.size is + 3 + Instructions.size js) (height + 1)
          (.jump (start + Instructions.size ks) :: ks) := by
        refine ⟨Nat.le_add_left _ _, ?_, ?_⟩
        · intro target ht
          cases ht
          refine ⟨ks, [], by simp, by rw [hstart, hsize₂], ?_⟩
          rw [hjmp, hh₃]
          rfl
        · rw [hjmp, hsize₂, ← hstart]
          exact hbal₃
      refine ⟨hbal₁.append ?_, ?_⟩
      · rw [hh₁]
        refine ⟨Nat.le_add_left _ _, ?_, ?_⟩
        · intro target ht
          cases ht
          refine ⟨js ++ [.jump (start + Instructions.size ks)], ks, by simp, ?_, ?_⟩
          · rw [Instructions.size_append, Instructions.size_cons, hsize₁, hsize₂, hstart,
              Instructions.size_nil]
            omega
          · rw [hjnt, Instructions.heightAfter_append, hh₂]
            rfl
        · rw [hjnt, hsize₁]
          refine hbal₂.append ?_
          rw [hh₂]
          exact hrest
      · simp only [Instructions.heightAfter_append, Instructions.heightAfter_cons, hh₁, hjnt, hh₂,
          hjmp, hh₃, Part.height]
  | @function c c' offset name parameters body is hbody hfits ih =>
      intro height
      obtain ⟨hbal, hheight⟩ := balanced_loads c'.symbols.inner.captures offset height
      refine ⟨hbal.concat (by rw [hheight]; exact Nat.le_add_left _ _) rfl, ?_⟩
      rw [Instructions.heightAfter_append, hheight]
      show height + _ - _ + 1 = height + 1
      rw [Instruction.pops, Nat.add_sub_cancel]
  | exprs_nil => exact fun height => ⟨trivial, rfl⟩
  | exprs_cons _ _ ih₁ ih₂ =>
      intro height
      obtain ⟨hbal₁, hheight₁⟩ := ih₁ height
      obtain ⟨hbal₂, hheight₂⟩ := ih₂ (height + 1)
      have hh₁ : heightAfter height _ = height + 1 := hheight₁
      refine ⟨hbal₁.append (by rw [hh₁]; exact hbal₂), ?_⟩
      rw [Instructions.heightAfter_append, hh₁, hheight₂, Part.height, Part.height, List.length_cons]
      omega
  | @«let» c c' offset name value is h ih =>
      intro height
      obtain ⟨hbal, hheight⟩ := ih height
      have hh : heightAfter height is = height + 1 := hheight
      obtain ⟨hpops, hpushes, htarget⟩ := (c'.symbols.definedSymbol name).storeInstruction_pops
      refine ⟨hbal.concat (by rw [hh, hpops]; exact Nat.le_add_left _ _) htarget, ?_⟩
      simp only [Instructions.heightAfter_append, hh, Instructions.heightAfter_cons,
        Instructions.heightAfter_nil, Instruction.heightAfter, hpops, hpushes, Part.height]
      omega
  | return_none => exact fun height => ⟨.singleton (Nat.zero_le _) rfl, rfl⟩
  | return_some _ ih => exact fun height => balanced_take (ih height) rfl rfl rfl
  | expr _ ih => exact fun height => balanced_take (ih height) rfl rfl rfl
  | stmts_nil => exact fun height => ⟨trivial, rfl⟩
  | stmts_cons _ _ ih₁ ih₂ => exact fun height => balanced_append (ih₁ height) (ih₂ height)
  | branch_nil => exact fun height => ⟨.singleton (Nat.zero_le _) rfl, rfl⟩
  | branch_value _ ih => exact ih
  | branch_cons _ _ _ ih₁ ih₂ => exact fun height => balanced_append (ih₁ height) (ih₂ height)
  | body_nil => exact fun height => ⟨.singleton (Nat.zero_le _) rfl, rfl⟩
  | body_value _ ih => exact fun height => balanced_take (ih height) rfl rfl rfl
  | body_return _ ih => exact fun height => balanced_take (ih height) rfl rfl rfl
  | body_cons _ _ _ ih₁ ih₂ => exact fun height => balanced_append (ih₁ height) (ih₂ height)

/-! ## Bodies of functions

Every body ends with an instruction that returns, so that no call runs past the end of its code. -/

/-- The code of a body ends by ending the call. -/
theorem Emits.body_ends {block : List Stmt} {c c' : Compiler} {offset : Nat} {is : Instructions}
    (h : Emits (.body block) c offset is c') : ∃ js i, is = js ++ [i] ∧ i.isReturn = true := by
  generalize hP : Part.body block = P at h
  induction h generalizing block with
  | body_nil => exact ⟨[], _, rfl, rfl⟩
  | body_value => exact ⟨_, _, rfl, rfl⟩
  | body_return => exact ⟨_, _, rfl, rfl⟩
  | @body_cons _ _ _ _ _ _ is _ _ _ _ _ ih =>
      obtain ⟨js, i, rfl, hi⟩ := ih rfl
      exact ⟨is ++ js, i, by simp, hi⟩
  | _ => cases hP

/-- Jumps in front of a last instruction go no further than to that instruction. -/
theorem target_lt_concat {offset height target : Nat} {is : Instructions} {i last : Instruction}
    (h : Balanced offset height is) (hi : i ∈ is ++ [last]) (ht : i.target? = some target)
    (hlast : last.target? = none) : target < offset + Instructions.size (is ++ [last]) := by
  rcases List.mem_append.mp hi with hi | hi
  · have hle := h.target_le hi ht
    have hpos := last.size_pos
    simp only [Instructions.size_append, Instructions.size_cons]
    omega
  · rw [List.mem_singleton.mp hi, hlast] at ht
    cases ht

/-- No jump in a body goes to the end of its code. -/
theorem Emits.body_target_lt {block : List Stmt} {c c' : Compiler} {offset : Nat} {is : Instructions}
    (h : Emits (.body block) c offset is c') {i : Instruction} {target : Nat} (hi : i ∈ is)
    (ht : i.target? = some target) : target < offset + Instructions.size is := by
  generalize hP : Part.body block = P at h
  induction h generalizing block with
  | body_nil =>
      rw [List.mem_singleton.mp hi] at ht
      cases ht
  | body_value hvalue => exact target_lt_concat (hvalue.balanced 0).1 hi ht rfl
  | body_return hvalue => exact target_lt_concat (hvalue.balanced 0).1 hi ht rfl
  | @body_cons _ _ _ offset _ _ is js _ hs hrest _ ih =>
      rw [Instructions.size_append]
      rcases List.mem_append.mp hi with hi | hi
      · have hle := (hs.balanced 0).1.target_le hi ht
        obtain ⟨ks, last, rfl, -⟩ := hrest.body_ends
        have hpos := last.size_pos
        simp only [Instructions.size_append, Instructions.size_cons]
        omega
      · have hlt := ih hi rfl
        omega
  | _ => cases hP

/-- Storing in a slot of a call takes a number of one byte. -/
theorem setLocal_fits {k : Nat} (h : (Instruction.setLocal k).Fits) : k < 256 :=
  h.operand_lt (k, .byte) (List.mem_singleton.mpr rfl)

/-- Storing in a global takes a number of two bytes. -/
theorem setGlobal_fits {k : Nat} (h : (Instruction.setGlobal k).Fits) : k < 65536 :=
  h.operand_lt (k, .word) (List.mem_singleton.mpr rfl)

/-- The slots of a function have numbers of one byte, those of its parameters apart. Nothing is said of
the main program. -/
def Compiler.ByteSlots (c c' : Compiler) : Prop :=
  c.symbols.nested = true →
    c'.symbols.inner.numDefinitions ≤ max c.symbols.inner.numDefinitions 256

theorem Compiler.ByteSlots.trans {c₁ c₂ c₃ : Compiler} (h₁ : c₁.ByteSlots c₂) (hg : c₁.Grows c₂)
    (h₂ : c₂.ByteSlots c₃) : c₁.ByteSlots c₃ := by
  intro hn
  have hle₁ := h₁ hn
  have hle₂ := h₂ (hg.symbols.nested_eq.trans hn)
  omega

theorem Compiler.ByteSlots.of_extends {c c' : Compiler}
    (h : c.symbols.inner.Extends c'.symbols.inner) : c.ByteSlots c' := by
  intro _
  rw [h.numDefinitions]
  exact Nat.le_max_left _ _

theorem Compiler.ByteSlots.refl (c : Compiler) : c.ByteSlots c := .of_extends (.refl _)

/-- What is compiled keeps the numbers of its locals within one byte. -/
theorem Emits.byteSlots {P : Part} {c c' : Compiler} {offset : Nat} {is : Instructions}
    (h : Emits P c offset is c') (hc : c.symbols.Sound) (hfits : ∀ i ∈ is, i.Fits) : c.ByteSlots c' := by
  induction h with
  | identifier hresolve => exact .of_extends (Symbols.resolve?_spec hresolve hc).2.1
  | constant => exact .of_extends (.refl _)
  | boolean => exact .refl _
  | operation _ _ _ ih => exact ih hc (List.forall_mem_append.mp hfits).1
  | less _ ih => exact ih hc (List.forall_mem_append.mp hfits).1
  | «if» h₁ h₂ _ _ ih₁ ih₂ ih₃ =>
      obtain ⟨hc₁, hg₁⟩ := h₁.grows hc
      obtain ⟨hc₂, hg₂⟩ := h₂.grows hc₁
      obtain ⟨hfits₁, hfits⟩ := List.forall_mem_append.mp hfits
      obtain ⟨hfits₂, hfits₃⟩ := List.forall_mem_append.mp (List.forall_mem_cons.mp hfits).2
      have h₁₂ := (ih₁ hc hfits₁).trans hg₁ (ih₂ hc₁ hfits₂)
      exact h₁₂.trans (hg₁.trans hg₂) (ih₃ hc₂ (List.forall_mem_cons.mp hfits₃).2)
  | @function c c' offset name parameters body is hbody _ _ =>
      have hopen := hc.openFunction name parameters
      obtain ⟨hc', hgrows⟩ := hbody.grows hopen
      exact .of_extends (hc'.leave hgrows.symbols).2.1
  | exprs_nil => exact .refl _
  | exprs_cons h₁ _ ih₁ ih₂ =>
      obtain ⟨hc₁, hg₁⟩ := h₁.grows hc
      obtain ⟨hfits₁, hfits₂⟩ := List.forall_mem_append.mp hfits
      exact (ih₁ hc hfits₁).trans hg₁ (ih₂ hc₁ hfits₂)
  | @«let» c c' offset name value is h ih =>
      obtain ⟨-, hg⟩ := h.grows hc
      obtain ⟨hfits₁, hfits₂⟩ := List.forall_mem_append.mp hfits
      refine (ih hc hfits₁).trans hg fun hn => ?_
      have hfit := hfits₂ _ (List.mem_singleton.mpr rfl)
      rw [Symbol.storeInstruction, Symbols.definedSymbol, Symbols.definitionPlace_eq, hn] at hfit
      have hlt : c'.symbols.inner.numDefinitions < 256 := setLocal_fits hfit
      show c'.symbols.inner.numDefinitions + 1 ≤ _
      omega
  | return_none => exact .refl _
  | return_some _ ih => exact ih hc (List.forall_mem_append.mp hfits).1
  | expr _ ih => exact ih hc (List.forall_mem_append.mp hfits).1
  | stmts_nil => exact .refl _
  | stmts_cons h₁ _ ih₁ ih₂ =>
      obtain ⟨hc₁, hg₁⟩ := h₁.grows hc
      obtain ⟨hfits₁, hfits₂⟩ := List.forall_mem_append.mp hfits
      exact (ih₁ hc hfits₁).trans hg₁ (ih₂ hc₁ hfits₂)
  | branch_nil => exact .refl _
  | branch_value _ ih => exact ih hc hfits
  | branch_cons _ h₁ _ ih₁ ih₂ =>
      obtain ⟨hc₁, hg₁⟩ := h₁.grows hc
      obtain ⟨hfits₁, hfits₂⟩ := List.forall_mem_append.mp hfits
      exact (ih₁ hc hfits₁).trans hg₁ (ih₂ hc₁ hfits₂)
  | body_nil => exact .refl _
  | body_value _ ih => exact ih hc (List.forall_mem_append.mp hfits).1
  | body_return _ ih => exact ih hc (List.forall_mem_append.mp hfits).1
  | body_cons _ h₁ _ ih₁ ih₂ =>
      obtain ⟨hc₁, hg₁⟩ := h₁.grows hc
      obtain ⟨hfits₁, hfits₂⟩ := List.forall_mem_append.mp hfits
      exact (ih₁ hc hfits₁).trans hg₁ (ih₂ hc₁ hfits₂)

end ScriptLang
