import ScriptLang.Proofs.Compiler.Emission
import ScriptLang.Proofs.Compiler.Soundness
import ScriptLang.Proofs.Compiler.Transaction

/-!
# Well-formed bytecode

Whatever programs a compiler has seen before, the code that it writes is well formed: it decodes into
whole instructions, jumps forward to instructions only, and refers to constants, slots and captured values
that exist. Main statement: `Compiler.compile_wellFormed`.
-/

namespace ScriptLang

/-! ## Well-formedness -/

/-- What an instruction refers to exists. `numLocals?` is the number of local slots of the function that
it belongs to; there is none in the main program. -/
def Instruction.Valid (pool : Array Value) (numLocals? : Option Nat) : Instruction → Prop
  | .constant k => ∃ v, pool[k]? = some v ∧ (v.kind = .integer ∨ v.kind = .string)
  | .closure k n => ∃ f, pool[k]? = some (.compiledFunction f) ∧ Code.FreeBelow f.code n
  | .getLocal k | .setLocal k => ∃ numLocals, numLocals? = some numLocals ∧ k < numLocals
  | .getFree _ | .currentClosure => numLocals?.isSome = Bool.true
  | .getBuiltin k => k < Builtin.all.length
  | _ => True

/-- The code of a function, or of the main program, consists of whole instructions. Each jump goes to the
offset of a later one, or in the main program to the end of the code, and whatever an instruction refers to
exists. -/
structure Code.WellFormed (pool : Array Value) (numLocals? : Option Nat) (code : Code)
    (is : Instructions) : Prop where
  decodes : code.Decodes is
  jumps : ∀ pre i post target, is = pre ++ i :: post → i.target? = some target →
    ∃ skipped rest, post = skipped ++ rest ∧ target = Instructions.size (pre ++ i :: skipped) ∧
      (numLocals?.isSome = true → rest ≠ [])
  valid : ∀ i ∈ is, i.Valid pool numLocals?

/-! ## Reachable compilers -/

/-- The states of a compiler that has compiled some programs, successfully or not. -/
inductive Compiler.Reachable : Compiler → Prop where
  | initial : Reachable .initial
  | compile {c : Compiler} (program : Program) : Reachable c → Reachable (c.compile program).2

/-- A failed compilation leaves the compiler as it was. -/
theorem Compiler.compile_error {c c' : Compiler} {program : Program} {e : CompileError}
    (h : c.compile program = (.error e, c')) : c' = c := by
  rw [compile, Prod.mk.injEq] at h
  rw [← h.2, (Assembly.compile_of_error (Assembly.resume_atRest c) h.1).1]
  rfl

/-- Compilers stay sound, whether or not a program compiles. -/
theorem Compiler.Sound.compile {c : Compiler} (hc : c.Sound) (program : Program) :
    (c.compile program).2.Sound := by
  rcases h : c.compile program with ⟨result, c'⟩
  cases result with
  | error e =>
      rw [Compiler.compile_error h]
      exact hc
  | ok b =>
      obtain ⟨is, hemits, -, -⟩ := Compiler.compile_emits h
      exact hc.emits hemits

/-- **A reachable compiler** is sound. -/
theorem Compiler.Reachable.sound {c : Compiler} (h : c.Reachable) : c.Sound := by
  induction h with
  | initial => exact Compiler.initial_isSound
  | compile program _ ih => exact ih.compile program

theorem Compiler.Reachable.nested_eq {c : Compiler} (h : c.Reachable) :
    c.symbols.nested = false := by
  induction h with
  | initial => exact Compiler.initial_nested
  | @compile c program hc ih =>
      rcases h : c.compile program with ⟨result, c'⟩
      cases result with
      | error e =>
          rw [Compiler.compile_error h]
          exact ih
      | ok b =>
          obtain ⟨is, hemits, -, -⟩ := Compiler.compile_emits h
          exact (hemits.grows hc.sound.symbols).2.symbols.nested_eq.trans ih

/-! ## Code of programs and bodies -/

/-- References of the compiler are valid in the finished code. -/
theorem Instruction.Refers.valid {c : Compiler} {i : Instruction} {numLocals? : Option Nat}
    {pool : Array Value} (h : i.Refers c) (hpool : c.constants.toList <+: pool.toList)
    (hlocals : numLocals? =
      if c.symbols.nested then some c.symbols.inner.numDefinitions else none) :
    i.Valid pool numLocals? := by
  subst hlocals
  cases i with
  | constant k =>
      obtain ⟨v, hv, hkind⟩ := h
      exact ⟨v, getElem?_of_isPrefix hpool hv, hkind⟩
  | closure k n =>
      obtain ⟨f, hf, hfree⟩ := h
      exact ⟨f, getElem?_of_isPrefix hpool hf, hfree⟩
  | getLocal k => exact ⟨_, if_pos h.1, h.2⟩
  | setLocal k => exact ⟨_, if_pos h.1, h.2⟩
  | getFree k =>
      rw [Valid, if_pos h.1]
      rfl
  | currentClosure =>
      have hn : c.symbols.nested = Bool.true := h
      rw [Valid, if_pos hn]
      rfl
  | getBuiltin k => exact h
  | _ => trivial

theorem Emits.wellFormed_main {program : Program} {c c' : Compiler} {is : Instructions}
    (h : Emits (.stmts program) c 0 is c') (hc : c.symbols.Sound) (hn : c.symbols.nested = false)
    (hfits : ∀ i ∈ is, i.Fits) :
    Code.WellFormed c'.constants none (Instructions.toCode is) is where
  decodes := Code.decodes_toCode hfits
  jumps := by
    intro pre i post target his ht
    have hbal := (h.balanced 0).1
    rw [his] at hbal
    obtain ⟨skipped, rest, rfl, htarget⟩ := hbal.exists_target ht
    refine ⟨skipped, rest, rfl, ?_, fun hsome => absurd hsome (by simp)⟩
    rw [htarget, Instructions.size_append, Instructions.size_cons]
    omega
  valid := by
    have hn' := (h.grows hc).2.symbols.nested_eq.trans hn
    exact fun i hi => (h.refers hc i hi).valid (List.prefix_refl _) (by simp [hn'])

/-- The code of a function is well-formed, with its number of locals. -/
theorem Emits.wellFormed_body {block : List Stmt} {c c' : Compiler} {is : Instructions}
    {pool : Array Value} (h : Emits (.body block) c 0 is c') (hc : c.symbols.Sound)
    (hn : c.symbols.nested = true) (hfits : ∀ i ∈ is, i.Fits)
    (hpool : c'.constants.toList <+: pool.toList) :
    Code.WellFormed pool (some c'.symbols.inner.numDefinitions) (Instructions.toCode is) is where
  decodes := Code.decodes_toCode hfits
  jumps := by
    intro pre i post target his ht
    have hbal := (h.balanced 0).1
    have hlt := h.body_target_lt (i := i) (by simp [his]) ht
    rw [his] at hbal hlt
    obtain ⟨skipped, rest, rfl, htarget⟩ := hbal.exists_target ht
    refine ⟨skipped, rest, rfl, ?_, fun _ hrest => ?_⟩
    · rw [htarget, Instructions.size_append, Instructions.size_cons]
      omega
    · subst hrest
      simp only [Instructions.size_append, Instructions.size_cons, Instructions.size_nil] at hlt
      omega
  valid := by
    have hn' := (h.grows hc).2.symbols.nested_eq.trans hn
    exact fun i hi => (h.refers hc i hi).valid hpool (by simp [hn'])

theorem Compiler.exists_of_isOk {c : Compiler} {program : Program}
    (h : (c.compile program).1.isOk = true) : ∃ b c', c.compile program = (.ok b, c') := by
  rcases hc : c.compile program with ⟨result, c'⟩
  cases result with
  | error e =>
      rw [hc] at h
      cases h
  | ok b => exact ⟨b, c', rfl⟩

/-- A function of the pool has well-formed code, laid out as the code of a body. -/
theorem FunctionOf.wellFormed {pool : Array Value} {f : CompiledFunction} (h : FunctionOf pool f) :
    (∃ block c c' is, Emits (.body block) c 0 is c' ∧
      Code.WellFormed pool (some f.numLocals) f.code is) ∧
      f.numParameters ≤ f.numLocals := by
  cases h with
  | @body c c' block is hbody hs hn hfits hpool =>
      refine ⟨⟨block, c, c', is, hbody, hbody.wellFormed_body hs hn hfits hpool⟩, ?_⟩
      exact (hbody.grows hs).2.symbols.inner.numDefinitions

/-- **Well-formedness**: if a compiler that has compiled any programs before compiles another one, the
code of the program and the code of every function among the constants are well formed, and a function has
a slot for each of its parameters. Both are laid out as `Emits` says: of an `if`, the first jump goes to
the first instruction of the alternative, or to the `null` in its place, and the second one behind it. -/
theorem Compiler.compile_wellFormed {c c' : Compiler} {program : Program} {b : Bytecode}
    (hc : c.Reachable) (h : c.compile program = (.ok b, c')) :
    (∃ is, Emits (.stmts program) c 0 is c' ∧ Code.WellFormed b.constants none b.code is) ∧
      ∀ f, .compiledFunction f ∈ b.constants.toList →
        (∃ block c₁ c₂ is, Emits (.body block) c₁ 0 is c₂ ∧
          Code.WellFormed b.constants (some f.numLocals) f.code is) ∧
          f.numParameters ≤ f.numLocals := by
  obtain ⟨is, hemits, hfits, rfl⟩ := Compiler.compile_emits h
  refine ⟨⟨is, hemits, hemits.wellFormed_main hc.sound.symbols hc.nested_eq hfits⟩, fun f hf => ?_⟩
  exact ((hc.sound.emits hemits).pool f hf).wellFormed

/-- A function that calls itself in one branch and captures its parameter in the other. -/
def branchingProgram : Program :=
  [.let "f" (.function (some "f") ["x"]
    [.expr (.if (.identifier "x") [.return (some (.call (.identifier "f") [.boolean false]))]
      (some [.expr (.function none [] [.expr (.identifier "x")])]))]),
   .expr (.call (.identifier "f") [.boolean true])]

theorem branchingProgram_wellFormed : ∃ b c', Compiler.initial.compile branchingProgram = (.ok b, c') ∧
    ((∃ is, Emits (.stmts branchingProgram) .initial 0 is c' ∧
      Code.WellFormed b.constants none b.code is) ∧
      ∀ f, .compiledFunction f ∈ b.constants.toList →
        (∃ block c₁ c₂ is, Emits (.body block) c₁ 0 is c₂ ∧
          Code.WellFormed b.constants (some f.numLocals) f.code is) ∧
          f.numParameters ≤ f.numLocals) := by
  have hok : (Compiler.initial.compile branchingProgram).1.isOk = true := by decide +kernel
  obtain ⟨b, c', h⟩ := Compiler.exists_of_isOk hok
  exact ⟨b, c', h, Compiler.compile_wellFormed .initial h⟩

end ScriptLang
