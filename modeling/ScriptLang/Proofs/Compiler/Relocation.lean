import ScriptLang.Proofs.Compiler.Emission
import ScriptLang.Proofs.Compiler.Soundness
import ScriptLang.Proofs.Compiler.Transaction

/-!
# Compiling the rest of a program by itself

A program may be compiled in two parts, the second one by a compiler that goes on from the first. Its code
is then the rest of the code of the whole program, except that it begins at the offset 0 and its jumps go
nearer by the size of the first part. Main statement: `Compiler.compile_append`.

`Emits.shift` compares the code of the same part of a program at two offsets. `CompileM.Carries` says that
a step that succeeds behind other code succeeds without that code.
-/

namespace ScriptLang

/-! ## Code at another offset

Only jumps depend on where code stands. So the code of one part of a program at two offsets differs in the
targets of its jumps, and in nothing else: not in its size, nor in the constants and names that it leaves
behind. -/

namespace Instruction

/-- An instruction as it is when the code around it stands `n` bytes later. -/
def shift (n : Nat) : Instruction → Instruction
  | .jump target => .jump (target + n)
  | .jumpNotTruthy target => .jumpNotTruthy (target + n)
  | i => i

@[simp] theorem opcode_shift (n : Nat) (i : Instruction) : (i.shift n).opcode = i.opcode := by
  cases i <;> rfl

@[simp] theorem size_shift (n : Nat) (i : Instruction) : (i.shift n).size = i.size := by
  rw [size_eq, size_eq, opcode_shift]

@[simp] theorem shift_zero (i : Instruction) : i.shift 0 = i := by
  cases i <;> rfl

/-- An instruction without a target does not depend on its place. -/
theorem shift_of_target? {n : Nat} {i : Instruction} (h : i.target? = none) : i.shift n = i := by
  cases i <;> first | rfl | cases h

end Instruction

namespace Instructions

/-- Some instructions as they are `n` bytes later. -/
def shift (n : Nat) (is : Instructions) : Instructions := is.map (Instruction.shift n)

@[simp] theorem shift_nil (n : Nat) : shift n [] = [] := rfl

@[simp] theorem shift_cons (n : Nat) (i : Instruction) (is : Instructions) :
    shift n (i :: is) = i.shift n :: shift n is := rfl

@[simp] theorem shift_append (n : Nat) (is js : Instructions) :
    shift n (is ++ js) = shift n is ++ shift n js := by
  simp [shift]

/-- The code takes as many bytes at any offset, since targets have a fixed width. -/
@[simp] theorem size_shift (n : Nat) (is : Instructions) : size (shift n is) = size is := by
  induction is with
  | nil => rfl
  | cons i is ih => rw [shift_cons, size_cons, size_cons, ih, Instruction.size_shift]

@[simp] theorem shift_zero (is : Instructions) : shift 0 is = is := by
  induction is with
  | nil => rfl
  | cons i is ih => rw [shift_cons, ih, Instruction.shift_zero]

/-- Instructions without jumps are the same everywhere. -/
theorem shift_of_target? {n : Nat} {is : Instructions} (h : ∀ i ∈ is, i.target? = none) :
    shift n is = is := by
  induction is with
  | nil => rfl
  | cons i is ih =>
      rw [shift_cons, Instruction.shift_of_target? (h i List.mem_cons_self),
        ih fun j hj => h j (List.mem_cons_of_mem i hj)]

/-- An instruction without a target can be left out of the shift at the end. -/
theorem shift_concat {n : Nat} {is : Instructions} {i : Instruction} (h : i.target? = none) :
    shift n (is ++ [i]) = shift n is ++ [i] := by
  rw [shift_append, shift_cons, shift_nil, Instruction.shift_of_target? h]

end Instructions

open Instructions (shift)

/-- A constant is no operation. -/
theorem Expr.operands?_of_constant? {e : Expr} {v : Value} (h : e.constant? = some v) :
    e.operands? = none := by
  cases e <;> first | rfl | cases h

/-- **Code at another offset**: the same part of a program, compiled in the same state, has the same
instructions, and leaves the same state. Its jumps go as much further as it stands later. -/
theorem Emits.shift {P : Part} {c c₁ : Compiler} {offset : Nat} {is : Instructions}
    (h : Emits P c offset is c₁) : ∀ {n : Nat} {js : Instructions} {c₂ : Compiler},
    Emits P c (offset + n) js c₂ → js = Instructions.shift n is ∧ c₂ = c₁ := by
  induction h with
  | @identifier c offset name symbol symbols hresolve =>
      intro n js c₂ h'
      cases h' with
      | identifier hresolve' =>
          rw [hresolve] at hresolve'
          cases hresolve'
          exact ⟨by simp [Instruction.shift_of_target? symbol.loadInstruction_pops.2.2], rfl⟩
      | constant hv => cases hv
      | operation hes => cases hes
  | @constant c offset e v hv =>
      intro n js c₂ h'
      cases h' with
      | constant hv' =>
          rw [hv] at hv'
          cases hv'
          exact ⟨rfl, rfl⟩
      | operation hes =>
          rw [Expr.operands?_of_constant? hv] at hes
          cases hes
      | _ => cases hv
  | @boolean c offset value =>
      intro n js c₂ h'
      cases h' with
      | boolean => cases value <;> exact ⟨rfl, rfl⟩
      | constant hv => cases hv
      | operation hes => cases hes
  | @operation c c₁ offset e es is i hes hi h ih =>
      intro n js c₂ h'
      cases h' with
      | constant hv =>
          rw [Expr.operands?_of_constant? hv] at hes
          cases hes
      | operation hes' hi' h' =>
          rw [hes] at hes'
          rw [hi] at hi'
          cases hes'
          cases hi'
          obtain ⟨rfl, rfl⟩ := ih h'
          exact ⟨(Instructions.shift_concat (Expr.instruction?_pops hi hes).2.2).symm, rfl⟩
      | less => simp [Expr.operands?] at hes
      | _ => cases hes
  | less h ih =>
      intro n js c₂ h'
      cases h' with
      | less h' =>
          obtain ⟨rfl, rfl⟩ := ih h'
          exact ⟨(Instructions.shift_concat rfl).symm, rfl⟩
      | constant hv => cases hv
      | operation hes => simp [Expr.operands?] at hes
  | @«if» c c₁ c₂ c₃ offset start condition consequence alternative is js ks h₁ h₂ hstart h₃
      ih₁ ih₂ ih₃ =>
      intro n js' c' h'
      cases h' with
      | «if» h₁' h₂' hstart' h₃' =>
          obtain ⟨rfl, rfl⟩ := ih₁ h₁'
          rw [Instructions.size_shift, Nat.add_right_comm offset n, Nat.add_right_comm _ n] at h₂'
          obtain ⟨rfl, rfl⟩ := ih₂ h₂'
          rw [Instructions.size_shift, Instructions.size_shift] at hstart'
          have hshift : _ = start + n := hstart'.trans (by omega)
          rw [hshift] at h₃'
          obtain ⟨rfl, rfl⟩ := ih₃ h₃'
          refine ⟨?_, rfl⟩
          rw [hshift, Instructions.size_shift, Instructions.shift_append, Instructions.shift_cons,
            Instructions.shift_append, Instructions.shift_cons, Nat.add_right_comm start n]
          rfl
      | constant hv => cases hv
      | operation hes => cases hes
  | @function c c₁ offset name parameters body is hbody hfits ih =>
      intro n js c₂ h'
      cases h' with
      | function hbody' hfits' =>
          obtain ⟨rfl, rfl⟩ := ih (n := 0) hbody'
          rw [Instructions.shift_zero]
          refine ⟨?_, rfl⟩
          rw [Instructions.shift_concat rfl, Instructions.shift_of_target?]
          intro i hi
          obtain ⟨symbol, -, rfl⟩ := List.mem_map.mp hi
          exact symbol.loadInstruction_pops.2.2
      | constant hv => cases hv
      | operation hes => cases hes
  | exprs_nil =>
      intro n js c₂ h'
      cases h'
      exact ⟨rfl, rfl⟩
  | exprs_cons h₁ h₂ ih₁ ih₂ =>
      intro n js c₂ h'
      cases h' with
      | exprs_cons h₁' h₂' =>
          obtain ⟨rfl, rfl⟩ := ih₁ h₁'
          rw [Instructions.size_shift, Nat.add_right_comm] at h₂'
          obtain ⟨rfl, rfl⟩ := ih₂ h₂'
          exact ⟨(Instructions.shift_append ..).symm, rfl⟩
  | @«let» c c₁ offset name value is h ih =>
      intro n js c₂ h'
      cases h' with
      | «let» h' =>
          obtain ⟨rfl, rfl⟩ := ih h'
          exact ⟨(Instructions.shift_concat (Symbol.storeInstruction_pops _).2.2).symm, rfl⟩
  | return_none =>
      intro n js c₂ h'
      cases h'
      exact ⟨rfl, rfl⟩
  | return_some h ih =>
      intro n js c₂ h'
      cases h' with
      | return_some h' =>
          obtain ⟨rfl, rfl⟩ := ih h'
          exact ⟨(Instructions.shift_concat rfl).symm, rfl⟩
  | expr h ih =>
      intro n js c₂ h'
      cases h' with
      | expr h' =>
          obtain ⟨rfl, rfl⟩ := ih h'
          exact ⟨(Instructions.shift_concat rfl).symm, rfl⟩
  | stmts_nil =>
      intro n js c₂ h'
      cases h'
      exact ⟨rfl, rfl⟩
  | stmts_cons h₁ h₂ ih₁ ih₂ =>
      intro n js c₂ h'
      cases h' with
      | stmts_cons h₁' h₂' =>
          obtain ⟨rfl, rfl⟩ := ih₁ h₁'
          rw [Instructions.size_shift, Nat.add_right_comm] at h₂'
          obtain ⟨rfl, rfl⟩ := ih₂ h₂'
          exact ⟨(Instructions.shift_append ..).symm, rfl⟩
  | branch_nil =>
      intro n js c₂ h'
      cases h'
      exact ⟨rfl, rfl⟩
  | branch_value h ih =>
      intro n js c₂ h'
      cases h' with
      | branch_value h' => exact ih h'
      | branch_cons hs => cases hs rfl
  | branch_cons hs h₁ h₂ ih₁ ih₂ =>
      intro n js c₂ h'
      cases h' with
      | branch_value => cases hs rfl
      | branch_cons hs' h₁' h₂' =>
          obtain ⟨rfl, rfl⟩ := ih₁ h₁'
          rw [Instructions.size_shift, Nat.add_right_comm] at h₂'
          obtain ⟨rfl, rfl⟩ := ih₂ h₂'
          exact ⟨(Instructions.shift_append ..).symm, rfl⟩
  | body_nil =>
      intro n js c₂ h'
      cases h'
      exact ⟨rfl, rfl⟩
  | body_value h ih =>
      intro n js c₂ h'
      cases h' with
      | body_value h' =>
          obtain ⟨rfl, rfl⟩ := ih h'
          exact ⟨(Instructions.shift_concat rfl).symm, rfl⟩
      | body_cons hs => cases (hs rfl).1
  | body_return h ih =>
      intro n js c₂ h'
      cases h' with
      | body_return h' =>
          obtain ⟨rfl, rfl⟩ := ih h'
          exact ⟨(Instructions.shift_concat rfl).symm, rfl⟩
      | body_cons hs => cases (hs rfl).2
  | body_cons hs h₁ h₂ ih₁ ih₂ =>
      intro n js c₂ h'
      cases h' with
      | body_value => cases (hs rfl).1
      | body_return => cases (hs rfl).2
      | body_cons hs' h₁' h₂' =>
          obtain ⟨rfl, rfl⟩ := ih₁ h₁'
          rw [Instructions.size_shift, Nat.add_right_comm] at h₂'
          obtain ⟨rfl, rfl⟩ := ih₂ h₂'
          exact ⟨(Instructions.shift_append ..).symm, rfl⟩

/-! ## Emitters with code in front

An emitter also remembers its last two instructions, and looks at them to decide whether to take back a `pop`
or to turn it into a return. The number `k` counts how many of them are known to agree: right after code in
front it is 0, for the remembered instructions then belong to that code. -/

/-- An instruction that was written, as it is when the code around it stands `n` bytes later. -/
def Emitted.shift (n : Nat) (e : Emitted) : Emitted := { e with position := e.position + n }

namespace Emitter

/-- The second emitter has `n` bytes in front of the code of the first one. Their last instruction is the
same if `k` is at least 1, and the one before if `k` is at least 2. -/
structure Behind (n k : Nat) (e e' : Emitter) : Prop where
  position : e'.position = e.position + n
  last : 1 ≤ k → e'.last? = e.last?.map (Emitted.shift n)
  previous : 2 ≤ k → e'.previous? = e.previous?.map (Emitted.shift n)
  code : n = 0 → e'.code = e.code

namespace Behind

variable {n k : Nat} {e e' : Emitter}

theorem mono {k' : Nat} (h : Behind n k e e') (hle : k' ≤ k) : Behind n k' e e' :=
  ⟨h.position, fun hk => h.last (Nat.le_trans hk hle), fun hk => h.previous (Nat.le_trans hk hle), h.code⟩

/-- Each new instruction is one more that agrees. -/
theorem append (h : Behind n k e e') (i : Instruction) :
    Behind n (k + 1) (e.append i) (e'.append i) where
  position := by
    rw [position_append, position_append, h.position, Nat.add_right_comm]
  last := fun _ => congrArg (fun position => some (Emitted.mk i.opcode position)) h.position
  previous := fun hk => h.last (Nat.le_of_succ_le_succ hk)
  code := fun hn => congrArg (Array.appendList · i.encode) (h.code hn)

/-- A jump is filled in at its new position with its new target. -/
theorem patch (h : Behind n k e e') (position : Nat) (i : Instruction) :
    Behind n k (e.patch position i) (e'.patch (position + n) (i.shift n)) where
  position := by
    rw [position_patch, position_patch, h.position]
  last := h.last
  previous := h.previous
  code := by
    rintro rfl
    show e'.code.write (position + 0) (i.shift 0).encode = e.code.write position i.encode
    rw [h.code rfl, Instruction.shift_zero, Nat.add_zero]

theorem endsWith_eq (h : Behind n k e e') (hk : 1 ≤ k) (op : Opcode) :
    e'.endsWith op = e.endsWith op := by
  rw [endsWith, endsWith, h.last hk]
  cases e.last? <;> rfl

/-- Taking the last instruction back needs two that agree, since the one before comes last then. -/
theorem removeLast (h : Behind n k e e') (hk : 2 ≤ k) : Behind n k e.removeLast e'.removeLast := by
  have hlast := h.last (Nat.le_of_succ_le hk)
  cases he : e.last? with
  | none =>
      rw [he, Option.map_none] at hlast
      rw [Emitter.removeLast, Emitter.removeLast, he, hlast]
      exact h
  | some last =>
      rw [he, Option.map_some] at hlast
      rw [Emitter.removeLast, Emitter.removeLast, he, hlast]
      refine ⟨?_, fun _ => h.previous hk, h.previous, fun hn => ?_⟩
      · have hposition : e'.code.size = e.code.size + n := h.position
        show (e'.code.shrink (last.position + n)).size = (e.code.shrink last.position).size + n
        rw [Array.size_shrink, Array.size_shrink, hposition, Nat.add_min_add_right]
      · subst hn
        exact congrArg (Array.shrink · last.position) (h.code rfl)

/-- Turning the last instruction into a return changes its opcode alone. -/
theorem returnLast (h : Behind n k e e') (hk : 1 ≤ k) : Behind n k e.returnLast e'.returnLast := by
  have hlast := h.last hk
  cases he : e.last? with
  | none =>
      rw [he, Option.map_none] at hlast
      rw [Emitter.returnLast, Emitter.returnLast, he, hlast]
      exact h
  | some last =>
      rw [he, Option.map_some] at hlast
      rw [Emitter.returnLast, Emitter.returnLast, he, hlast]
      refine ⟨?_, fun _ => rfl, h.previous, fun hn => ?_⟩
      · show (e'.code.write _ _).size = (e.code.write _ _).size + n
        rw [Code.size_write, Code.size_write]
        exact h.position
      · subst hn
        exact congrArg (Code.write · last.position _) (h.code rfl)

end Behind

end Emitter

/-! ## Steps with code in front

A step of a compilation looks at the emitter it is given in a few places only. `Carries k k₁ x` says that it
does not notice code in front if the last `k` instructions agree, and that the last `k₁` agree behind it. -/

/-- The second state of a compilation has `n` bytes more in front of the code that is being written. -/
structure Assembly.Behind (n k : Nat) (a a' : Assembly) : Prop where
  constants : a'.constants = a.constants
  symbols : a'.symbols = a.symbols
  emitter : a.emitter.Behind n k a'.emitter

namespace CompileM

variable {α β : Type} {k k₁ k₂ : Nat}

/-- If a step succeeds behind other code, it succeeds in the same way without that code. -/
structure Carries (k k₁ : Nat) (x : CompileM α) : Prop where
  carry : ∀ {n : Nat} {a a' b' : Assembly} {r : α}, a.Behind n k a' → x a' = .ok r b' →
    ∃ b, x a = .ok r b ∧ b.Behind n k₁ b'

theorem Carries.mono {x : CompileM α} (hx : Carries k k₁ x) (hle : k₂ ≤ k₁) : Carries k k₂ x := by
  constructor
  intro n a a' b' r ha h
  obtain ⟨b, hb, hbehind⟩ := hx.carry ha h
  exact ⟨b, hb, hbehind.constants, hbehind.symbols, hbehind.emitter.mono hle⟩

/-- Two steps, one after the other: the second starts with as many instructions as the first one left. -/
theorem Carries.bind {x : CompileM α} {f : α → CompileM β} (hx : Carries k k₁ x)
    (hf : ∀ r, Carries k₁ k₂ (f r)) : Carries k k₂ (x >>= f) := by
  constructor
  intro n a a' b' r ha h
  obtain ⟨v, b₁', h₁, h⟩ := bind_eq_ok.mp h
  obtain ⟨b₁, hb₁, hbehind⟩ := hx.carry ha h₁
  obtain ⟨b, hb, hbehind⟩ := (hf v).carry hbehind h
  exact ⟨b, bind_eq_ok.mpr ⟨v, b₁, hb₁, hb⟩, hbehind⟩

/-- Going on with the state at hand. -/
theorem carries_get_bind {f : Assembly → CompileM β}
    (hf : ∀ {n : Nat} {a a' b' : Assembly} {r : β}, a.Behind n k a' → f a' a' = .ok r b' →
      ∃ b, f a a = .ok r b ∧ b.Behind n k₁ b') : Carries k k₁ (get >>= f) := ⟨hf⟩

/-- A step that changes nothing. -/
theorem carries_pure (v : α) : Carries k k (pure v : CompileM α) := by
  constructor
  intro n a a' b' r ha h
  cases pure_eq_ok.mp h
  exact ⟨a, rfl, ha⟩

theorem carries_throw {e : CompileError} : Carries k k₁ (throw e : CompileM α) :=
  ⟨fun _ h => absurd h not_throw_eq_ok⟩

theorem carries_ofExcept (x : Except CompileError α) :
    Carries k k (MonadExcept.ofExcept x : CompileM α) := by
  cases x with
  | ok v => exact carries_pure v
  | error e => exact carries_throw

/-- Writing an instruction, the same one in both states, adds one that agrees. -/
theorem carries_emit (i : Instruction) : Carries k (k + 1) (emit i) := by
  constructor
  intro n a a' b' r ha h
  obtain ⟨hfit, rfl⟩ := emit_eq_ok.mp h
  exact ⟨_, emit_eq_ok.mpr ⟨hfit, rfl⟩, ha.constants, ha.symbols, ha.emitter.append i⟩

theorem carries_addConstant (v : Value) : Carries k k (addConstant v) := by
  constructor
  intro n a a' b' r ha h
  cases modifyGet_eq_ok.mp h
  refine ⟨{ a with constants := a.constants.push v }, ?_, ?_, ha.symbols, ha.emitter⟩
  · rw [ha.constants]
    rfl
  · exact congrArg (Array.push · v) ha.constants

theorem carries_loadConstant (v : Value) : Carries k (k + 1) (loadConstant v) :=
  (carries_addConstant v).bind fun _ => carries_emit _

theorem carries_load (symbol : Symbol) : Carries k (k + 1) (load symbol) := by
  rw [load_eq_emit]
  exact carries_emit _

theorem carries_loadAll (symbols : List Symbol) : Carries k k (symbols.forM load) := by
  induction symbols with
  | nil => exact carries_pure ()
  | cons symbol symbols ih =>
      exact ((carries_load symbol).mono (Nat.le_succ k)).bind fun _ => ih

/-- Looking a name up reads the tables, which are the same in both states. -/
theorem carries_loadName (name : String) : Carries k (k + 1) (loadName name) := by
  constructor
  intro n a a' b' r ha h
  cases hresolve : a.symbols.resolve? name with
  | none =>
      rw [loadName_of_none (ha.symbols ▸ hresolve)] at h
      cases h
  | some p =>
      obtain ⟨symbol, symbols⟩ := p
      rw [loadName_of_some (ha.symbols ▸ hresolve)] at h
      rw [loadName_of_some hresolve]
      have hbehind : Assembly.Behind n k { a with symbols } { a' with symbols } :=
        ⟨ha.constants, rfl, ha.emitter⟩
      exact (carries_load symbol).carry hbehind h

/-- Defining a name and writing the store for it. -/
theorem carries_store (name : String) : Carries k (k + 1) (store name) := by
  refine carries_get_bind ?_
  intro n a a' b' r ha h
  rw [ha.symbols] at h
  have hbehind : Assembly.Behind n k { a with symbols := a.symbols.define name }
      { a' with symbols := a'.symbols.define name } :=
    ⟨ha.constants, congrArg (Symbols.define · name) ha.symbols, ha.emitter⟩
  generalize a.symbols.definedSymbol name = symbol at h ⊢
  cases hplace : symbol.place <;> rw [hplace] at h <;> exact (carries_emit _).carry hbehind h

/-- The end of a branch looks at the last instruction and may take it back. -/
theorem carries_endBranch (hk : 2 ≤ k) : Carries k k endBranch := by
  refine carries_get_bind ?_
  intro n a a' b' r ha h
  rw [ha.emitter.endsWith_eq (Nat.le_of_succ_le hk)] at h
  by_cases hends : a.emitter.endsWith .pop = true
  · rw [if_pos hends] at h ⊢
    cases modify_eq_ok.mp h
    exact ⟨_, rfl, ha.constants, ha.symbols, ha.emitter.removeLast hk⟩
  · rw [if_neg hends] at h ⊢
    exact ((carries_emit _).mono (Nat.le_succ k)).carry ha h

/-- The end of a body looks at the last instruction, and may replace it or add a return behind it. -/
theorem carries_endBody (hk : 1 ≤ k) : Carries k k endBody := by
  have hreturn : Carries k k (do unless (← get).emitter.endsWith .returnValue do emit .return) := by
    refine carries_get_bind ?_
    intro n a a' b' r ha h
    rw [ha.emitter.endsWith_eq hk] at h
    by_cases hends : a.emitter.endsWith .returnValue = true
    · rw [if_pos hends] at h ⊢
      exact (carries_pure ()).carry ha h
    · rw [if_neg hends] at h ⊢
      exact ((carries_emit _).mono (Nat.le_succ k)).carry ha h
  refine carries_get_bind ?_
  intro n a a' b' r ha h
  rw [ha.emitter.endsWith_eq hk] at h
  by_cases hends : a.emitter.endsWith .pop = true
  · rw [if_pos hends] at h ⊢
    have hbehind : Assembly.Behind n k { a with emitter := a.emitter.returnLast }
        { a' with emitter := a'.emitter.returnLast } :=
      ⟨ha.constants, ha.symbols, ha.emitter.returnLast hk⟩
    exact hreturn.carry hbehind h
  · rw [if_neg hends] at h ⊢
    exact hreturn.carry ha h

theorem carries_loadFunction (code : Code) (table : SymbolTable) (numParameters : Nat) :
    Carries k (k + 1) (loadFunction code table numParameters) :=
  (carries_loadAll table.captures).bind fun _ => (carries_addConstant _).bind fun _ => carries_emit _

/-- The test of two literals depends on the program alone. -/
theorem carries_checkLiteralOperands (left : Expr) (operator : Operator) (right : Expr) :
    Carries k k (checkLiteralOperands left operator right) := by
  unfold checkLiteralOperands
  split
  · split
    · exact carries_pure ()
    · exact carries_throw
  · exact carries_pure ()

/-- A function is written apart from the code around it. -/
theorem Carries.function {name : Option String} {parameters : List String} {body ending : CompileM Unit}
    {f : Code × SymbolTable → CompileM β} (hbody : Carries 2 2 body) (hending : Carries 2 2 ending)
    (hsteady : Steady (do body; ending)) (hf : ∀ r, Carries k k₁ (f r)) :
    Carries k k₁ (do beginFunction name parameters; body; ending; f (← endFunction)) := by
  constructor
  intro n a a' b' r ha h
  -- the states inside the function
  let inside (a : Assembly) : Assembly :=
    ⟨a.constants, a.symbols.openFunction name parameters, {}, a.emitter :: a.around⟩
  have hbegin : ∀ a : Assembly, beginFunction name parameters a = .ok () (inside a) := fun _ => rfl
  have hinside : (inside a).Behind 0 2 (inside a') :=
    ⟨ha.constants, congrArg (Symbols.openFunction · name parameters) ha.symbols,
      ⟨rfl, fun _ => rfl, fun _ => rfl, fun _ => rfl⟩⟩
  obtain ⟨_, a₁', h₁, h⟩ := bind_eq_ok.mp h
  rw [hbegin] at h₁
  cases h₁
  obtain ⟨_, a₂', h₂, h⟩ := bind_eq_ok.mp h
  obtain ⟨_, a₃', h₃, h⟩ := bind_eq_ok.mp h
  obtain ⟨a₂, hb₂, ha₂⟩ := hbody.carry hinside h₂
  obtain ⟨a₃, hb₃, ha₃⟩ := hending.carry ha₂ h₃
  -- what is around them
  have hrun : (body >>= fun _ => ending) (inside a) = .ok () a₃ := bind_eq_ok.mpr ⟨(), a₂, hb₂, hb₃⟩
  have hrun' : (body >>= fun _ => ending) (inside a') = .ok () a₃' := bind_eq_ok.mpr ⟨(), a₂', h₂, h₃⟩
  have hbalanced := hsteady (inside a)
  have hbalanced' := hsteady (inside a')
  rw [hrun] at hbalanced
  rw [hrun'] at hbalanced'
  have hdepth : a₃.symbols.outer.length = a.symbols.outer.length + 1 := by
    rw [hbalanced.depth]
    exact congrArg List.length (Symbols.openFunction_outer a.symbols name parameters)
  obtain ⟨table, tables, houter⟩ := List.exists_cons_of_length_eq_add_one hdepth
  have houter' : a₃'.symbols.outer = table :: tables := by rw [ha₃.symbols, houter]
  obtain ⟨v, a₄', h₄, h⟩ := bind_eq_ok.mp h
  rw [endFunction_apply hbalanced'.around houter'] at h₄
  cases h₄
  have hend := endFunction_apply hbalanced.around houter
  rw [← ha₃.symbols, ← ha₃.emitter.code rfl, ← ha₃.constants] at hend
  have hbehind : Assembly.Behind n k ⟨a₃'.constants, ⟨table, tables⟩, a.emitter, a.around⟩
      ⟨a₃'.constants, ⟨table, tables⟩, a'.emitter, a'.around⟩ := ⟨rfl, rfl, ha.emitter⟩
  obtain ⟨b, hb, hbb'⟩ := (hf _).carry hbehind h
  refine ⟨b, ?_, hbb'⟩
  exact bind_eq_ok.mpr ⟨(), inside a, hbegin a, bind_eq_ok.mpr ⟨(), a₂, hb₂, bind_eq_ok.mpr
    ⟨(), a₃, hb₃, bind_eq_ok.mpr ⟨_, _, hend, hb⟩⟩⟩⟩

/-- A target that is nearer fits as well. -/
theorem fits_of_shift {n : Nat} {i : Instruction} (h : (i.shift n).Fits) : i.Fits := by
  have hjump : ∀ {target : Nat}, target + n < Width.word.bound →
      (Instruction.jump target).Fits ∧ (Instruction.jumpNotTruthy target).Fits := by
    intro target hlt
    have hle : ¬ Width.word.bound ≤ target := by omega
    exact ⟨List.find?_cons_of_neg (by simpa using hle), List.find?_cons_of_neg (by simpa using hle)⟩
  cases i with
  | jump target => exact (hjump (h.operand_lt _ List.mem_cons_self)).1
  | jumpNotTruthy target => exact (hjump (h.operand_lt _ List.mem_cons_self)).2
  | _ => exact h

/-- A jump is filled in with a nearer target. -/
theorem carry_patch {n p p' : Nat} {i i' : Instruction} {a a' b' : Assembly} {r : Unit}
    (ha : a.Behind n k a') (hp : p' = p + n) (hi : i' = i.shift n) (h : patch p' i' a' = .ok r b') :
    ∃ b, patch p i a = .ok r b ∧ b.Behind n k b' := by
  subst hp hi
  obtain ⟨hfit, rfl⟩ := patch_eq_ok.mp h
  exact ⟨_, patch_eq_ok.mpr ⟨fits_of_shift hfit, rfl⟩, ha.constants, ha.symbols, ha.emitter.patch p i⟩

/-- A conditional expression remembers two positions and patches the jumps there later. Both are further behind
by the size of the code in front, and so are the targets. -/
theorem Carries.if {condition consequence alternative : CompileM Unit}
    (hcondition : Carries k (k + 1) condition) (hconsequence : Carries (k + 2) (k + 2) consequence)
    (halternative : Carries (k + 2) (k + 2) alternative) :
    Carries k (k + 1) (do
      condition
      let jumpToAlternative ← position
      emit (.jumpNotTruthy 9999)
      consequence
      endBranch
      let jumpToEnd ← position
      emit (.jump 9999)
      patch jumpToAlternative (.jumpNotTruthy (← position))
      alternative
      patch jumpToEnd (.jump (← position))) := by
  constructor
  intro n a a' b' r ha h
  simp only [bind_eq_ok, position_eq_ok] at h ⊢
  obtain ⟨_, a₁', h₁, _, _, hp₁, _, a₂', h₂, _, a₃', h₃, _, a₄', h₄, _, _, hp₄, _, a₅', h₅, _, _, hp₅,
    _, a₆', h₆, _, a₇', h₇, _, _, hp₇, h₈⟩ := h
  cases hp₁; cases hp₄; cases hp₅; cases hp₇
  obtain ⟨a₁, hb₁, ha₁⟩ := hcondition.carry ha h₁
  obtain ⟨a₂, hb₂, ha₂⟩ := (carries_emit _).carry ha₁ h₂
  obtain ⟨a₃, hb₃, ha₃⟩ := hconsequence.carry ha₂ h₃
  obtain ⟨a₄, hb₄, ha₄⟩ := (carries_endBranch (Nat.le_add_left 2 k)).carry ha₃ h₄
  obtain ⟨a₅, hb₅, ha₅⟩ := ((carries_emit _).mono (Nat.le_succ _)).carry ha₄ h₅
  obtain ⟨a₆, hb₆, ha₆⟩ := carry_patch ha₅ ha₁.emitter.position
    (i := .jumpNotTruthy a₅.emitter.position)
    (congrArg Instruction.jumpNotTruthy ha₅.emitter.position) h₆
  obtain ⟨a₇, hb₇, ha₇⟩ := halternative.carry ha₆ h₇
  obtain ⟨b, hb, hbehind⟩ := carry_patch ha₇ ha₄.emitter.position
    (i := .jump a₇.emitter.position) (congrArg Instruction.jump ha₇.emitter.position) h₈
  refine ⟨b, ?_, hbehind.constants, hbehind.symbols, hbehind.emitter.mono (Nat.le_succ _)⟩
  exact ⟨_, a₁, hb₁, _, a₁, rfl, _, a₂, hb₂, _, a₃, hb₃, _, a₄, hb₄, _, a₄, rfl, _, a₅, hb₅, _, a₅, rfl,
    _, a₆, hb₆, _, a₇, hb₇, _, a₇, rfl, hb⟩

end CompileM

/-! ## Parts of programs

By induction on the program. Each expression ends with an instruction of its own, so it leaves one more that
agrees; lists of expressions and of statements may be empty, and promise no more than they were given. -/

open CompileM

mutual

/-- An expression can be compiled without the code in front, and its own last instruction agrees. -/
theorem Expr.compile_carries : ∀ (e : Expr) (k : Nat), Carries k (k + 1) e.compile
  | .identifier name, k => by
      rw [Expr.compile]
      exact carries_loadName name
  | .integer value, k => by
      rw [Expr.compile]
      exact carries_loadConstant _
  | .string contents, k => by
      rw [Expr.compile]
      exact carries_loadConstant _
  | .boolean true, k | .boolean false, k => by
      rw [Expr.compile]
      exact carries_emit _
  | .array elements, k => by
      rw [Expr.compile]
      exact (Expr.compileAll_carries elements k).bind fun _ => carries_emit _
  | .hash pairs, k => by
      rw [Expr.compile]
      exact (Expr.compilePairs_carries pairs k).bind fun _ => carries_emit _
  | .unary operator operand, k => by
      rw [Expr.compile]
      exact ((Expr.compile_carries operand k).mono (Nat.le_succ k)).bind fun _ =>
        (carries_ofExcept _).bind fun _ => carries_emit _
  | .binary left operator right, k => by
      rw [Expr.compile]
      refine (carries_checkLiteralOperands left operator right).bind fun _ => ?_
      have hleft := (Expr.compile_carries left k).mono (Nat.le_succ k)
      have hright := (Expr.compile_carries right k).mono (Nat.le_succ k)
      have hinstruction : Carries k (k + 1)
          (do emit (← MonadExcept.ofExcept operator.binaryInstruction)) :=
        (carries_ofExcept _).bind fun _ => carries_emit _
      by_cases hless : operator = .lessThan
      · rw [if_pos hless]
        exact hright.bind fun _ => hleft.bind fun _ => hinstruction
      · rw [if_neg hless]
        exact hleft.bind fun _ => hright.bind fun _ => hinstruction
  | .if condition consequence alternative, k => by
      rw [Expr.compile]
      exact (Expr.compile_carries condition k).if (Stmt.compileAll_carries consequence (k + 2))
        (Stmt.compileAlternative_carries alternative (Nat.le_add_left 2 k))
  | .function name parameters body, k => by
      rw [Expr.compile]
      exact Carries.function (Stmt.compileAll_carries body 2) (carries_endBody (Nat.le_succ 1))
        ((Stmt.compileAll_steady body).bind fun _ => steady_endBody)
        fun (code, table) => carries_loadFunction code table parameters.length
  | .call callee arguments, k => by
      rw [Expr.compile]
      exact ((Expr.compile_carries callee k).mono (Nat.le_succ k)).bind fun _ =>
        (Expr.compileAll_carries arguments k).bind fun _ => carries_emit _
  | .index collection key, k => by
      rw [Expr.compile]
      exact ((Expr.compile_carries collection k).mono (Nat.le_succ k)).bind fun _ =>
        ((Expr.compile_carries key k).mono (Nat.le_succ k)).bind fun _ => carries_emit _

theorem Expr.compileAll_carries : ∀ (es : List Expr) (k : Nat), Carries k k (Expr.compileAll es)
  | [], k => by
      rw [Expr.compileAll]
      exact carries_pure ()
  | e :: es, k => by
      rw [Expr.compileAll]
      exact ((Expr.compile_carries e k).mono (Nat.le_succ k)).bind fun _ =>
        Expr.compileAll_carries es k

theorem Expr.compilePairs_carries : ∀ (pairs : List (Expr × Expr)) (k : Nat),
    Carries k k (Expr.compilePairs pairs)
  | [], k => by
      rw [Expr.compilePairs]
      exact carries_pure ()
  | (key, value) :: pairs, k => by
      rw [Expr.compilePairs]
      exact ((Expr.compile_carries key k).mono (Nat.le_succ k)).bind fun _ =>
        ((Expr.compile_carries value k).mono (Nat.le_succ k)).bind fun _ =>
        Expr.compilePairs_carries pairs k

/-- The alternative of a conditional expression. Its end may look two instructions back, and so many of the
expression are there. -/
theorem Stmt.compileAlternative_carries : ∀ (alternative : Option (List Stmt)) {k : Nat}, 2 ≤ k →
    Carries k k (Stmt.compileAlternative alternative)
  | none, k, _ => by
      rw [Stmt.compileAlternative]
      exact (carries_emit _).mono (Nat.le_succ k)
  | some alternative, k, hk => by
      rw [Stmt.compileAlternative]
      exact (Stmt.compileAll_carries alternative k).bind fun _ => carries_endBranch hk

theorem Stmt.compile_carries : ∀ (s : Stmt) (k : Nat), Carries k k s.compile
  | .let name value, k => by
      rw [Stmt.compile]
      exact ((Expr.compile_carries value k).mono (Nat.le_succ k)).bind fun _ =>
        (carries_store name).mono (Nat.le_succ k)
  | .return none, k => by
      rw [Stmt.compile]
      exact (carries_emit _).mono (Nat.le_succ k)
  | .return (some value), k => by
      rw [Stmt.compile]
      exact ((Expr.compile_carries value k).mono (Nat.le_succ k)).bind fun _ =>
        (carries_emit _).mono (Nat.le_succ k)
  | .expr value, k => by
      rw [Stmt.compile]
      exact ((Expr.compile_carries value k).mono (Nat.le_succ k)).bind fun _ =>
        (carries_emit _).mono (Nat.le_succ k)

/-- Statements can be compiled without the code in front. -/
theorem Stmt.compileAll_carries : ∀ (ss : List Stmt) (k : Nat), Carries k k (Stmt.compileAll ss)
  | [], k => by
      rw [Stmt.compileAll]
      exact carries_pure ()
  | s :: ss, k => by
      rw [Stmt.compileAll]
      exact (Stmt.compile_carries s k).bind fun _ => Stmt.compileAll_carries ss k

end

/-! ## Whole programs -/

/-- The statements of two programs are compiled one after the other. -/
theorem Stmt.compileAll_append (ss ts : List Stmt) :
    Stmt.compileAll (ss ++ ts) = (do Stmt.compileAll ss; Stmt.compileAll ts) := by
  induction ss with
  | nil => rw [List.nil_append, Stmt.compileAll, pure_bind]
  | cons s ss ih => rw [List.cons_append, Stmt.compileAll, Stmt.compileAll, ih, bind_assoc]

namespace Compiler

/-- A compilation at rest is a compilation with everything in front taken away. -/
theorem resume_behind (a : Assembly) :
    (Assembly.resume a.compiler).Behind a.emitter.position 0 a where
  constants := rfl
  symbols := rfl
  emitter := by
    refine ⟨(Nat.zero_add _).symm, fun h => absurd h (by decide), fun h => absurd h (by decide), ?_⟩
    exact fun h => Array.eq_empty_of_size_eq_zero h

/-- What a compiler that is at rest makes of statements that all compile. -/
theorem compile_of_compileAll {c : Compiler} {program : Program} {a : Assembly}
    (h : Stmt.compileAll program (Assembly.resume c) = .ok () a) :
    c.compile program = (.ok ⟨a.emitter.code, a.constants⟩, a.compiler) := by
  rw [compile, Assembly.compile, h]
  rfl

/-- **A program in two parts**: if a program can be compiled, each part of it can be compiled where the
one before has left the compiler. The code of the whole program consists of the code of the first part and
that of the second one, whose jumps go further by the size of the first part. -/
theorem compile_append {c c' : Compiler} {first second : Program} {b : Bytecode}
    (h : c.compile (first ++ second) = (.ok b, c')) :
    ∃ (c₁ : Compiler) (is js : Instructions),
      c.compile first = (.ok ⟨Instructions.toCode is, c₁.constants⟩, c₁) ∧
      c₁.compile second = (.ok ⟨Instructions.toCode js, c'.constants⟩, c') ∧
      b = ⟨Instructions.toCode (is ++ shift (Instructions.size is) js), c'.constants⟩ ∧
      Emits (.stmts first) c 0 is c₁ ∧ Emits (.stmts second) c₁ 0 js c' ∧
      (∀ i ∈ is ++ shift (Instructions.size is) js, i.Fits) ∧ ∀ i ∈ js, i.Fits := by
  rw [compile, Assembly.compile] at h
  cases hrun : Stmt.compileAll (first ++ second) (Assembly.resume c) with
  | error e a => simp [hrun] at h
  | ok u a =>
      simp only [hrun, Prod.mk.injEq, Except.ok.injEq] at h
      obtain ⟨rfl, rfl⟩ := h
      rw [Stmt.compileAll_append] at hrun
      obtain ⟨_, a₁, h₁, h₂⟩ := bind_eq_ok.mp hrun
      obtain ⟨a₂, hsecond, hbehind⟩ := (Stmt.compileAll_carries second 0).carry (resume_behind a₁) h₂
      have hcompiler : a₂.compiler = a.compiler := by
        rw [Assembly.compiler, Assembly.compiler, hbehind.constants, hbehind.symbols]
      obtain ⟨is, hlayout₁, hw₁⟩ := Stmt.compileAll_writes first h₁
      obtain ⟨js, hlayout₂, hw₂⟩ := Stmt.compileAll_writes second hsecond
      obtain ⟨ks, hlayout, hw⟩ := Stmt.compileAll_writes second h₂
      have hsize : a₁.emitter.position = 0 + Instructions.size is := by
        rw [hw₁.position]
        rfl
      rw [hsize] at hlayout
      obtain ⟨rfl, -⟩ := hlayout₂.shift hlayout
      have hcode₁ : a₁.emitter.code = Instructions.toCode is := by
        rw [← Array.toList_inj, hw₁.code]
        simp [Instructions.toCode, Assembly.resume]
      have hcode₂ : a₂.emitter.code = Instructions.toCode js := by
        rw [← Array.toList_inj, hw₂.code]
        simp [Instructions.toCode, Assembly.resume]
      have hcode : a.emitter.code =
          Instructions.toCode (is ++ Instructions.shift (Instructions.size is) js) := by
        rw [← Array.toList_inj, hw.code, hcode₁]
        simp [Instructions.toCode]
      refine ⟨a₁.compiler, is, js, ?_, ?_, ?_, hlayout₁, ?_, ?_, hw₂.fits⟩
      · rw [compile_of_compileAll h₁, hcode₁]
        rfl
      · rw [compile_of_compileAll hsecond, hcode₂, hcompiler, ← hbehind.constants]
        rfl
      · rw [hcode]
        rfl
      · rw [hcompiler] at hlayout₂
        exact hlayout₂
      · exact forall_mem_append hw₁.fits hw.fits

end Compiler

end ScriptLang
