import ScriptLang.Proofs.Refinement.Binders

/-!
# The local slots of code

Each `let` of a function has a slot of its own, behind those of the parameters and of the `let`s that are
compiled before it. `Allots n is s s'` says so of a part of a program that binds `n` names and has the code
`is`: the next `n` slots are given to it, and it stores in no others. Main statement: `Emits.allots`.
-/

namespace ScriptLang

/-! ## Slots -/

/-- A slot is one of those that the next `n` definitions get, if they belong to a function. -/
def Symbols.NextLocal (s : Symbols) (n k : Nat) : Prop :=
  s.nested = true ∧ s.inner.numDefinitions ≤ k ∧ k < s.inner.numDefinitions + n

/-- The instructions `is` are the code of a part that binds `n` names. Each of them gets a new slot in the
function at hand, and no instruction stores in another one. In the main program no slot is stored in. -/
structure Allots (n : Nat) (is : Instructions) (s s' : Symbols) : Prop where
  nested : s'.nested = s.nested
  numDefinitions : s'.inner.numDefinitions = s.inner.numDefinitions + n
  stores : ∀ k, .setLocal k ∈ is → s.NextLocal n k

namespace Allots

variable {n n₁ n₂ : Nat} {is js : Instructions} {s s₁ s₂ : Symbols}

/-- A part that binds nothing and stores nothing. -/
theorem of_extends (hnested : s₁.nested = s.nested) (hinner : s.inner.Extends s₁.inner)
    (hstores : ∀ k, .setLocal k ∉ is) : Allots 0 is s s₁ where
  nested := hnested
  numDefinitions := hinner.numDefinitions
  stores := fun k hmem => absurd hmem (hstores k)

theorem refl (s : Symbols) (hstores : ∀ k, .setLocal k ∉ is) : Allots 0 is s s :=
  of_extends rfl (.refl _) hstores

theorem trans (h₁ : Allots n₁ is s s₁) (h₂ : Allots n₂ js s₁ s₂) :
    Allots (n₁ + n₂) (is ++ js) s s₂ where
  nested := h₂.nested.trans h₁.nested
  numDefinitions := by rw [h₂.numDefinitions, h₁.numDefinitions, Nat.add_assoc]
  stores := by
    intro k hmem
    rcases List.mem_append.mp hmem with hmem | hmem
    · obtain ⟨hn, hle, hlt⟩ := h₁.stores k hmem
      exact ⟨hn, hle, by omega⟩
    · obtain ⟨hn, hle, hlt⟩ := h₂.stores k hmem
      rw [h₁.numDefinitions] at hle hlt
      exact ⟨h₁.nested.symm.trans hn, by omega, by omega⟩

/-- Other instructions that store in the same slots. -/
theorem congr (h : Allots n₁ is s s₁) (hn : n₂ = n₁) (his : ∀ k, .setLocal k ∈ js ↔ .setLocal k ∈ is) :
    Allots n₂ js s s₁ where
  nested := h.nested
  numDefinitions := hn ▸ h.numDefinitions
  stores := fun k hmem => hn ▸ h.stores k ((his k).mp hmem)

/-- One more instruction, which does not store in a slot. -/
theorem concat (h : Allots n is s s₁) {i : Instruction} (hi : ∀ k, i ≠ .setLocal k) :
    Allots n (is ++ [i]) s s₁ := by
  refine h.congr rfl fun k => ?_
  have hk : .setLocal k ≠ i := (hi k).symm
  simp [hk]

theorem define (s : Symbols) (name : String) :
    Allots 1 [(s.definedSymbol name).storeInstruction] s (s.define name) := by
  refine ⟨rfl, rfl, fun k hmem => ?_⟩
  have hk := List.mem_singleton.mp hmem
  rw [Symbol.storeInstruction, Symbols.definedSymbol, Symbols.definitionPlace_eq] at hk
  cases hn : s.nested with
  | false =>
      rw [hn] at hk
      cases hk
  | true =>
      rw [hn] at hk
      cases hk
      exact ⟨hn, Nat.le_refl _, Nat.lt_succ_self _⟩

end Allots

/-! ## The slots of a part -/

/-- What leaves a value on the stack does not store one in a slot. -/
theorem Instruction.ne_setLocal_of_pushes {i : Instruction} (h : i.pushes = 1) (k : Nat) :
    i ≠ .setLocal k := by
  rintro rfl
  cases h

/-- **Slots**: the code of a part stores in the slots of the names that the part binds. -/
theorem Emits.allots {P : Part} {c c' : Compiler} {offset : Nat} {is : Instructions}
    (h : Emits P c offset is c') (hc : c.symbols.Sound) :
    Allots (P.binders false).length is c.symbols c'.symbols := by
  induction h with
  | @identifier c offset name symbol symbols hresolve =>
      obtain ⟨-, hextends, hgrows, -⟩ := Symbols.resolve?_spec hresolve hc
      refine .of_extends hgrows.nested_eq hextends fun k hmem => ?_
      have hne := Instruction.ne_setLocal_of_pushes symbol.loadInstruction_pops.2.1 k
      exact hne (List.mem_singleton.mp hmem).symm
  | @constant c offset e v hv =>
      have hnone : Part.binders false (.expr e) = [] := by cases e <;> first | rfl | cases hv
      rw [hnone]
      exact .refl _ (by simp)
  | @boolean c offset value =>
      refine .refl _ fun k => ?_
      cases value <;> simp
  | @operation c c' offset e es is i hes hi _ ih =>
      rw [show Part.binders false (.expr e) = Part.binders false (.exprs es) from
        Expr.binders_operands hes false]
      exact (ih hc).concat (Instruction.ne_setLocal_of_pushes (Expr.instruction?_pops hi hes).2.1)
  | @less c c' offset left right is _ ih =>
      -- the operands are computed the other way round
      refine ((ih hc).concat (i := .greaterThan) fun _ => Instruction.noConfusion).congr ?_ fun _ => Iff.rfl
      simp [Part.binders, Expr.binders, Expr.bindersAll, Nat.add_comm]
  | @«if» c c₁ c₂ c₃ offset start condition consequence alternative is js ks h₁ h₂ _ h₃ ih₁ ih₂ ih₃ =>
      obtain ⟨hc₁, -⟩ := h₁.grows hc
      obtain ⟨hc₂, -⟩ := h₂.grows hc₁
      have hall := (ih₁ hc).trans ((ih₂ hc₁).trans (ih₃ hc₂))
      refine hall.congr ?_ fun k => by simp
      rw [Part.binders, Expr.binders_if, List.length_append, List.length_append]
      rfl
  | @function c c' offset name parameters body is hbody hfits _ =>
      -- the body has slots of its own, and around it values are only loaded
      obtain ⟨hc', hgrows⟩ := hbody.grows (hc.openFunction name parameters)
      obtain ⟨-, hextends, hgrows', -⟩ := hc'.leave hgrows.symbols
      refine .of_extends hgrows'.nested_eq hextends fun k hmem => ?_
      rcases List.mem_append.mp hmem with hload | hclosure
      · obtain ⟨symbol, -, heq⟩ := List.mem_map.mp hload
        exact Instruction.ne_setLocal_of_pushes symbol.loadInstruction_pops.2.1 k heq
      · cases List.mem_singleton.mp hclosure
  | exprs_nil => exact .refl _ (by simp)
  | @exprs_cons c c₁ c₂ offset e es is js h₁ _ ih₁ ih₂ =>
      refine ((ih₁ hc).trans (ih₂ (h₁.grows hc).1)).congr ?_ fun _ => Iff.rfl
      exact List.length_append
  | @«let» c c' offset name value is h ih =>
      refine ((ih hc).trans (.define _ name)).congr ?_ fun _ => Iff.rfl
      exact List.length_append
  | return_none => exact .refl _ (by simp)
  | return_some _ ih => exact (ih hc).concat (i := .returnValue) fun _ => Instruction.noConfusion
  | expr _ ih => exact (ih hc).concat (i := .pop) fun _ => Instruction.noConfusion
  | stmts_nil => exact .refl _ (by simp)
  | stmts_cons h₁ _ ih₁ ih₂ =>
      refine ((ih₁ hc).trans (ih₂ (h₁.grows hc).1)).congr ?_ fun _ => Iff.rfl
      exact List.length_append
  | branch_nil => exact .refl _ (by simp)
  | branch_value _ ih =>
      refine (ih hc).congr ?_ fun _ => Iff.rfl
      simp [Part.binders, Stmt.bindersAll, Stmt.binders]
  | branch_cons _ h₁ _ ih₁ ih₂ =>
      refine ((ih₁ hc).trans (ih₂ (h₁.grows hc).1)).congr ?_ fun _ => Iff.rfl
      exact List.length_append
  | body_nil => exact .refl _ (by simp)
  | body_value _ ih =>
      have hcode := (ih hc).concat (i := .returnValue) fun _ => Instruction.noConfusion
      refine hcode.congr ?_ fun _ => Iff.rfl
      simp [Part.binders, Stmt.bindersAll, Stmt.binders]
  | body_return _ ih =>
      have hcode := (ih hc).concat (i := .returnValue) fun _ => Instruction.noConfusion
      refine hcode.congr ?_ fun _ => Iff.rfl
      simp [Part.binders, Stmt.bindersAll, Stmt.binders]
  | body_cons _ h₁ _ ih₁ ih₂ =>
      refine ((ih₁ hc).trans (ih₂ (h₁.grows hc).1)).congr ?_ fun _ => Iff.rfl
      exact List.length_append

end ScriptLang
