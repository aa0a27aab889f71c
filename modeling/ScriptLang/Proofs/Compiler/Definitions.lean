import ScriptLang.Proofs.Refinement.Binders

/-!
# Definitions of the main program

Each `let` of the main program has a global of its own, and a name stands for the global of the last `let`
that the compiler comes to. `Defines own is s s'` says so of a part of a program that binds the names `own`
and has the code `is`: these names get new globals, and no others are stored in. The code of a function
neither defines a global nor stores in one. Main statement: `Emits.defines`.
-/

namespace ScriptLang

/-! ## The table of the main program -/

theorem Symbols.Resolves.main_eq {s s' : Symbols} {name : String} {symbol : Symbol}
    (h : Resolves name s symbol s') : s'.main = s.main := by
  induction h with
  | stored => rfl
  | main _ _ _ ih | captured _ _ _ _ ih =>
      -- whether the name is captured or not, only the innermost table is another one
      rw [main_cons, main_cons]
      exact ih

/-- Looking a name up changes nothing in the table of the main program. -/
theorem Symbols.resolve?_main {s s' : Symbols} {name : String} {symbol : Symbol}
    (h : s.resolve? name = some (symbol, s')) : s'.main = s.main :=
  (resolve?_eq_some.mp h).main_eq

theorem Symbols.main_openFunction (s : Symbols) (name : Option String) (parameters : List String) :
    (s.openFunction name parameters).main = s.main := by
  have houter := s.openFunction_outer name parameters
  generalize s.openFunction name parameters = opened at houter ⊢
  obtain ⟨t, ts⟩ := opened
  cases houter
  exact main_cons t s.inner s.outer

/-! ## What code defines -/

/-- The instructions `is` are the code of a part that binds the names `own`. If the part belongs to the main
program, each of these names gets a new global, in which some instruction stores; all other names stay as
they are, and no older global is stored in. Inside a function no global is defined at all. -/
structure Defines (own : List String) (is : Instructions) (s s' : Symbols) : Prop where
  nested : s'.nested = s.nested
  others : ∀ name, (s.nested = true ∨ name ∉ own) →
    s'.main.bindings.get? name = s.main.bindings.get? name
  own : s.nested = false → ∀ name ∈ own, ∃ k,
    s'.main.bindings.get? name = some ⟨name, .global, k⟩ ∧ .setGlobal k ∈ is
  stores : ∀ k, .setGlobal k ∈ is →
    s.nested = false ∧ s.main.numDefinitions ≤ k ∧ k < s'.main.numDefinitions
  grows : s.main.numDefinitions ≤ s'.main.numDefinitions

namespace Defines

variable {own own₁ own₂ : List String} {is js : Instructions} {s s₁ s₂ : Symbols}

/-- A part that binds nothing and stores nothing. -/
theorem of_main_eq (hnested : s₁.nested = s.nested) (hmain : s₁.main = s.main)
    (hstores : ∀ k, .setGlobal k ∉ is) : Defines [] is s s₁ where
  nested := hnested
  others := fun _ _ => by rw [hmain]
  own := fun _ _ hmem => absurd hmem List.not_mem_nil
  stores := fun k hmem => absurd hmem (hstores k)
  grows := Nat.le_of_eq (by rw [hmain])

theorem trans (h₁ : Defines own₁ is s s₁) (h₂ : Defines own₂ js s₁ s₂) :
    Defines (own₁ ++ own₂) (is ++ js) s s₂ where
  nested := h₂.nested.trans h₁.nested
  others := by
    intro name hname
    rw [List.mem_append, not_or] at hname
    rw [h₂.others name (hname.imp h₁.nested.trans And.right), h₁.others name (hname.imp_right And.left)]
  own := by
    intro hn name hmem
    by_cases hlater : name ∈ own₂
    · obtain ⟨k, hget, hstore⟩ := h₂.own (h₁.nested.trans hn) name hlater
      exact ⟨k, hget, List.mem_append_right _ hstore⟩
    · have hfirst : name ∈ own₁ := (List.mem_append.mp hmem).resolve_right hlater
      obtain ⟨k, hget, hstore⟩ := h₁.own hn name hfirst
      exact ⟨k, (h₂.others name (.inr hlater)).trans hget, List.mem_append_left _ hstore⟩
  stores := by
    intro k hmem
    rcases List.mem_append.mp hmem with hmem | hmem
    · obtain ⟨hn, hle, hlt⟩ := h₁.stores k hmem
      exact ⟨hn, hle, Nat.lt_of_lt_of_le hlt h₂.grows⟩
    · obtain ⟨hn, hle, hlt⟩ := h₂.stores k hmem
      exact ⟨h₁.nested.symm.trans hn, Nat.le_trans h₁.grows hle, hlt⟩
  grows := Nat.le_trans h₁.grows h₂.grows

/-- Neither the order of names and instructions matters, nor any instruction that does not store. -/
theorem congr (h : Defines own₁ is s s₁) (hown : ∀ name, name ∈ own₂ ↔ name ∈ own₁)
    (his : ∀ k, .setGlobal k ∈ js ↔ .setGlobal k ∈ is) : Defines own₂ js s s₁ where
  nested := h.nested
  others := fun name hname => h.others name (hname.imp_right (mt (hown name).mpr))
  own := by
    intro hn name hmem
    obtain ⟨k, hget, hstore⟩ := h.own hn name ((hown name).mp hmem)
    exact ⟨k, hget, (his k).mpr hstore⟩
  stores := fun k hmem => h.stores k ((his k).mp hmem)
  grows := h.grows

/-- One more instruction, which does not store in a global. -/
theorem concat (h : Defines own is s s₁) {i : Instruction} (hi : ∀ k, i ≠ .setGlobal k) :
    Defines own (is ++ [i]) s s₁ := by
  refine h.congr (fun _ => Iff.rfl) fun k => ?_
  have hk : .setGlobal k ≠ i := (hi k).symm
  simp [hk]

/-- Inside a function nothing is defined in the main program. -/
theorem not_mem_of_nested (h : Defines own is s s₁) (hn : s.nested = true) (k : Nat) :
    .setGlobal k ∉ is := by
  intro hmem
  rw [(h.stores k hmem).1] at hn
  cases hn

/-- A definition of the main program, or of a function. -/
theorem define (s : Symbols) (name : String) :
    Defines [name] [(s.definedSymbol name).storeInstruction] s (s.define name) := by
  obtain ⟨t, ts⟩ := s
  cases ts with
  | nil =>
      refine ⟨rfl, fun other hother => ?_, fun _ other hmem => ?_, fun k hmem => ?_, Nat.le_succ _⟩
      · have hne : other ≠ name := by
          rcases hother with hn | hother
          · cases hn
          · exact fun heq => hother (List.mem_singleton.mpr heq)
        exact Bindings.get?_insert_of_ne hne _ _
      · rw [List.mem_singleton.mp hmem]
        exact ⟨t.numDefinitions, Bindings.get?_insert_self _ _ _, List.mem_singleton_self _⟩
      · cases List.mem_singleton.mp hmem
        exact ⟨rfl, Nat.le_refl _, Nat.lt_succ_self _⟩
  | cons o rest =>
      refine ⟨rfl, fun _ _ => rfl, fun hn => ?_, fun k hmem => ?_, Nat.le_refl _⟩
      · cases hn
      · cases List.mem_singleton.mp hmem

end Defines

/-- What leaves a value on the stack does not store one. -/
theorem Instruction.ne_setGlobal_of_pushes {i : Instruction} (h : i.pushes = 1) (k : Nat) :
    i ≠ .setGlobal k := by
  rintro rfl
  cases h

/-- **Definitions**: the code of a part defines the names that the part binds. -/
theorem Emits.defines {P : Part} {c c' : Compiler} {offset : Nat} {is : Instructions}
    (h : Emits P c offset is c') (hc : c.symbols.Sound) :
    Defines (P.binders false) is c.symbols c'.symbols := by
  induction h with
  | @identifier c offset name symbol symbols hresolve =>
      obtain ⟨-, -, hgrows, -⟩ := Symbols.resolve?_spec hresolve hc
      refine .of_main_eq hgrows.nested_eq (Symbols.resolve?_main hresolve) fun k hmem => ?_
      have hne := Instruction.ne_setGlobal_of_pushes symbol.loadInstruction_pops.2.1 k
      exact hne (List.mem_singleton.mp hmem).symm
  | @constant c offset e v hv =>
      have hnone : Part.binders false (.expr e) = [] := by cases e <;> first | rfl | cases hv
      rw [hnone]
      exact .of_main_eq rfl rfl (by simp)
  | @boolean c offset value =>
      refine .of_main_eq rfl rfl fun k => ?_
      cases value <;> simp
  | @operation c c' offset e es is i hes hi _ ih =>
      rw [show Part.binders false (.expr e) = Part.binders false (.exprs es) from
        Expr.binders_operands hes false]
      exact (ih hc).concat (Instruction.ne_setGlobal_of_pushes (Expr.instruction?_pops hi hes).2.1)
  | @less c c' offset left right is _ ih =>
      -- the operands are computed the other way round
      have hcode := (ih hc).concat (i := .greaterThan) fun _ => Instruction.noConfusion
      refine hcode.congr (fun name => ?_) fun _ => Iff.rfl
      simp [Part.binders, Expr.binders, Expr.bindersAll, or_comm]
  | @«if» c c₁ c₂ c₃ offset start condition consequence alternative is js ks h₁ h₂ _ h₃ ih₁ ih₂ ih₃ =>
      obtain ⟨hc₁, -⟩ := h₁.grows hc
      obtain ⟨hc₂, -⟩ := h₂.grows hc₁
      have hall := (ih₁ hc).trans ((ih₂ hc₁).trans (ih₃ hc₂))
      refine hall.congr (fun name => ?_) fun k => by simp
      rw [Part.binders, Expr.binders_if]
      rfl
  | @function c c' offset name parameters body is hbody hfits ih =>
      -- the body defines nothing in the main program, and around it values are only loaded
      have hopen := hc.openFunction name parameters
      have hinside := ih hopen
      have hnested := c.symbols.openFunction_nested name parameters
      obtain ⟨hc', hgrows⟩ := hbody.grows hopen
      obtain ⟨-, -, hgrows', -⟩ := hc'.leave hgrows.symbols
      have hleave : c'.symbols.leave.main = c'.symbols.main :=
        Symbols.main_leave (hinside.nested.trans hnested)
      have hmain := c.symbols.main_openFunction name parameters
      refine ⟨hgrows'.nested_eq, fun other _ => ?_, fun _ other hmem => ?_, fun k hmem => ?_, ?_⟩
      · rw [hleave, hinside.others other (.inl hnested), hmain]
      · exact absurd hmem List.not_mem_nil
      · rcases List.mem_append.mp hmem with hload | hclosure
        · obtain ⟨symbol, -, heq⟩ := List.mem_map.mp hload
          exact absurd heq (Instruction.ne_setGlobal_of_pushes symbol.loadInstruction_pops.2.1 k)
        · cases List.mem_singleton.mp hclosure
      · rw [hleave, ← hmain]
        exact hinside.grows
  | exprs_nil => exact .of_main_eq rfl rfl (by simp)
  | exprs_cons h₁ _ ih₁ ih₂ => exact (ih₁ hc).trans (ih₂ (h₁.grows hc).1)
  | «let» h ih => exact (ih hc).trans (.define _ _)
  | return_none => exact .of_main_eq rfl rfl (by simp)
  | return_some _ ih => exact (ih hc).concat (i := .returnValue) fun _ => Instruction.noConfusion
  | expr _ ih => exact (ih hc).concat (i := .pop) fun _ => Instruction.noConfusion
  | stmts_nil => exact .of_main_eq rfl rfl (by simp)
  | stmts_cons h₁ _ ih₁ ih₂ => exact (ih₁ hc).trans (ih₂ (h₁.grows hc).1)
  | branch_nil => exact .of_main_eq rfl rfl (by simp)
  | branch_value _ ih =>
      refine (ih hc).congr (fun name => ?_) fun _ => Iff.rfl
      simp [Part.binders, Stmt.bindersAll, Stmt.binders]
  | branch_cons _ h₁ _ ih₁ ih₂ => exact (ih₁ hc).trans (ih₂ (h₁.grows hc).1)
  | body_nil => exact .of_main_eq rfl rfl (by simp)
  | body_value _ ih =>
      have hcode := (ih hc).concat (i := .returnValue) fun _ => Instruction.noConfusion
      refine hcode.congr (fun name => ?_) fun _ => Iff.rfl
      simp [Part.binders, Stmt.bindersAll, Stmt.binders]
  | body_return _ ih =>
      have hcode := (ih hc).concat (i := .returnValue) fun _ => Instruction.noConfusion
      refine hcode.congr (fun name => ?_) fun _ => Iff.rfl
      simp [Part.binders, Stmt.bindersAll, Stmt.binders]
  | body_cons _ h₁ _ ih₁ ih₂ => exact (ih₁ hc).trans (ih₂ (h₁.grows hc).1)

/-- The code of a function stores in no global. -/
theorem FunctionOf.decodes {pool : Array Value} {f : CompiledFunction} (h : FunctionOf pool f) :
    ∃ is, Code.Decodes f.code is ∧ ∀ k, .setGlobal k ∉ is := by
  cases h with
  | body hbody hs hn hfits _ =>
      exact ⟨_, Code.decodes_toCode hfits, (hbody.defines hs).not_mem_of_nested hn⟩

end ScriptLang
