import ScriptLang.Proofs.Refinement.Progress

/-!
# Operands

The machine computes the right operand of `<` first. That makes no difference if the operands are plain:
they always have values, and all that their evaluation does is to make functions (`Evaluates.still`). In a
tame program an operand has a value at least, unless it fails (`Evaluates.exists_values`).
-/

namespace ScriptLang

/-! ## Programs -/

mutual

/-- What is plain is plain in the weaker sense, too. -/
theorem Expr.isPlain_mono : ∀ e : Expr, e.isPlain true = true → e.isPlain false = true
  | .identifier _, _ | .integer _, _ | .boolean _, _ | .string _, _ => rfl
  | .array elements, h => Expr.arePlain_mono elements h
  | .hash pairs, h => Expr.arePlainPairs_mono pairs h
  | .unary _ operand, h => Expr.isPlain_mono operand h
  | .binary left operator right, h => by
      obtain ⟨hleft, hright⟩ := Bool.and_eq_true_iff.mp h
      simp only [Bool.true_or] at hleft hright
      rw [Expr.isPlain, Bool.false_or]
      cases hless : decide (operator = .lessThan) with
      | true => rw [hleft, hright, Bool.and_self]
      | false => rw [Expr.isPlain_mono left hleft, Expr.isPlain_mono right hright, Bool.and_self]
  | .if _ _ none, h | .if _ _ (some _), h => absurd h Bool.false_ne_true
  | .function _ _ body, h => Stmt.arePlain_mono body h
  | .call _ _, h => absurd h Bool.false_ne_true
  | .index collection key, h => by
      obtain ⟨hcollection, hkey⟩ := Bool.and_eq_true_iff.mp h
      rw [Expr.isPlain, Expr.isPlain_mono collection hcollection, Expr.isPlain_mono key hkey, Bool.and_self]

theorem Expr.arePlain_mono : ∀ es : List Expr, Expr.arePlain true es = true → Expr.arePlain false es = true
  | [], _ => rfl
  | e :: es, h => by
      obtain ⟨hhead, htail⟩ := Bool.and_eq_true_iff.mp h
      rw [Expr.arePlain, Expr.isPlain_mono e hhead, Expr.arePlain_mono es htail, Bool.and_self]

theorem Expr.arePlainPairs_mono : ∀ pairs : List (Expr × Expr),
    Expr.arePlainPairs true pairs = true → Expr.arePlainPairs false pairs = true
  | [], _ => rfl
  | (key, value) :: pairs, h => by
      obtain ⟨hkey, hrest⟩ := Bool.and_eq_true_iff.mp h
      obtain ⟨hvalue, hpairs⟩ := Bool.and_eq_true_iff.mp hrest
      rw [Expr.arePlainPairs, Expr.isPlain_mono key hkey, Expr.isPlain_mono value hvalue,
        Expr.arePlainPairs_mono pairs hpairs, Bool.and_self, Bool.and_self]

theorem Stmt.isPlain_mono : ∀ s : Stmt, s.isPlain true = true → s.isPlain false = true
  | .let _ value, h => Expr.isPlain_mono value h
  | .return none, _ => rfl
  | .return (some value), h => Expr.isPlain_mono value h
  | .expr value, h => Expr.isPlain_mono value h

theorem Stmt.arePlain_mono : ∀ ss : List Stmt, Stmt.arePlain true ss = true → Stmt.arePlain false ss = true
  | [], _ => rfl
  | s :: ss, h => by
      obtain ⟨hhead, htail⟩ := Bool.and_eq_true_iff.mp h
      rw [Stmt.arePlain, Stmt.isPlain_mono s hhead, Stmt.arePlain_mono ss htail, Bool.and_self]

end

/-! ## Evaluations -/

/-- Whether a part consists of expressions. -/
def Part.isOperand : Part → Bool
  | .expr _ | .exprs _ => true
  | _ => false

variable [StringHash]

/-- **Plain operands** have values, and their evaluation does nothing but make functions. -/
theorem Evaluates.still {P : Part} {scope : Nat} {st st' : Evaluator} {o : Outcome}
    (h : Evaluates P scope st o st') (hP : P.isOperand = true) (hplain : P.isPlain true = true) :
    (∃ vs, o = .values vs) ∧ st.Still st' ∧ st.functionsMade ≤ st'.functionsMade := by
  induction h with
  | bound => exact ⟨⟨_, rfl⟩, .refl _, Nat.le_refl _⟩
  | builtin => exact ⟨⟨_, rfl⟩, .refl _, Nat.le_refl _⟩
  | constant => exact ⟨⟨_, rfl⟩, .refl _, Nat.le_refl _⟩
  | boolean => exact ⟨⟨_, rfl⟩, .refl _, Nat.le_refl _⟩
  | function => exact ⟨⟨_, rfl⟩, ⟨rfl, rfl, rfl⟩, Nat.le_succ _⟩
  | operation hes _ _ ih => exact ⟨⟨_, rfl⟩, (ih rfl (Expr.isPlain_operands hes hplain)).2⟩
  | operation_return hes _ ih =>
      obtain ⟨⟨vs, hvs⟩, -⟩ := ih rfl (Expr.isPlain_operands hes hplain)
      cases hvs
  | less _ _ ih₁ ih₂ =>
      obtain ⟨hleft, hright⟩ := Bool.and_eq_true_iff.mp hplain
      obtain ⟨-, hstill₁, hle₁⟩ := ih₁ rfl hleft
      obtain ⟨-, hstill₂, hle₂⟩ := ih₂ rfl hright
      exact ⟨⟨_, rfl⟩, hstill₁.trans hstill₂, Nat.le_trans hle₁ hle₂⟩
  | less_left _ ih =>
      obtain ⟨⟨vs, hvs⟩, -⟩ := ih rfl (Bool.and_eq_true_iff.mp hplain).1
      cases hvs
  | less_right _ _ _ ih₂ =>
      obtain ⟨⟨vs, hvs⟩, -⟩ := ih₂ rfl (Bool.and_eq_true_iff.mp hplain).2
      cases hvs
  | call_builtin => exact absurd hplain Bool.false_ne_true
  | call_function => exact absurd hplain Bool.false_ne_true
  | if_true =>
      rw [Part.isPlain, Expr.isPlain_if] at hplain
      exact absurd hplain Bool.false_ne_true
  | if_false =>
      rw [Part.isPlain, Expr.isPlain_if] at hplain
      exact absurd hplain Bool.false_ne_true
  | if_return =>
      rw [Part.isPlain, Expr.isPlain_if] at hplain
      exact absurd hplain Bool.false_ne_true
  | exprs_nil => exact ⟨⟨_, rfl⟩, .refl _, Nat.le_refl _⟩
  | exprs_cons _ _ ih₁ ih₂ =>
      obtain ⟨hhead, htail⟩ := Bool.and_eq_true_iff.mp hplain
      obtain ⟨-, hstill₁, hle₁⟩ := ih₁ rfl hhead
      obtain ⟨-, hstill₂, hle₂⟩ := ih₂ rfl htail
      exact ⟨⟨_, rfl⟩, hstill₁.trans hstill₂, Nat.le_trans hle₁ hle₂⟩
  | exprs_head _ ih =>
      obtain ⟨⟨vs, hvs⟩, -⟩ := ih rfl (Bool.and_eq_true_iff.mp hplain).1
      cases hvs
  | exprs_tail _ _ _ ih₂ =>
      obtain ⟨⟨vs, hvs⟩, -⟩ := ih₂ rfl (Bool.and_eq_true_iff.mp hplain).2
      cases hvs
  | _ => cases hP

/-- A part without a `return` is evaluated to its end. -/
theorem Evaluates.exists_values {P : Part} {scope : Nat} {st st' : Evaluator} {o : Outcome}
    (h : Evaluates P scope st o st') (hP : P.isBody = false) (hreturns : P.returns = false) :
    ∃ vs, o = .values vs := by
  induction h with
  | operation_return hes _ ih => exact ih rfl ((Expr.returns_operands hes).symm.trans hreturns)
  | less_left _ ih | exprs_head _ ih | stmts_return _ ih | branch_value _ ih | branch_return _ _ ih
  | stmts_last _ ih => exact ih rfl (Bool.or_eq_false_iff.mp hreturns).1
  | less_right _ _ _ ih | exprs_tail _ _ _ ih | stmts_cons _ _ _ _ ih | branch_cons _ _ _ _ ih =>
      exact ih rfl (Bool.or_eq_false_iff.mp hreturns).2
  | if_true _ _ _ _ ih =>
      rw [Part.returns, Expr.returns_if] at hreturns
      exact ih rfl (Bool.or_eq_false_iff.mp (Bool.or_eq_false_iff.mp hreturns).2).1
  | if_false _ _ _ _ ih =>
      rw [Part.returns, Expr.returns_if] at hreturns
      exact ih rfl (Bool.or_eq_false_iff.mp (Bool.or_eq_false_iff.mp hreturns).2).2
  | if_return _ ih =>
      rw [Part.returns, Expr.returns_if] at hreturns
      exact ih rfl (Bool.or_eq_false_iff.mp hreturns).1
  | let_return _ ih | expr _ ih => exact ih rfl hreturns
  | return_none | return_some | return_return => cases hreturns
  | body_nil | body_value | body_value_return | body_cons | body_return => cases hP
  | _ => exact ⟨_, rfl⟩

end ScriptLang
