import ScriptLang.Proofs.Refinement.Binders

/-!
# Tame programs

What the comparison of the two engines may ask of a program instead of plain operands: no branch of an `if`
binds a name, and no `return` stands in a hash literal or in an operand of `<`, where functions count for
themselves. Then an expression binds nothing (`Expr.binders_of_tame`), so that the names that the compiler
knows are bound whatever is executed, and the parts of a program that the machine executes earlier than the
evaluator cannot end the running call.

`Part.isAllowed` is either of the two conditions. Which one is meant decides what is compared.
-/

namespace ScriptLang

/-! ## Returns -/

mutual

/-- Whether an expression contains a `return`, those in its functions left aside. -/
def Expr.returns : Expr → Bool
  | .identifier _ | .integer _ | .boolean _ | .string _ | .function _ _ _ => false
  | .array elements => Expr.anyReturns elements
  | .hash pairs => Expr.anyReturnsPairs pairs
  | .unary _ operand => operand.returns
  | .binary left _ right => left.returns || right.returns
  | .if condition consequence none => condition.returns || Stmt.anyReturns consequence
  | .if condition consequence (some alternative) =>
    condition.returns || (Stmt.anyReturns consequence || Stmt.anyReturns alternative)
  | .call callee arguments => callee.returns || Expr.anyReturns arguments
  | .index collection key => collection.returns || key.returns

/-- Whether one of some expressions contains a `return`. -/
def Expr.anyReturns : List Expr → Bool
  | [] => false
  | e :: es => e.returns || Expr.anyReturns es

/-- Whether a key or a value of a hash literal contains a `return`. -/
def Expr.anyReturnsPairs : List (Expr × Expr) → Bool
  | [] => false
  | (key, value) :: pairs => key.returns || (value.returns || Expr.anyReturnsPairs pairs)

/-- Whether a statement is or contains a `return`. -/
def Stmt.returns : Stmt → Bool
  | .return _ => true
  | .let _ value | .expr value => value.returns

/-- Whether one of some statements is or contains a `return`. -/
def Stmt.anyReturns : List Stmt → Bool
  | [] => false
  | s :: ss => s.returns || Stmt.anyReturns ss

end

/-! ## Tame programs -/

mutual

/-- Whether no branch of an `if` in an expression binds a name, and no `return` stands in a hash literal or
in an operand of `<`. -/
def Expr.isTame : Expr → Bool
  | .identifier _ | .integer _ | .boolean _ | .string _ => true
  | .array elements => Expr.areTame elements
  | .hash pairs => !Expr.anyReturnsPairs pairs && Expr.areTamePairs pairs
  | .unary _ operand => operand.isTame
  | .binary left operator right =>
    (operator ≠ .lessThan || !(left.returns || right.returns)) && (left.isTame && right.isTame)
  | .if condition consequence none =>
    condition.isTame && ((Stmt.bindersAll false consequence).isEmpty && Stmt.areTame consequence)
  | .if condition consequence (some alternative) =>
    condition.isTame && (((Stmt.bindersAll false consequence).isEmpty && Stmt.areTame consequence) &&
      ((Stmt.bindersAll false alternative).isEmpty && Stmt.areTame alternative))
  | .function _ _ body => Stmt.areTame body
  | .call callee arguments => callee.isTame && Expr.areTame arguments
  | .index collection key => collection.isTame && key.isTame

/-- Whether some expressions are tame. -/
def Expr.areTame : List Expr → Bool
  | [] => true
  | e :: es => e.isTame && Expr.areTame es

/-- Whether the keys and values of a hash literal are tame. -/
def Expr.areTamePairs : List (Expr × Expr) → Bool
  | [] => true
  | (key, value) :: pairs => key.isTame && (value.isTame && Expr.areTamePairs pairs)

/-- Whether a statement is tame. -/
def Stmt.isTame : Stmt → Bool
  | .return none => true
  | .return (some value) | .let _ value | .expr value => value.isTame

/-- Whether some statements are tame. -/
def Stmt.areTame : List Stmt → Bool
  | [] => true
  | s :: ss => s.isTame && Stmt.areTame ss

end

/-! ## Parts of programs

What holds of a whole is split up along its parts. -/

/-- Whether a part of a program contains a `return`. -/
def Part.returns : Part → Bool
  | .expr e => e.returns
  | .exprs es => Expr.anyReturns es
  | .stmt s => s.returns
  | .stmts ss | .branch ss | .body ss => Stmt.anyReturns ss

/-- Whether a part is the body of a function, which ends with a `return` always. -/
def Part.isBody : Part → Bool
  | .body _ => true
  | _ => false

/-- Whether a part of a program is tame. -/
def Part.isTame : Part → Bool
  | .expr e => e.isTame
  | .exprs es => Expr.areTame es
  | .stmt s => s.isTame
  | .stmts ss | .branch ss | .body ss => Stmt.areTame ss

/-- Whether a part of a program is one that can be compared: the operands of every `<` are plain, if both
engines are to do everything in the same order, or else the part is tame. -/
def Part.isAllowed (ordered : Bool) (P : Part) : Bool := bif ordered then P.isPlain false else P.isTame

theorem Part.isAllowed_split {P P₁ P₂ : Part}
    (hplain : P.isPlain false = (P₁.isPlain false && P₂.isPlain false))
    (htame : P.isTame = (P₁.isTame && P₂.isTame)) {ordered : Bool} (h : P.isAllowed ordered = true) :
    P₁.isAllowed ordered = true ∧ P₂.isAllowed ordered = true := by
  cases ordered with
  | true => exact Bool.and_eq_true_iff.mp (hplain.symm.trans h)
  | false => exact Bool.and_eq_true_iff.mp (htame.symm.trans h)

/-- Pairs return if a key or a value does. -/
theorem Expr.anyReturnsPairs_eq (pairs : List (Expr × Expr)) :
    anyReturnsPairs pairs = anyReturns (flatten pairs) := by
  induction pairs with
  | nil => rfl
  | cons pair pairs ih => rw [anyReturnsPairs, flatten, anyReturns, anyReturns, ih]

/-- Pairs are tame if their keys and values are. -/
theorem Expr.areTamePairs_eq (pairs : List (Expr × Expr)) : areTamePairs pairs = areTame (flatten pairs) := by
  induction pairs with
  | nil => rfl
  | cons pair pairs ih => rw [areTamePairs, flatten, areTame, areTame, ih]

/-- An operation returns if one of its operands does. -/
theorem Expr.returns_operands {e : Expr} {es : List Expr} (h : e.operands? = some es) :
    e.returns = anyReturns es := by
  cases e with
  | array elements =>
      cases h
      rfl
  | hash pairs =>
      cases h
      exact anyReturnsPairs_eq pairs
  | unary operator operand =>
      cases h
      exact (Bool.or_false _).symm
  | binary left operator right =>
      obtain ⟨-, rfl⟩ := operands?_binary h
      simp only [returns, anyReturns, Bool.or_false]
  | call callee arguments =>
      cases h
      rfl
  | index collection key =>
      cases h
      simp only [returns, anyReturns, Bool.or_false]
  | _ => cases h

/-- The operands of a tame operation are tame. -/
theorem Expr.isTame_operands {e : Expr} {es : List Expr} (h : e.operands? = some es)
    (he : e.isTame = true) : areTame es = true := by
  cases e with
  | array elements =>
      cases h
      exact he
  | hash pairs =>
      cases h
      exact (areTamePairs_eq pairs).symm.trans (Bool.and_eq_true_iff.mp he).2
  | unary operator operand =>
      cases h
      simpa only [areTame, isTame, Bool.and_true] using he
  | binary left operator right =>
      obtain ⟨-, rfl⟩ := operands?_binary h
      simpa only [areTame, Bool.and_true] using (Bool.and_eq_true_iff.mp he).2
  | call callee arguments =>
      cases h
      exact he
  | index collection key =>
      cases h
      simpa only [areTame, isTame, Bool.and_true] using he
  | _ => cases h

/-- The operands of an allowed operation are allowed. -/
theorem Expr.isAllowed_operands {e : Expr} {es : List Expr} {ordered : Bool} (h : e.operands? = some es)
    (he : (Part.expr e).isAllowed ordered = true) : (Part.exprs es).isAllowed ordered = true := by
  cases ordered with
  | true => exact isPlain_operands h he
  | false => exact isTame_operands h he

theorem Expr.returns_if (condition : Expr) (consequence : List Stmt) (alternative : Option (List Stmt)) :
    (Expr.if condition consequence alternative).returns =
      (condition.returns || (Stmt.anyReturns consequence || Stmt.anyReturns (alternative.getD []))) := by
  cases alternative with
  | none =>
      show _ = (condition.returns || (Stmt.anyReturns consequence || false))
      rw [Bool.or_false]
      rfl
  | some alternative => rfl

/-- The branches of a tame conditional bind nothing. -/
theorem Expr.isTame_if (condition : Expr) (consequence : List Stmt) (alternative : Option (List Stmt)) :
    (Expr.if condition consequence alternative).isTame =
      (condition.isTame && (((Stmt.bindersAll false consequence).isEmpty && Stmt.areTame consequence) &&
        ((Stmt.bindersAll false (alternative.getD [])).isEmpty && Stmt.areTame (alternative.getD [])))) := by
  cases alternative with
  | none =>
      show _ = (condition.isTame && (((Stmt.bindersAll false consequence).isEmpty &&
        Stmt.areTame consequence) && true))
      rw [Bool.and_true]
      rfl
  | some alternative => rfl

/-! ## Expressions that bind nothing -/

mutual

/-- **Tame expressions** bind nothing. -/
theorem Expr.binders_of_tame : ∀ e : Expr, e.isTame = true → e.binders false = []
  | .identifier _, _ | .integer _, _ | .boolean _, _ | .string _, _ | .function _ _ _, _ => rfl
  | .array elements, h => Expr.bindersAll_of_tame elements h
  | .hash pairs, h => Expr.bindersPairs_of_tame pairs (Bool.and_eq_true_iff.mp h).2
  | .unary _ operand, h => Expr.binders_of_tame operand h
  | .binary left _ right, h => by
      obtain ⟨hleft, hright⟩ := Bool.and_eq_true_iff.mp (Bool.and_eq_true_iff.mp h).2
      rw [Expr.binders, Expr.binders_of_tame left hleft, Expr.binders_of_tame right hright]
      rfl
  | .if condition consequence alternative, h => by
      rw [Expr.isTame_if] at h
      obtain ⟨hcondition, hbranches⟩ := Bool.and_eq_true_iff.mp h
      obtain ⟨hconsequence, halternative⟩ := Bool.and_eq_true_iff.mp hbranches
      rw [Expr.binders_if, Expr.binders_of_tame condition hcondition,
        List.isEmpty_iff.mp (Bool.and_eq_true_iff.mp hconsequence).1,
        List.isEmpty_iff.mp (Bool.and_eq_true_iff.mp halternative).1]
      rfl
  | .call callee arguments, h => by
      obtain ⟨hcallee, harguments⟩ := Bool.and_eq_true_iff.mp h
      rw [Expr.binders, Expr.binders_of_tame callee hcallee, Expr.bindersAll_of_tame arguments harguments]
      rfl
  | .index collection key, h => by
      obtain ⟨hcollection, hkey⟩ := Bool.and_eq_true_iff.mp h
      rw [Expr.binders, Expr.binders_of_tame collection hcollection, Expr.binders_of_tame key hkey]
      rfl

theorem Expr.bindersAll_of_tame : ∀ es : List Expr, Expr.areTame es = true → Expr.bindersAll false es = []
  | [], _ => rfl
  | e :: es, h => by
      obtain ⟨hhead, htail⟩ := Bool.and_eq_true_iff.mp h
      rw [Expr.bindersAll, Expr.binders_of_tame e hhead, Expr.bindersAll_of_tame es htail]
      rfl

theorem Expr.bindersPairs_of_tame : ∀ pairs : List (Expr × Expr),
    Expr.areTamePairs pairs = true → Expr.bindersPairs false pairs = []
  | [], _ => rfl
  | (key, value) :: pairs, h => by
      obtain ⟨hkey, hrest⟩ := Bool.and_eq_true_iff.mp h
      obtain ⟨hvalue, hpairs⟩ := Bool.and_eq_true_iff.mp hrest
      rw [Expr.bindersPairs, Expr.binders_of_tame key hkey, Expr.binders_of_tame value hvalue,
        Expr.bindersPairs_of_tame pairs hpairs]
      rfl

end

mutual

/-- Plain expressions bind nothing either. -/
theorem Expr.binders_of_plain : ∀ e : Expr, e.isPlain true = true → e.binders false = []
  | .identifier _, _ | .integer _, _ | .boolean _, _ | .string _, _ | .function _ _ _, _ => rfl
  | .array elements, h => Expr.bindersAll_of_plain elements h
  | .hash pairs, h => Expr.bindersPairs_of_plain pairs h
  | .unary _ operand, h => Expr.binders_of_plain operand h
  | .binary left _ right, h => by
      obtain ⟨hleft, hright⟩ := Bool.and_eq_true_iff.mp h
      rw [Expr.binders, Expr.binders_of_plain left hleft, Expr.binders_of_plain right hright]
      rfl
  | .if _ _ none, h | .if _ _ (some _), h | .call _ _, h => absurd h Bool.false_ne_true
  | .index collection key, h => by
      obtain ⟨hcollection, hkey⟩ := Bool.and_eq_true_iff.mp h
      rw [Expr.binders, Expr.binders_of_plain collection hcollection, Expr.binders_of_plain key hkey]
      rfl

theorem Expr.bindersAll_of_plain : ∀ es : List Expr,
    Expr.arePlain true es = true → Expr.bindersAll false es = []
  | [], _ => rfl
  | e :: es, h => by
      obtain ⟨hhead, htail⟩ := Bool.and_eq_true_iff.mp h
      rw [Expr.bindersAll, Expr.binders_of_plain e hhead, Expr.bindersAll_of_plain es htail]
      rfl

theorem Expr.bindersPairs_of_plain : ∀ pairs : List (Expr × Expr),
    Expr.arePlainPairs true pairs = true → Expr.bindersPairs false pairs = []
  | [], _ => rfl
  | (key, value) :: pairs, h => by
      obtain ⟨hkey, hrest⟩ := Bool.and_eq_true_iff.mp h
      obtain ⟨hvalue, hpairs⟩ := Bool.and_eq_true_iff.mp hrest
      rw [Expr.bindersPairs, Expr.binders_of_plain key hkey, Expr.binders_of_plain value hvalue,
        Expr.bindersPairs_of_plain pairs hpairs]
      rfl

end

end ScriptLang
