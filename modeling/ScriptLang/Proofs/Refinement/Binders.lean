import ScriptLang.Proofs.Compiler.Soundness
import ScriptLang.Proofs.Symbols.Names

/-!
# Programs whose names are unique

What the comparison of the two engines asks of a program:

* no name is bound twice, and none is the name of a built-in function (`Expr.binders`);
* the operands of `<` neither call nor branch, since the machine computes the right one first
  (`Expr.isPlain`);
* a function literal records the name that a `let` gives it directly, as the parser does
  (`Expr.isNamed`).

`Agenda` and `Fresh` are what unique names come to while a program is evaluated: a name that is still to be
bound is one that no table knows. Main statement: `Emits.adds` — the code of a part of a program adds to
the tables what the part binds.
-/

namespace ScriptLang

/-! ## Programs -/

mutual

/-- The names that an expression binds in the scope around it, in the order of the text. If `deep`, also
those that the functions in it bind in theirs. -/
def Expr.binders (deep : Bool) : Expr → List String
  | .identifier _ | .integer _ | .boolean _ | .string _ => []
  | .array elements => Expr.bindersAll deep elements
  | .hash pairs => Expr.bindersPairs deep pairs
  | .unary _ operand => operand.binders deep
  | .binary left _ right => left.binders deep ++ right.binders deep
  | .if condition consequence none => condition.binders deep ++ Stmt.bindersAll deep consequence
  | .if condition consequence (some alternative) =>
    condition.binders deep ++ (Stmt.bindersAll deep consequence ++ Stmt.bindersAll deep alternative)
  | .function _ parameters body => if deep then parameters ++ Stmt.bindersAll deep body else []
  | .call callee arguments => callee.binders deep ++ Expr.bindersAll deep arguments
  | .index collection key => collection.binders deep ++ key.binders deep

/-- The names that some expressions bind. -/
def Expr.bindersAll (deep : Bool) : List Expr → List String
  | [] => []
  | e :: es => e.binders deep ++ Expr.bindersAll deep es

/-- The names that the keys and values of a hash literal bind. -/
def Expr.bindersPairs (deep : Bool) : List (Expr × Expr) → List String
  | [] => []
  | (key, value) :: pairs =>
    key.binders deep ++ (value.binders deep ++ Expr.bindersPairs deep pairs)

/-- The names that a statement binds. -/
def Stmt.binders (deep : Bool) : Stmt → List String
  | .let name value => value.binders deep ++ [name]
  | .return none => []
  | .return (some value) | .expr value => value.binders deep

/-- The names that some statements bind. -/
def Stmt.bindersAll (deep : Bool) : List Stmt → List String
  | [] => []
  | s :: ss => s.binders deep ++ Stmt.bindersAll deep ss

end

mutual

/-- Whether the operands of every `<` in an expression are plain: they contain no call and no `if`. If
`strict`, whether the expression itself is plain. -/
def Expr.isPlain (strict : Bool) : Expr → Bool
  | .identifier _ | .integer _ | .boolean _ | .string _ => true
  | .array elements => Expr.arePlain strict elements
  | .hash pairs => Expr.arePlainPairs strict pairs
  | .unary _ operand => operand.isPlain strict
  | .binary left operator right =>
    left.isPlain (strict || operator = .lessThan) && right.isPlain (strict || operator = .lessThan)
  | .if condition consequence none =>
    !strict && (condition.isPlain strict && Stmt.arePlain strict consequence)
  | .if condition consequence (some alternative) =>
    !strict && (condition.isPlain strict &&
      (Stmt.arePlain strict consequence && Stmt.arePlain strict alternative))
  | .function _ _ body => Stmt.arePlain strict body
  | .call callee arguments => !strict && (callee.isPlain strict && Expr.arePlain strict arguments)
  | .index collection key => collection.isPlain strict && key.isPlain strict

/-- Whether some expressions are plain in the sense of `Expr.isPlain`. -/
def Expr.arePlain (strict : Bool) : List Expr → Bool
  | [] => true
  | e :: es => e.isPlain strict && Expr.arePlain strict es

/-- Whether the keys and values of a hash literal are plain in the sense of `Expr.isPlain`. -/
def Expr.arePlainPairs (strict : Bool) : List (Expr × Expr) → Bool
  | [] => true
  | (key, value) :: pairs =>
    key.isPlain strict && (value.isPlain strict && Expr.arePlainPairs strict pairs)

/-- Whether a statement is plain in the sense of `Expr.isPlain`. -/
def Stmt.isPlain (strict : Bool) : Stmt → Bool
  | .let _ value => value.isPlain strict
  | .return none => true
  | .return (some value) | .expr value => value.isPlain strict

/-- Whether some statements are plain in the sense of `Expr.isPlain`. -/
def Stmt.arePlain (strict : Bool) : List Stmt → Bool
  | [] => true
  | s :: ss => s.isPlain strict && Stmt.arePlain strict ss

end

mutual

/-- Whether every function literal in an expression records the name that a `let` gives it directly, if
there is one, and no other name. The expression itself is given `name`. -/
def Expr.isNamed (name : Option String) : Expr → Bool
  | .identifier _ | .integer _ | .boolean _ | .string _ => true
  | .array elements => Expr.areNamed elements
  | .hash pairs => Expr.areNamedPairs pairs
  | .unary _ operand => operand.isNamed none
  | .binary left _ right => left.isNamed none && right.isNamed none
  | .if condition consequence none => condition.isNamed none && Stmt.areNamed consequence
  | .if condition consequence (some alternative) =>
    condition.isNamed none && (Stmt.areNamed consequence && Stmt.areNamed alternative)
  | .function recorded _ body => recorded = name && Stmt.areNamed body
  | .call callee arguments => callee.isNamed none && Expr.areNamed arguments
  | .index collection key => collection.isNamed none && key.isNamed none

/-- Whether the function literals in some expressions record their names. -/
def Expr.areNamed : List Expr → Bool
  | [] => true
  | e :: es => e.isNamed none && Expr.areNamed es

/-- Whether the function literals in the keys and values of a hash literal record their names. -/
def Expr.areNamedPairs : List (Expr × Expr) → Bool
  | [] => true
  | (key, value) :: pairs =>
    key.isNamed none && (value.isNamed none && Expr.areNamedPairs pairs)

/-- Whether the function literals in a statement record their names. -/
def Stmt.isNamed : Stmt → Bool
  | .let name value => value.isNamed (some name)
  | .return none => true
  | .return (some value) | .expr value => value.isNamed none

/-- Whether the function literals in some statements record their names. -/
def Stmt.areNamed : List Stmt → Bool
  | [] => true
  | s :: ss => s.isNamed && Stmt.areNamed ss

end

/-! ## Parts of programs -/

/-- The names that a part of a program binds. -/
def Part.binders (deep : Bool) : Part → List String
  | .expr e => e.binders deep
  | .exprs es => Expr.bindersAll deep es
  | .stmt s => s.binders deep
  | .stmts ss | .branch ss | .body ss => Stmt.bindersAll deep ss

/-- Whether a part of a program is plain in the sense of `Expr.isPlain`. -/
def Part.isPlain (strict : Bool) : Part → Bool
  | .expr e => e.isPlain strict
  | .exprs es => Expr.arePlain strict es
  | .stmt s => s.isPlain strict
  | .stmts ss | .branch ss | .body ss => Stmt.arePlain strict ss

/-- Whether the function literals in a part of a program record their names. If the part is an expression,
it is given `name`. -/
def Part.isNamed (name : Option String) : Part → Bool
  | .expr e => e.isNamed name
  | .exprs es => Expr.areNamed es
  | .stmt s => s.isNamed
  | .stmts ss | .branch ss | .body ss => Stmt.areNamed ss

/-- Pairs bind what their keys and values bind. -/
theorem Expr.bindersPairs_eq (deep : Bool) (pairs : List (Expr × Expr)) :
    bindersPairs deep pairs = bindersAll deep (flatten pairs) := by
  induction pairs with
  | nil => rfl
  | cons pair pairs ih => rw [bindersPairs, flatten, bindersAll, bindersAll, ih]

/-- Pairs are plain if their keys and values are. -/
theorem Expr.arePlainPairs_eq (strict : Bool) (pairs : List (Expr × Expr)) :
    arePlainPairs strict pairs = arePlain strict (flatten pairs) := by
  induction pairs with
  | nil => rfl
  | cons pair pairs ih => rw [arePlainPairs, flatten, arePlain, arePlain, ih]

/-- Pairs are named if their keys and values are. -/
theorem Expr.areNamedPairs_eq (pairs : List (Expr × Expr)) :
    areNamedPairs pairs = areNamed (flatten pairs) := by
  induction pairs with
  | nil => rfl
  | cons pair pairs ih => rw [areNamedPairs, flatten, areNamed, areNamed, ih]

/-- The operands of an operator are compiled in order, those of `<` apart. -/
theorem Expr.operands?_binary {left right : Expr} {operator : Operator} {es : List Expr}
    (h : (Expr.binary left operator right).operands? = some es) :
    operator ≠ .lessThan ∧ es = [left, right] := by
  by_cases hless : operator = .lessThan
  · simp [operands?, hless] at h
  · simp only [operands?, if_neg hless, Option.some.injEq] at h
    exact ⟨hless, h.symm⟩

/-- The names that an operation binds, its operands bind. -/
theorem Expr.binders_operands {e : Expr} {es : List Expr} (h : e.operands? = some es) (deep : Bool) :
    e.binders deep = bindersAll deep es := by
  cases e with
  | array elements =>
      cases h
      rfl
  | hash pairs =>
      cases h
      exact bindersPairs_eq deep pairs
  | unary operator operand =>
      cases h
      exact (List.append_nil _).symm
  | binary left operator right =>
      obtain ⟨-, rfl⟩ := operands?_binary h
      simp only [binders, bindersAll, List.append_nil]
  | call callee arguments =>
      cases h
      rfl
  | index collection key =>
      cases h
      simp only [binders, bindersAll, List.append_nil]
  | _ => cases h

/-- The operands of a plain expression are plain. -/
theorem Expr.isPlain_operands {e : Expr} {es : List Expr} {strict : Bool} (h : e.operands? = some es)
    (he : e.isPlain strict = true) : arePlain strict es = true := by
  cases e with
  | array elements =>
      cases h
      exact he
  | hash pairs =>
      cases h
      exact (arePlainPairs_eq strict pairs).symm.trans he
  | unary operator operand =>
      cases h
      simpa only [arePlain, isPlain, Bool.and_true] using he
  | binary left operator right =>
      obtain ⟨hless, rfl⟩ := operands?_binary h
      simpa only [isPlain, hless, decide_false, Bool.or_false, arePlain, Bool.and_true] using he
  | call callee arguments =>
      cases h
      simp only [isPlain, Bool.and_eq_true] at he
      simpa only [arePlain, Bool.and_eq_true] using he.2
  | index collection key =>
      cases h
      simpa only [arePlain, isPlain, Bool.and_true] using he
  | _ => cases h

/-- The operands of a named expression are named. -/
theorem Expr.isNamed_operands {e : Expr} {es : List Expr} {name : Option String}
    (h : e.operands? = some es) (he : e.isNamed name = true) : areNamed es = true := by
  cases e with
  | array elements =>
      cases h
      exact he
  | hash pairs =>
      cases h
      exact (areNamedPairs_eq pairs).symm.trans he
  | unary operator operand =>
      cases h
      simpa only [areNamed, isNamed, Bool.and_true] using he
  | binary left operator right =>
      obtain ⟨-, rfl⟩ := operands?_binary h
      simpa only [areNamed, isNamed, Bool.and_true] using he
  | call callee arguments =>
      cases h
      exact he
  | index collection key =>
      cases h
      simpa only [areNamed, isNamed, Bool.and_true] using he
  | _ => cases h

/-- A missing alternative binds nothing. -/
theorem Expr.binders_if (deep : Bool) (condition : Expr) (consequence : List Stmt)
    (alternative : Option (List Stmt)) :
    (Expr.if condition consequence alternative).binders deep = condition.binders deep ++
      (Stmt.bindersAll deep consequence ++ Stmt.bindersAll deep (alternative.getD [])) := by
  cases alternative with
  | none => exact congrArg _ (List.append_nil _).symm
  | some alternative => rfl

theorem Expr.isPlain_if (strict : Bool) (condition : Expr) (consequence : List Stmt)
    (alternative : Option (List Stmt)) :
    (Expr.if condition consequence alternative).isPlain strict =
      (!strict && (condition.isPlain strict &&
        (Stmt.arePlain strict consequence && Stmt.arePlain strict (alternative.getD [])))) := by
  cases alternative with
  | none =>
      show _ = (!strict && (condition.isPlain strict && (Stmt.arePlain strict consequence && true)))
      rw [Bool.and_true]
      rfl
  | some alternative => rfl

theorem Expr.isNamed_if (name : Option String) (condition : Expr) (consequence : List Stmt)
    (alternative : Option (List Stmt)) :
    (Expr.if condition consequence alternative).isNamed name =
      (condition.isNamed none &&
        (Stmt.areNamed consequence && Stmt.areNamed (alternative.getD []))) := by
  cases alternative with
  | none =>
      show _ = (condition.isNamed none && (Stmt.areNamed consequence && true))
      rw [Bool.and_true]
      rfl
  | some alternative => rfl

/-! ## Own names

The names that a part binds in its own scope are among those that it binds at all, which includes the bodies
of its functions. -/

open scoped List

mutual

/-- The names that an expression binds in the scope around it are among all the names that it binds. -/
theorem Expr.own_sublist : ∀ e : Expr, e.binders false <+ e.binders true
  | .identifier _ | .integer _ | .boolean _ | .string _ => List.Sublist.refl _
  | .array elements => Expr.ownAll_sublist elements
  | .hash pairs => Expr.ownPairs_sublist pairs
  | .unary _ operand => Expr.own_sublist operand
  | .binary left _ right =>
      List.Sublist.append (Expr.own_sublist left) (Expr.own_sublist right)
  | .if condition consequence none =>
      List.Sublist.append (Expr.own_sublist condition) (Stmt.ownAll_sublist consequence)
  | .if condition consequence (some alternative) =>
      List.Sublist.append (Expr.own_sublist condition)
        (List.Sublist.append (Stmt.ownAll_sublist consequence) (Stmt.ownAll_sublist alternative))
  | .function _ _ _ => List.nil_sublist _
  | .call callee arguments =>
      List.Sublist.append (Expr.own_sublist callee) (Expr.ownAll_sublist arguments)
  | .index collection key =>
      List.Sublist.append (Expr.own_sublist collection) (Expr.own_sublist key)

theorem Expr.ownAll_sublist : ∀ es : List Expr,
    Expr.bindersAll false es <+ Expr.bindersAll true es
  | [] => List.Sublist.refl _
  | e :: es => List.Sublist.append (Expr.own_sublist e) (Expr.ownAll_sublist es)

theorem Expr.ownPairs_sublist : ∀ pairs : List (Expr × Expr),
    Expr.bindersPairs false pairs <+ Expr.bindersPairs true pairs
  | [] => List.Sublist.refl _
  | (key, value) :: pairs =>
      List.Sublist.append (Expr.own_sublist key)
        (List.Sublist.append (Expr.own_sublist value) (Expr.ownPairs_sublist pairs))

theorem Stmt.own_sublist : ∀ s : Stmt, s.binders false <+ s.binders true
  | .let _ value => List.Sublist.append (Expr.own_sublist value) (List.Sublist.refl _)
  | .return none => List.Sublist.refl _
  | .return (some value) => Expr.own_sublist value
  | .expr value => Expr.own_sublist value

theorem Stmt.ownAll_sublist : ∀ ss : List Stmt,
    Stmt.bindersAll false ss <+ Stmt.bindersAll true ss
  | [] => List.Sublist.refl _
  | s :: ss => List.Sublist.append (Stmt.own_sublist s) (Stmt.ownAll_sublist ss)

end

theorem Part.own_sublist (P : Part) : P.binders false <+ P.binders true := by
  cases P with
  | expr e => exact e.own_sublist
  | exprs es => exact Expr.ownAll_sublist es
  | stmt s => exact s.own_sublist
  | stmts ss => exact Stmt.ownAll_sublist ss
  | branch ss => exact Stmt.ownAll_sublist ss
  | body ss => exact Stmt.ownAll_sublist ss

/-! ## What code adds to the tables -/

open Symbols (Knows Adds Clean)

/-- Some names are all different, and no table knows them yet. -/
structure Unknown (names : List String) (s : Symbols) : Prop where
  nodup : names.Nodup
  unknown : ∀ x ∈ names, ¬ Knows s.tables x

namespace Unknown

variable {names own own₁ a b : List String} {s s' : Symbols}

theorem of_sublist (h : Unknown names s) (hsub : a <+ names) : Unknown a s :=
  ⟨h.nodup.sublist hsub, fun x hx => h.unknown x (hsub.subset hx)⟩

theorem of_perm (h : Unknown names s) (hperm : a ~ names) : Unknown a s :=
  ⟨hperm.nodup_iff.mpr h.nodup, fun x hx => h.unknown x (hperm.subset hx)⟩

theorem left (h : Unknown (a ++ b) s) : Unknown a s := h.of_sublist (List.sublist_append_left a b)

/-- Unique names stay unknown while others are added. -/
theorem right (h : Unknown (a ++ b) s) (hadds : Adds s own s') (hown : own ⊆ a) : Unknown b s' := by
  obtain ⟨-, hnodup, hdisjoint⟩ := List.nodup_append.mp h.nodup
  refine ⟨hnodup, fun x hx hknows => ?_⟩
  rcases hadds.knows hknows with hold | hnew
  · exact h.unknown x (List.mem_append_right _ hx) hold
  · exact hdisjoint x (hown hnew) x hx rfl

/-- Inside a function the names of its body are unknown. -/
theorem openFunction {parameters : List String} {name : Option String}
    (h : Unknown (parameters ++ b) s) (hname : ∀ x ∈ b, name ≠ some x) :
    Unknown b (s.openFunction name parameters) := by
  obtain ⟨hparameters, hnodup, hdisjoint⟩ := List.nodup_append.mp h.nodup
  refine ⟨hnodup, fun x hx hknows => ?_⟩
  rcases Symbols.openFunction_knows hparameters hknows with hmem | hself | hold
  · exact hdisjoint x hmem x hx rfl
  · exact hname x hx hself
  · exact h.unknown x (List.mem_append_right _ hx) hold

end Unknown

/-- **Code adds to the tables** what its part binds. The name that is given to a function literal may not
be bound in it. -/
theorem Emits.adds {P : Part} {c c' : Compiler} {offset : Nat} {is : Instructions}
    {n : Option String} (h : Emits P c offset is c') (hc : c.symbols.Sound)
    (hP : Unknown (P.binders true) c.symbols) (hnamed : P.isNamed n = true)
    (hname : ∀ x ∈ P.binders true, n ≠ some x) :
    Adds c.symbols (P.binders false) c'.symbols := by
  induction h generalizing n with
  | identifier hresolve => exact .of_resolve? hresolve hc
  | @constant c offset e v hv => cases e <;> first | exact .refl _ | cases hv
  | boolean => exact .refl _
  | @operation c c' offset e es is i hes hi hemits ih =>
      have hbinders := Expr.binders_operands hes
      rw [show Part.binders false (.expr e) = Part.binders false (.exprs es) from hbinders false]
      rw [show Part.binders true (.expr e) = Part.binders true (.exprs es) from hbinders true] at hP
      exact ih hc hP (Expr.isNamed_operands hes hnamed) (n := none) nofun
  | @less c c' offset left right is hemits ih =>
      -- the operands are computed the other way round
      have hperm : ∀ deep, Part.binders deep (.exprs [right, left]) ~
          Part.binders deep (.expr (.binary left .lessThan right)) := by
        intro deep
        show right.binders deep ++ (left.binders deep ++ []) ~ left.binders deep ++ right.binders deep
        rw [List.append_nil]
        exact List.perm_append_comm
      have hoperands : Expr.areNamed [right, left] = true := by
        obtain ⟨hleft, hright⟩ := Bool.and_eq_true_iff.mp hnamed
        simp only [Expr.areNamed, hleft, hright, Bool.and_self]
      have hadds := ih hc (hP.of_perm (hperm true)) (n := none) hoperands nofun
      exact hadds.mono (hperm false).subset
  | @«if» c c₁ c₂ c₃ offset start condition consequence alternative is js ks h₁ h₂ _ h₃ ih₁ ih₂ ih₃ =>
      have hown := Expr.binders_if false condition consequence alternative
      rw [Part.binders, Expr.binders_if] at hP
      rw [Part.isNamed, Expr.isNamed_if] at hnamed
      rw [Part.binders, hown]
      obtain ⟨hcondition, hbranches⟩ := Bool.and_eq_true_iff.mp hnamed
      obtain ⟨hconsequence, halternative⟩ := Bool.and_eq_true_iff.mp hbranches
      obtain ⟨hc₁, -⟩ := h₁.grows hc
      obtain ⟨hc₂, -⟩ := h₂.grows hc₁
      have hadds₁ := ih₁ hc hP.left (n := none) hcondition nofun
      have hP₁ := hP.right hadds₁ condition.own_sublist.subset
      have hadds₂ := ih₂ hc₁ hP₁.left (n := none) hconsequence nofun
      have hP₂ := hP₁.right hadds₂ (Stmt.ownAll_sublist consequence).subset
      exact hadds₁.trans (hadds₂.trans (ih₃ hc₂ hP₂ (n := none) halternative nofun))
  | @function c c' offset recorded parameters body is hbody hfits ih =>
      obtain ⟨hrecorded, hinside⟩ := Bool.and_eq_true_iff.mp hnamed
      obtain rfl := of_decide_eq_true hrecorded
      have hself : ∀ x ∈ Stmt.bindersAll true body, recorded ≠ some x := fun x hx =>
        hname x (List.mem_append_right _ hx)
      have hadds := ih (hc.openFunction recorded parameters) (Unknown.openFunction hP hself)
        (n := none) hinside nofun
      exact hadds.leave
  | exprs_nil => exact .refl _
  | exprs_cons h₁ h₂ ih₁ ih₂ =>
      obtain ⟨hhead, htail⟩ := Bool.and_eq_true_iff.mp hnamed
      have hadds := ih₁ hc hP.left (n := none) hhead nofun
      have hrest := hP.right hadds (Expr.own_sublist _).subset
      exact hadds.trans (ih₂ (h₁.grows hc).1 hrest (n := none) htail nofun)
  | @«let» c c' offset given value is hemits ih =>
      have hfresh : ∀ x ∈ value.binders true, some given ≠ some x := by
        intro x hx heq
        cases heq
        exact (List.nodup_append.mp hP.nodup).2.2 given hx given (List.mem_singleton_self _) rfl
      have hadds := ih hc hP.left (n := some given) hnamed hfresh
      have hgiven := hP.right hadds value.own_sublist.subset
      exact hadds.trans (.define (hgiven.unknown given (List.mem_singleton_self _)))
  | return_none => exact .refl _
  | return_some _ ih => exact ih hc hP (n := none) hnamed nofun
  | expr _ ih => exact ih hc hP (n := none) hnamed nofun
  | stmts_nil => exact .refl _
  | stmts_cons h₁ h₂ ih₁ ih₂ =>
      obtain ⟨hhead, htail⟩ := Bool.and_eq_true_iff.mp hnamed
      have hadds := ih₁ hc hP.left (n := none) hhead nofun
      have hrest := hP.right hadds (Stmt.own_sublist _).subset
      exact hadds.trans (ih₂ (h₁.grows hc).1 hrest (n := none) htail nofun)
  | branch_nil => exact .refl _
  | branch_value _ ih =>
      obtain ⟨hvalue, -⟩ := Bool.and_eq_true_iff.mp hnamed
      exact (ih hc hP.left (n := none) hvalue nofun).mono (List.subset_append_left _ _)
  | branch_cons _ h₁ h₂ ih₁ ih₂ =>
      obtain ⟨hhead, htail⟩ := Bool.and_eq_true_iff.mp hnamed
      have hadds := ih₁ hc hP.left (n := none) hhead nofun
      have hrest := hP.right hadds (Stmt.own_sublist _).subset
      exact hadds.trans (ih₂ (h₁.grows hc).1 hrest (n := none) htail nofun)
  | body_nil => exact .refl _
  | body_value _ ih =>
      obtain ⟨hvalue, -⟩ := Bool.and_eq_true_iff.mp hnamed
      exact (ih hc hP.left (n := none) hvalue nofun).mono (List.subset_append_left _ _)
  | body_return _ ih =>
      obtain ⟨hvalue, -⟩ := Bool.and_eq_true_iff.mp hnamed
      exact (ih hc hP.left (n := none) hvalue nofun).mono (List.subset_append_left _ _)
  | body_cons _ h₁ h₂ ih₁ ih₂ =>
      obtain ⟨hhead, htail⟩ := Bool.and_eq_true_iff.mp hnamed
      have hadds := ih₁ hc hP.left (n := none) hhead nofun
      have hrest := hP.right hadds (Stmt.own_sublist _).subset
      exact hadds.trans (ih₂ (h₁.grows hc).1 hrest (n := none) htail nofun)

/-- Code adds to the tables what its part binds, if no name is given to the part. -/
theorem Emits.adds_unnamed {P : Part} {c c' : Compiler} {offset : Nat} {is : Instructions}
    (h : Emits P c offset is c') (hc : c.symbols.Sound) (hP : Unknown (P.binders true) c.symbols)
    (hnamed : P.isNamed none = true) : Adds c.symbols (P.binders false) c'.symbols :=
  h.adds hc hP hnamed nofun

/-! ## Names that are still to be bound -/

/-- Which names the code that runs in a scope is still going to bind there. -/
abbrev Agenda := Nat → String → Prop

namespace Agenda

/-- What is left after some names of a scope have been bound. -/
def done (agenda : Agenda) (scope : Nat) (names : List String) : Agenda := fun l x =>
  agenda l x ∧ (l = scope → x ∉ names)

/-- What there is to do in a scope that is opened. -/
def opened (agenda : Agenda) (scope : Nat) (names : List String) : Agenda := fun l x =>
  if l = scope then x ∈ names else agenda l x

theorem done_le {agenda : Agenda} {scope : Nat} {names : List String} {l : Nat} {x : String}
    (h : agenda.done scope names l x) : agenda l x := h.1

theorem done_append {agenda : Agenda} {scope : Nat} {a b : List String} {l : Nat} {x : String} :
    agenda.done scope (a ++ b) l x ↔ (agenda.done scope a).done scope b l x := by
  simp only [done, List.mem_append, not_or]
  constructor
  · rintro ⟨h, hnot⟩
    exact ⟨⟨h, fun hl => (hnot hl).1⟩, fun hl => (hnot hl).2⟩
  · rintro ⟨⟨h, ha⟩, hb⟩
    exact ⟨h, fun hl => ⟨ha hl, hb hl⟩⟩

end Agenda

/-- What unique names come to for a part of a program that is about to be evaluated in `scope`, inside the
scopes `outer`. The part binds the names `own` there, and the names `all` with those of its functions. The
names that are still to be bound are unknown to the tables, and the part binds only some of those in its
own scope. The main program binds `globals` and uses the scope `0`. -/
structure Fresh (globals own all : List String) (s : Symbols) (scope : Nat) (outer : List Nat)
    (agenda : Agenda) : Prop where
  unknown : Unknown all s
  tabled : Clean s.tables
  own_subset : own ⊆ all
  due : ∀ x ∈ own, agenda scope x
  here : ∀ x, agenda scope x → ¬ Knows s.tables x
  around : ∀ l ∈ outer, ∀ x, agenda l x → ¬ Knows s.tables x ∧ x ∉ all
  inside : ∀ x ∈ all, agenda scope x → x ∈ own
  clean : ∀ x ∈ all, Builtin.ofName? x = none ∧ (x ∈ globals → scope = 0 ∧ x ∈ own)

namespace Fresh

variable {globals a b own all own₁ own₂ : List String} {s s₁ : Symbols} {scope : Nat}
  {outer : List Nat} {agenda : Agenda}

/-- The first one of two parts. -/
theorem left (h : Fresh globals (own₁ ++ own₂) (a ++ b) s scope outer agenda) (ha : own₁ ⊆ a)
    (hb : own₂ ⊆ b) : Fresh globals own₁ a s scope outer agenda := by
  obtain ⟨-, -, hdisjoint⟩ := List.nodup_append.mp h.unknown.nodup
  have hfirst : ∀ x ∈ a, x ∈ own₁ ++ own₂ → x ∈ own₁ := by
    intro x hx hown
    rcases List.mem_append.mp hown with hown | hown
    · exact hown
    · exact absurd rfl (hdisjoint x hx x (hb hown))
  refine ⟨h.unknown.left, h.tabled, ha, ?_, h.here, ?_, ?_, ?_⟩
  · exact fun x hx => h.due x (List.mem_append_left _ hx)
  · intro l hl x hx
    obtain ⟨hknows, hall⟩ := h.around l hl x hx
    exact ⟨hknows, fun hmem => hall (List.mem_append_left _ hmem)⟩
  · exact fun x hx hagenda => hfirst x hx (h.inside x (List.mem_append_left _ hx) hagenda)
  · intro x hx
    obtain ⟨hbuiltin, hglobal⟩ := h.clean x (List.mem_append_left _ hx)
    exact ⟨hbuiltin, fun hmem => ⟨(hglobal hmem).1, hfirst x hx (hglobal hmem).2⟩⟩

/-- The second one of two parts, after the first one. -/
theorem right (h : Fresh globals (own₁ ++ own₂) (a ++ b) s scope outer agenda) (ha : own₁ ⊆ a)
    (hb : own₂ ⊆ b) (hadds : Adds s own₁ s₁) :
    Fresh globals own₂ b s₁ scope outer (agenda.done scope own₁) := by
  obtain ⟨-, -, hdisjoint⟩ := List.nodup_append.mp h.unknown.nodup
  have hsecond : ∀ x ∈ b, x ∈ own₁ ++ own₂ → x ∈ own₂ := by
    intro x hx hown
    rcases List.mem_append.mp hown with hown | hown
    · exact absurd rfl (hdisjoint x (ha hown) x hx)
    · exact hown
  refine ⟨h.unknown.right hadds ha, ?_, hb, ?_, ?_, ?_, ?_, ?_⟩
  · exact hadds.clean h.tabled fun x hx => (h.clean x (List.mem_append_left _ (ha hx))).1
  · intro x hx
    refine ⟨h.due x (List.mem_append_right _ hx), fun _ hown => ?_⟩
    exact hdisjoint x (ha hown) x (hb hx) rfl
  · rintro x ⟨hagenda, hnot⟩ hknows
    rcases hadds.knows hknows with hold | hnew
    · exact h.here x hagenda hold
    · exact hnot rfl hnew
  · rintro l hl x ⟨hagenda, -⟩
    obtain ⟨hknows, hall⟩ := h.around l hl x hagenda
    refine ⟨fun hknows₁ => ?_, fun hmem => hall (List.mem_append_right _ hmem)⟩
    rcases hadds.knows hknows₁ with hold | hnew
    · exact hknows hold
    · exact hall (List.mem_append_left _ (ha hnew))
  · rintro x hx ⟨hagenda, -⟩
    exact hsecond x hx (h.inside x (List.mem_append_right _ hx) hagenda)
  · intro x hx
    obtain ⟨hbuiltin, hglobal⟩ := h.clean x (List.mem_append_right _ hx)
    exact ⟨hbuiltin, fun hmem => ⟨(hglobal hmem).1, hsecond x hx (hglobal hmem).2⟩⟩

/-- What else may still be bound does not matter to a part that binds nothing. -/
theorem anti {agenda' : Agenda} (h : Fresh globals [] all s scope outer agenda)
    (hle : ∀ l x, agenda' l x → agenda l x) : Fresh globals [] all s scope outer agenda' :=
  ⟨h.unknown, h.tabled, h.own_subset, nofun, fun x hx => h.here x (hle _ x hx),
    fun l hl x hx => h.around l hl x (hle l x hx), fun x hx hagenda => h.inside x hx (hle _ x hagenda),
    h.clean⟩

/-- The order of two parts does not matter. -/
theorem swap (h : Fresh globals (own₁ ++ own₂) (a ++ b) s scope outer agenda) :
    Fresh globals (own₂ ++ own₁) (b ++ a) s scope outer agenda := by
  have hown : ∀ {x}, x ∈ own₁ ++ own₂ ↔ x ∈ own₂ ++ own₁ := List.perm_append_comm.mem_iff
  have hall : ∀ {x}, x ∈ a ++ b ↔ x ∈ b ++ a := List.perm_append_comm.mem_iff
  refine ⟨h.unknown.of_perm List.perm_append_comm, h.tabled, ?_, ?_, h.here, ?_, ?_, ?_⟩
  · exact fun x hx => hall.mp (h.own_subset (hown.mpr hx))
  · exact fun x hx => h.due x (hown.mpr hx)
  · intro l hl x hx
    obtain ⟨hknows, hnot⟩ := h.around l hl x hx
    exact ⟨hknows, fun hmem => hnot (hall.mpr hmem)⟩
  · exact fun x hx hagenda => hown.mp (h.inside x (hall.mpr hx) hagenda)
  · intro x hx
    obtain ⟨hbuiltin, hglobal⟩ := h.clean x (hall.mpr hx)
    exact ⟨hbuiltin, fun hmem => ⟨(hglobal hmem).1, hown.mp (hglobal hmem).2⟩⟩

end Fresh

/-! ## Function literals -/

/-- The tables inside a function literal do not know what is still to be bound around it, and the function
does not bind it either. -/
def Settled (levels : List Nat) (agenda : Agenda) (s : Symbols) (body : List Stmt) : Prop :=
  ∀ l ∈ levels, ∀ x, agenda l x → ¬ Knows s.tables x ∧ x ∉ Stmt.bindersAll true body

theorem Settled.anti {levels : List Nat} {agenda agenda' : Agenda} {s : Symbols} {body : List Stmt}
    (h : Settled levels agenda s body) (hle : ∀ l x, agenda' l x → agenda l x) :
    Settled levels agenda' s body := fun l hl x hx => h l hl x (hle l x hx)

namespace Fresh

variable {globals parameters own all : List String} {body : List Stmt} {s : Symbols} {scope : Nat}
  {outer : List Nat} {agenda : Agenda} {name : Option String}

/-- A function literal, once the name that is given to it is bound. -/
theorem settled (h : Fresh globals [] (parameters ++ Stmt.bindersAll true body) s scope outer agenda)
    (hname : ∀ l ∈ scope :: outer, ∀ x, agenda l x → name ≠ some x) :
    Settled (scope :: outer) agenda (s.openFunction name parameters) body := by
  intro l hl x hagenda
  have hthere : ¬ Knows s.tables x ∧ x ∉ parameters ++ Stmt.bindersAll true body := by
    rcases List.mem_cons.mp hl with rfl | hl'
    · exact ⟨h.here x hagenda, fun hmem => absurd (h.inside x hmem hagenda) List.not_mem_nil⟩
    · exact h.around l hl' x hagenda
  refine ⟨fun hknows => ?_, fun hmem => hthere.2 (List.mem_append_right _ hmem)⟩
  have hnodup := (List.nodup_append.mp h.unknown.nodup).1
  rcases Symbols.openFunction_knows hnodup hknows with hmem | hself | hold
  · exact hthere.2 (List.mem_append_left _ hmem)
  · exact hname l hl x hagenda hself
  · exact hthere.1 hold

/-- The body of a function in the scope of a call, which is a new one. -/
theorem of_settled (hunknown : Unknown (Stmt.bindersAll true body) s) (htabled : Clean s.tables)
    (hclean : ∀ x ∈ Stmt.bindersAll true body, Builtin.ofName? x = none ∧ x ∉ globals)
    (hsettled : Settled outer agenda s body) (hnew : scope ∉ outer) :
    Fresh globals (Stmt.bindersAll false body) (Stmt.bindersAll true body) s scope outer
      (agenda.opened scope (Stmt.bindersAll false body)) := by
  have hscope : ∀ x, agenda.opened scope (Stmt.bindersAll false body) scope x ↔
      x ∈ Stmt.bindersAll false body := by
    intro x
    rw [Agenda.opened, if_pos rfl]
  have hsub := (Stmt.ownAll_sublist body).subset
  refine ⟨hunknown, htabled, hsub, fun x hx => (hscope x).mpr hx, ?_, ?_, fun x _ hx => (hscope x).mp hx, ?_⟩
  · exact fun x hx => hunknown.unknown x (hsub ((hscope x).mp hx))
  · intro l hl x hx
    have hne : l ≠ scope := by
      rintro rfl
      exact hnew hl
    rw [Agenda.opened, if_neg hne] at hx
    exact hsettled l hl x hx
  · exact fun x hx => ⟨(hclean x hx).1, fun hmem => absurd hmem (hclean x hx).2⟩

end Fresh

end ScriptLang
