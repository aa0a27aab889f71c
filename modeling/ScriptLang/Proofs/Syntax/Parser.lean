import ScriptLang.Proofs.Refinement.Binders
import ScriptLang.Proofs.Syntax.Reading

/-!
# What the parser yields

The trees that the parser yields are those of `Stmt.areNamed`: a function literal records the name that a
`let` gives it directly, and no other one. Main statement: `Program.areNamed_of_ofTokens`.
-/

namespace ScriptLang

/-! ## Lists

The tests of lists are written along the recursion of the tree; here they are stated of all elements. -/

theorem Expr.areNamed_iff {es : List Expr} : areNamed es = true ↔ ∀ e ∈ es, e.isNamed none = true := by
  induction es with
  | nil => exact iff_of_true rfl nofun
  | cons e es ih => rw [areNamed, Bool.and_eq_true_iff, ih, List.forall_mem_cons]

theorem Expr.areNamedPairs_iff {pairs : List (Expr × Expr)} : areNamedPairs pairs = true ↔
    ∀ pair ∈ pairs, pair.1.isNamed none = true ∧ pair.2.isNamed none = true := by
  induction pairs with
  | nil => exact iff_of_true rfl nofun
  | cons pair pairs ih =>
      rw [areNamedPairs, Bool.and_eq_true_iff, Bool.and_eq_true_iff, ih, List.forall_mem_cons, and_assoc]

theorem Stmt.areNamed_iff {ss : List Stmt} : areNamed ss = true ↔ ∀ s ∈ ss, s.isNamed = true := by
  induction ss with
  | nil => exact iff_of_true rfl nofun
  | cons s ss ih => rw [areNamed, Bool.and_eq_true_iff, ih, List.forall_mem_cons]

/-- What a `let` gives a name to has that name recorded, if it is a function literal. -/
theorem Expr.isNamed_named {e : Expr} (h : e.isNamed none = true) (name : String) :
    (e.named name).isNamed (some name) = true := by
  cases e with
  | function recorded parameters body =>
      rw [named, isNamed, decide_eq_true rfl, Bool.true_and]
      exact (Bool.and_eq_true_iff.mp h).2
  | «if» condition consequence alternative =>
      rw [isNamed_if] at h
      show (Expr.if condition consequence alternative).isNamed (some name) = true
      rwa [isNamed_if]
  | _ => exact h

/-! ## Parsers

A property of all that a parser yields. A parser that fails yields nothing. -/

namespace Parse

variable {α β : Type} {Q : α → Prop} {R : β → Prop} {x : Parse α} {f : α → Parse β}

/-- Whatever a parser yields has a property. -/
def Gives (x : Parse α) (Q : α → Prop) : Prop :=
  ∀ tokens a rest, x tokens = .ok a rest → Q a

theorem Gives.any (x : Parse α) : x.Gives fun _ => True := fun _ _ _ _ => trivial

theorem Gives.pure {a : α} (h : Q a) : Gives (Pure.pure a) Q := by
  intro tokens a' rest heq
  cases heq
  exact h

theorem Gives.throw (e : ParseError) : Gives (MonadExcept.throw e) Q := by
  intro tokens a rest heq
  cases heq

theorem Gives.bind (hx : x.Gives Q) (hf : ∀ a, Q a → (f a).Gives R) : (x >>= f).Gives R := by
  intro tokens b rest heq
  obtain ⟨a, rest₁, ha, hb⟩ := bind_eq_ok.mp heq
  exact hf a (hx _ _ _ ha) _ _ _ hb

/-- What a parser yields does not matter to what comes behind it. -/
theorem Gives.then (hf : ∀ a, (f a).Gives R) : (x >>= f).Gives R := (Gives.any x).bind fun a _ => hf a

/-- A test is known to hold in one branch, and to fail in the other. -/
theorem Gives.ite {p : Prop} [Decidable p] {y : Parse α} (hx : p → x.Gives Q) (hy : ¬ p → y.Gives Q) :
    Gives (if p then x else y) Q := by
  split
  · exact hx ‹_›
  · exact hy ‹_›

/-! ## Operands and statements -/

variable {expression : Precedence → Parse Expr} {block : Parse (List Stmt)}
  {elements : Mark → Parse (List Expr)} {pairs : Parse (List (Expr × Expr))}

/-- An operand, from what stands inside of it. -/
theorem operand_gives (hexpression : ∀ p, (expression p).Gives (·.isNamed none = true))
    (hblock : block.Gives (Stmt.areNamed · = true))
    (helements : ∀ close, (elements close).Gives (Expr.areNamed · = true))
    (hpairs : pairs.Gives (Expr.areNamedPairs · = true)) :
    (operand expression block elements pairs).Gives (·.isNamed none = true) := by
  unfold operand
  apply Gives.then
  intro token
  cases token with
  | identifier name => exact .pure rfl
  | integer value => exact .pure rfl
  | string contents => exact .pure rfl
  | keyword k =>
      cases k with
      | true => exact .pure rfl
      | false => exact .pure rfl
      | «if» =>
          apply Gives.then
          intro _
          refine (hexpression _).bind fun condition hcondition => ?_
          apply Gives.then
          intro _
          refine hblock.bind fun consequence hconsequence => ?_
          apply Gives.then
          intro next
          apply Gives.ite
          · intro _
            apply Gives.then
            intro _
            refine hblock.bind fun alternative halternative => .pure ?_
            rw [Expr.isNamed, hcondition, hconsequence, halternative]
            rfl
          · intro _
            refine .pure ?_
            rw [Expr.isNamed, hcondition, hconsequence]
            rfl
      | fn =>
          apply Gives.then
          intro names
          refine hblock.bind fun body hbody => .pure ?_
          rw [Expr.isNamed, hbody]
          rfl
      | _ => exact .throw _
  | mark m =>
      cases m with
      | bang => exact (hexpression _).bind fun e he => .pure he
      | minus => exact (hexpression _).bind fun e he => .pure he
      | leftParen =>
          refine (hexpression _).bind fun e he => ?_
          exact Gives.then fun _ => .pure he
      | leftBracket => exact (helements _).bind fun es hes => .pure hes
      | leftBrace => exact hpairs.bind fun ps hps => .pure hps
      | _ => exact .throw _
  | _ => exact .throw _

/-- A statement, which names a function literal that a `let` binds. -/
theorem statement_gives (hexpression : ∀ p, (expression p).Gives (·.isNamed none = true)) :
    (statement expression).Gives (·.isNamed = true) := by
  have hlet : ∀ name, Gives (do
      expect .assign
      let value ← expression .lowest
      skipSemicolon
      return Stmt.let name (value.named name)) (·.isNamed = true) := by
    intro name
    apply Gives.then
    intro _
    refine (hexpression _).bind fun value hvalue => ?_
    exact Gives.then fun _ => .pure (Expr.isNamed_named hvalue name)
  unfold statement
  apply Gives.then
  intro token
  split
  · apply Gives.then
    intro _
    apply Gives.then
    intro found
    dsimp only
    split
    · exact Gives.then hlet
    · exact Gives.then hlet
  · apply Gives.then
    intro _
    apply Gives.then
    intro next
    apply Gives.ite
    · intro _
      exact Gives.then fun _ => .pure rfl
    · intro _
      refine (hexpression _).bind fun value hvalue => ?_
      exact Gives.then fun _ => .pure hvalue
  · refine (hexpression _).bind fun value hvalue => ?_
    exact Gives.then fun _ => .pure hvalue

/-! ## Expressions and blocks

By induction on the bound, for all parsers that call each other at once. -/

theorem areNamed_reverse {found : List Stmt} (h : Stmt.areNamed found = true) :
    Stmt.areNamed found.reverse = true :=
  Stmt.areNamed_iff.mpr fun s hs => Stmt.areNamed_iff.mp h s (List.mem_reverse.mp hs)

/-- What the parsers with a certain bound yield. -/
structure Named (n : Nat) : Prop where
  expression : ∀ p, (Parse.expression n p).Gives (·.isNamed none = true)
  operators : ∀ p left, left.isNamed none = true → (Parse.operators n p left).Gives (·.isNamed none = true)
  elements : ∀ close acc, Expr.areNamed acc = true → (Parse.elements n close acc).Gives (Expr.areNamed · = true)
  pairs : ∀ acc, Expr.areNamedPairs acc = true → (Parse.pairs n acc).Gives (Expr.areNamedPairs · = true)
  block : (Parse.block n).Gives (Stmt.areNamed · = true)
  statements : ∀ acc, Stmt.areNamed acc = true → (Parse.statements n acc).Gives (Stmt.areNamed · = true)

/-- At the bottom the parsers yield nothing new. -/
theorem named_zero : Named 0 where
  expression := fun _ => .throw _
  operators := fun _ _ h => .pure h
  elements := fun _ _ _ => .throw _
  pairs := fun _ _ => .throw _
  block := .throw _
  statements := fun _ _ => .throw _

/-- An operand of an expression, with a larger bound. -/
theorem Named.operand {n : Nat} (h : Named n) :
    (Parse.operand (Parse.expression n) (Parse.block n) (Parse.elements n · []) (Parse.pairs n [])).Gives
      (·.isNamed none = true) :=
  operand_gives h.expression h.block (fun close => h.elements close [] rfl) (h.pairs [] rfl)

/-- An operand with the operators behind it. -/
theorem Named.whole {n : Nat} (h : Named n) (p : Precedence) : Gives (do
    let left ← Parse.operand (Parse.expression n) (Parse.block n) (Parse.elements n · []) (Parse.pairs n [])
    Parse.operators n p left) (·.isNamed none = true) :=
  h.operand.bind fun left hleft => h.operators p left hleft

/-- An operator between operands is no function literal. -/
theorem Named.operators_succ {n : Nat} (h : Named n) (p : Precedence) (left : Expr)
    (hleft : left.isNamed none = true) : (Parse.operators (n + 1) p left).Gives (·.isNamed none = true) := by
  unfold Parse.operators
  apply Gives.then
  intro next
  apply Gives.ite
  · intro _
    split
    · apply Gives.then
      intro _
      refine (h.elements _ [] rfl).bind fun es hes => h.operators p _ ?_
      rw [Expr.isNamed, hleft, hes]
      rfl
    · apply Gives.then
      intro _
      refine (h.expression _).bind fun key hkey => ?_
      apply Gives.then
      intro _
      apply h.operators
      rw [Expr.isNamed, hleft, hkey]
      rfl
    · split
      · apply Gives.then
        intro _
        refine (h.expression _).bind fun right hright => h.operators p _ ?_
        rw [Expr.isNamed, hleft, hright]
        rfl
      · exact .pure hleft
  · exact fun _ => .pure hleft

/-- Elements are named like any expression. -/
theorem Named.elements_succ {n : Nat} (h : Named n) (close : Mark) (acc : List Expr)
    (hacc : Expr.areNamed acc = true) : (Parse.elements (n + 1) close acc).Gives (Expr.areNamed · = true) := by
  unfold Parse.elements
  apply Gives.then
  intro token
  apply Gives.ite
  · intro _
    exact Gives.then fun _ => .pure rfl
  · intro _
    refine h.operand.bind fun left hleft => (h.operators _ left hleft).bind fun element helement => ?_
    have hall : Expr.areNamed (element :: acc) = true := by
      rw [Expr.areNamed, helement, hacc]
      rfl
    apply Gives.then
    intro next
    apply Gives.ite
    · exact fun _ => h.elements close _ hall
    · intro _
      apply Gives.ite
      · refine fun _ => .pure (Expr.areNamed_iff.mpr fun e he => ?_)
        exact Expr.areNamed_iff.mp hall e (List.mem_reverse.mp he)
      · exact fun _ => .throw _

theorem Named.pairs_succ {n : Nat} (h : Named n) (acc : List (Expr × Expr))
    (hacc : Expr.areNamedPairs acc = true) : (Parse.pairs (n + 1) acc).Gives (Expr.areNamedPairs · = true) := by
  unfold Parse.pairs
  apply Gives.then
  intro token
  apply Gives.ite
  · intro _
    apply Gives.then
    intro _
    refine .pure (Expr.areNamedPairs_iff.mpr fun pair hpair => ?_)
    exact Expr.areNamedPairs_iff.mp hacc pair (List.mem_reverse.mp hpair)
  · intro _
    refine h.operand.bind fun left hleft => (h.operators _ left hleft).bind fun key hkey => ?_
    apply Gives.then
    intro _
    refine (h.expression _).bind fun value hvalue => ?_
    have hall : Expr.areNamedPairs ((key, value) :: acc) = true := by
      rw [Expr.areNamedPairs, hkey, hvalue, hacc]
      rfl
    apply Gives.then
    intro next
    apply Gives.ite
    · exact fun _ => h.pairs _ hall
    · exact fun _ => Gives.then fun _ => h.pairs _ hall

/-- The statements of a block are named by themselves. -/
theorem Named.statements_succ {n : Nat} (h : Named n) (acc : List Stmt)
    (hacc : Stmt.areNamed acc = true) : (Parse.statements (n + 1) acc).Gives (Stmt.areNamed · = true) := by
  unfold Parse.statements
  apply Gives.then
  intro token
  split
  · apply Gives.then
    intro _
    exact .pure (areNamed_reverse hacc)
  · exact .throw _
  · refine (statement_gives h.whole).bind fun s hs => h.statements _ ?_
    rw [Stmt.areNamed, hs, hacc]
    rfl

/-- What the parsers yield is named, whatever the bound is. -/
theorem named : ∀ n : Nat, Named n
  | 0 => named_zero
  | n + 1 =>
    have h := named n
    { expression := fun p => by
        unfold Parse.expression
        exact h.whole p
      operators := h.operators_succ
      elements := h.elements_succ
      pairs := h.pairs_succ
      block := by
        unfold Parse.block
        exact Gives.then fun _ => h.statements [] rfl
      statements := h.statements_succ }

/-! ## Whole programs -/

/-- The statements of a program. A malformed one is left out. -/
theorem program_named (n : Nat) (found : List Stmt) (errors : List ParseError) (tokens : List Token) :
    Stmt.areNamed found = true → Stmt.areNamed (program n found errors tokens).statements = true := by
  fun_induction program n found errors tokens with
  | case1 => exact areNamed_reverse
  | case2 => exact areNamed_reverse
  | case3 => exact areNamed_reverse
  | case4 n found errors tokens _ _ s rest hs ih =>
      intro hfound
      apply ih
      rw [Stmt.areNamed, hfound, statement_gives (named (n + 1)).expression _ _ _ hs]
      rfl
  | case5 _ _ _ _ _ _ _ _ _ ih => exact ih

end Parse

/-- **Parsed programs**: their function literals record the names that a `let` gives them. -/
theorem Program.areNamed_of_ofTokens {tokens : List Token} {program : Program}
    (h : Program.ofTokens tokens = .ok program) : Stmt.areNamed program = true := by
  have hread := Parse.program_named tokens.length [] [] tokens rfl
  rw [Program.ofTokens] at h
  split at h
  · cases h
    exact hread
  · cases h

end ScriptLang
