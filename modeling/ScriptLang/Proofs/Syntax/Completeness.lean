import ScriptLang.Proofs.Syntax.Soundness

/-!
# The parser reads all that the grammar says

The tokens of a phrase are read as this phrase, whatever tokens come behind as long as they do not go on
with it. For an expression the parser may be in the middle of another one: reading its tokens and then the
operators behind them is the same as going on behind the expression (`Phrase.Accepted`).

Main statement: `Program.ofTokens_eq_ok_iff`.
-/

namespace ScriptLang

namespace Parse

/-! ## Where an expression may be read

A parser at a certain precedence stops in front of an operator that binds no tighter. So it reads the whole of
an expression if that is printed at a level that this precedence admits, and if what follows ends it. -/

/-- Whether an expression of some level is read as a whole where operators have to bind tighter than `p`. -/
def Admits (p : Precedence) (level : Nat) : Prop :=
  p.rank ≤ Precedence.unary.rank ∧ ∀ operator : Operator, operator.isBinary = true →
    level ≤ operator.precedence.rank → p < operator.precedence

theorem admits_lowest (level : Nat) : Admits .lowest level :=
  ⟨by decide, fun _ h _ => (Operator.precedence_bounds h).1⟩

/-- Calls and indexing may be read wherever an operand of a prefix operator may. -/
theorem admits_of_unary_le {p : Precedence} {level : Nat} (hp : p.rank ≤ Precedence.unary.rank)
    (h : Precedence.unary.rank ≤ level) : Admits p level :=
  ⟨hp, fun _ hoperator hle =>
    absurd (Nat.le_trans h hle) (Nat.not_le_of_lt (Operator.precedence_bounds hoperator).2)⟩

theorem Admits.left {p : Precedence} {level : Nat} {operator : Operator} (h : Admits p level)
    (hoperator : operator.isBinary = true) (hle : level ≤ operator.precedence.rank) :
    Admits p operator.precedence.rank :=
  ⟨h.1, fun _ _ hle' => Nat.lt_of_lt_of_le (h.2 operator hoperator hle) hle'⟩

/-- The right operand stands one level higher, since operators group to the left. -/
theorem admits_right {operator : Operator} (h : operator.isBinary = true) :
    Admits operator.precedence (operator.precedence.rank + 1) :=
  ⟨Nat.le_of_lt (Operator.precedence_bounds h).2, fun _ _ hle => hle⟩

/-- Whether tokens do not go on with an expression of some level: neither by an operator nor, if the
expression is an `if`, by an alternative. -/
def Ends (level : Nat) (rest : List Token) : Prop :=
  nextRank rest ≤ level ∧ nextToken rest ≠ .keyword .else

theorem Ends.mono {level level' : Nat} {rest : List Token} (h : Ends level rest) (hle : level ≤ level') :
    Ends level' rest := ⟨Nat.le_trans h.1 hle, h.2⟩

/-- A mark ends an expression if it is no operator. -/
theorem ends_mark {m : Mark} {level : Nat} (h : (Token.mark m).precedence.rank ≤ level) (rest : List Token) :
    Ends level (.mark m :: rest) := ⟨h, Token.noConfusion⟩

/-! ## Operators -/

variable {n : Nat} {p : Precedence} {e : Expr} {tokens rest : List Token}

/-- An operand with the operators behind it, which is how expressions are read. -/
theorem expression_of_operand (h : operand (expression n) (block n) (elements n · []) (pairs n []) tokens =
    .ok e rest) : expression (n + 1) p tokens = operators n p e rest := by
  rw [expression]
  exact bind_of_ok h

theorem operators_stop (h : nextRank rest ≤ p.rank) : operators n p e rest = .ok e rest := by
  cases n with
  | zero => rfl
  | succ n =>
      rw [operators, peek_bind]
      split
      · next hlt => exact absurd hlt (Nat.not_lt_of_le h)
      · rfl

/-- Arguments in parentheses behind an expression are a call. -/
theorem operators_call {mid : List Token} {arguments : List Expr} (hp : p.rank ≤ Precedence.unary.rank)
    (h : elements n .rightParen [] mid = .ok arguments rest) :
    operators (n + 1) p e (.mark .leftParen :: mid) = operators n p (.call e arguments) rest := by
  have hbinds : p < (Token.mark .leftParen).precedence := Nat.lt_succ_of_le hp
  rw [operators, peek_bind, nextToken_cons, if_pos hbinds]
  exact (discard_read_bind _ _ _).trans (bind_of_ok h)

theorem operators_index {mid : List Token} {key : Expr} (hp : p.rank ≤ Precedence.unary.rank)
    (h : expression n .lowest mid = .ok key (.mark .rightBracket :: rest)) :
    operators (n + 1) p e (.mark .leftBracket :: mid) = operators n p (.index e key) rest := by
  have hbinds : p < (Token.mark .leftBracket).precedence := Nat.lt_succ_of_le (Nat.le_succ_of_le hp)
  rw [operators, peek_bind, nextToken_cons, if_pos hbinds]
  exact (discard_read_bind _ _ _).trans ((bind_of_ok h).trans (expect_bind _ _ _))

/-- An operator that binds tighter is read with its right operand. -/
theorem operators_binary {mid : List Token} {operator : Operator} {right : Expr}
    (hoperator : operator.isBinary = true) (hp : p < operator.precedence)
    (h : expression n operator.precedence mid = .ok right rest) :
    operators (n + 1) p e (.mark operator.mark :: mid) = operators n p (.binary e operator right) rest := by
  have hbinds : p < (Token.mark operator.mark).precedence := hp
  rw [operators, peek_bind, nextToken_cons, if_pos hbinds]
  have hread : ∀ f : PUnit → Parse Expr, (discard read >>= f) (.mark operator.mark :: mid) = f ⟨⟩ mid :=
    fun _ => rfl
  cases operator with
  | bang => cases hoperator
  | _ => exact (hread _).trans (bind_of_ok h)

/-! ## Statements -/

variable {reader : Precedence → Parse Expr}

/-- A `let`, with a semicolon behind it if there is one. -/
theorem statement_let (name : String) (h : reader .lowest tokens = .ok e rest) :
    statement reader (.keyword .let :: .identifier name :: .mark .assign :: tokens) =
      .ok (.let name (e.named name)) (dropSemicolon rest) := by
  have hvalue : (do
      expect .assign
      let value ← reader .lowest
      skipSemicolon
      return Stmt.let name (value.named name) : Parse Stmt) (.mark .assign :: tokens) =
        .ok (.let name (e.named name)) (dropSemicolon rest) :=
    (expect_bind _ _ _).trans ((bind_of_ok h).trans (skipSemicolon_bind _ _))
  rw [statement, peek_bind, nextToken_cons]
  exact (discard_read_bind _ _ _).trans ((read_bind _ _ _).trans hvalue)

theorem statement_return_none (h : EndsReturn (nextToken rest)) :
    statement reader (.keyword .return :: rest) = .ok (.return none) (dropSemicolon rest) := by
  rw [statement, peek_bind, nextToken_cons]
  refine (discard_read_bind _ _ _).trans ((peek_bind _ _).trans ?_)
  exact (congrFun (if_pos h) rest).trans (skipSemicolon_bind _ _)

theorem statement_return_some (hstarts : ¬ EndsReturn (nextToken tokens))
    (h : reader .lowest tokens = .ok e rest) :
    statement reader (.keyword .return :: tokens) = .ok (.return (some e)) (dropSemicolon rest) := by
  rw [statement, peek_bind, nextToken_cons]
  refine (discard_read_bind _ _ _).trans ((peek_bind _ _).trans ((congrFun (if_neg hstarts) tokens).trans ?_))
  exact (bind_of_ok h).trans (skipSemicolon_bind _ _)

theorem statement_expr (hstarts : (nextToken tokens).startsExpr = true)
    (h : reader .lowest tokens = .ok e rest) : statement reader tokens = .ok (.expr e) (dropSemicolon rest) := by
  rw [statement, peek_bind]
  generalize nextToken tokens = t at hstarts
  split
  · cases hstarts
  · cases hstarts
  · exact (bind_of_ok h).trans (skipSemicolon_bind _ _)

/-- What stands behind a statement without a semicolon. It is another statement, or it is `tail`, with which
the statements end. -/
theorem juxtaposed {ss : List Stmt} {us : List Token} (tail : List Token)
    (h : Spells (.stmts ss) us)
    (hfollow : ∀ t ∈ us.head?, t.precedence = .lowest)
    (htail : nextToken tail = .mark .rightBrace ∨ nextToken tail = .endOfFile) :
    Ends 0 (us ++ tail) ∧ dropSemicolon (us ++ tail) = us ++ tail := by
  have hstarts := h.stmts_starts
  cases us with
  | nil =>
      rw [List.nil_append, Ends, nextRank]
      rcases htail with h | h
      · rw [dropSemicolon_of_ne (by simp [h]), h]
        exact ⟨⟨Nat.le_refl _, Token.noConfusion⟩, rfl⟩
      · rw [dropSemicolon_of_ne (by simp [h]), h]
        exact ⟨⟨Nat.le_refl _, Token.noConfusion⟩, rfl⟩
  | cons t us =>
      have ht := hstarts t rfl
      refine ⟨⟨?_, ?_⟩, dropSemicolon_of_ne ?_⟩
      · rw [nextRank, List.cons_append, nextToken_cons, hfollow t rfl]
        exact Nat.le_refl _
      · rintro rfl
        cases ht
      · rintro rfl
        cases ht

/-! ## Phrases

By induction on the grammar. A phrase is accepted if it is read from its tokens whatever stands behind, as
long as that ends it (`Phrase.Accepted`). -/

end Parse

open Parse

/-- The tokens of a phrase are read as this phrase. -/
def Phrase.Accepted : Phrase → List Token → Prop
  | .expr level e, ts => ∀ ⦃n : Nat⦄ ⦃p : Precedence⦄ ⦃rest : List Token⦄, (ts ++ rest).length ≤ n →
    Admits p level → Ends level rest →
    ∃ n', rest.length ≤ n' ∧ expression n p (ts ++ rest) = operators n' p e rest
  | .items es, ts => ∀ ⦃n : Nat⦄ ⦃close : Mark⦄ ⦃acc : List Expr⦄ ⦃rest : List Token⦄,
    (ts ++ .mark close :: rest).length ≤ n → (close = .rightParen ∨ close = .rightBracket) →
    (es = [] → acc = []) → elements n close acc (ts ++ .mark close :: rest) = .ok (acc.reverse ++ es) rest
  | .pairs ps, ts => ∀ ⦃n : Nat⦄ ⦃acc : List (Expr × Expr)⦄ ⦃rest : List Token⦄,
    (ts ++ .mark .rightBrace :: rest).length ≤ n →
    Parse.pairs n acc (ts ++ .mark .rightBrace :: rest) = .ok (acc.reverse ++ ps) rest
  | .stmt s, ts => ∀ ⦃n : Nat⦄ ⦃rest : List Token⦄, (ts ++ rest).length ≤ n →
    Ends 0 rest → (s = .return none → EndsReturn (nextToken rest)) →
    statement (expression n) (ts ++ rest) = .ok s (dropSemicolon rest)
  | .stmts ss, ts =>
    (∀ ⦃n : Nat⦄ ⦃acc : List Stmt⦄ ⦃rest : List Token⦄, (ts ++ .mark .rightBrace :: rest).length ≤ n →
      statements n acc (ts ++ .mark .rightBrace :: rest) = .ok (acc.reverse ++ ss) rest) ∧
    ∀ ⦃n : Nat⦄ ⦃found : List Stmt⦄ ⦃errors : List ParseError⦄, ts.length ≤ n →
      program n found errors ts = ⟨found.reverse ++ ss, errors.reverse, []⟩

namespace Phrase.Accepted

variable {n : Nat} {p : Precedence} {level : Nat} {e : Expr} {s : Stmt} {ts us : List Token}

/-- An operand is read by itself. -/
theorem of_operand (hts : Spells (.expr level e) ts) (h : ∀ {n : Nat} {rest : List Token},
      (ts ++ rest).length ≤ n + 1 → Ends level rest →
      operand (expression n) (block n) (Parse.elements n · []) (Parse.pairs n []) (ts ++ rest) = .ok e rest) :
    (Phrase.expr level e).Accepted ts := by
  intro n p rest hlength _ hnext
  obtain ⟨t, ts', rfl, -⟩ := hts.expr_starts
  cases n with
  | zero => cases hlength
  | succ n => exact ⟨n, by grind, expression_of_operand (h hlength hnext)⟩

/-- An expression whose operators are read to the end. -/
theorem expression_eq (h : (Phrase.expr 0 e).Accepted ts) (rest : List Token)
    (hlength : (ts ++ rest).length ≤ n) (hends : Ends 0 rest) :
    expression n .lowest (ts ++ rest) = .ok e rest := by
  obtain ⟨n', -, heq⟩ := h hlength (admits_lowest 0) hends
  rw [heq, operators_stop hends.1]

theorem block_eq {ss : List Stmt} (h : (Phrase.stmts ss).Accepted ts) (rest : List Token)
    (hlength : (enclosed .leftBrace ts .rightBrace ++ rest).length ≤ n) :
    block n (enclosed .leftBrace ts .rightBrace ++ rest) = .ok ss rest := by
  simp only [enclosed, List.cons_append, List.append_assoc, List.nil_append] at hlength ⊢
  cases n with
  | zero => cases hlength
  | succ n =>
      rw [block, expect_bind]
      exact h.1 (Nat.le_of_succ_le_succ hlength)

/-- The parts of an `if` up to the end of its consequence. -/
theorem operand_if {condition : Expr} {consequence : List Stmt}
    (hcondition : (Phrase.expr 0 condition).Accepted ts) (hconsequence : (Phrase.stmts consequence).Accepted us)
    {rest : List Token}
    (hlength : (enclosed .leftParen ts .rightParen ++ (enclosed .leftBrace us .rightBrace ++ rest)).length ≤ n) :
    operand (expression n) (block n) (Parse.elements n · []) (Parse.pairs n [])
      (.keyword .if :: (enclosed .leftParen ts .rightParen ++ (enclosed .leftBrace us .rightBrace ++ rest))) =
    (if nextToken rest = .keyword .else then do
      discard read
      return Expr.if condition consequence (some (← block n))
    else return Expr.if condition consequence none : Parse Expr) rest := by
  have hfirst : expression n .lowest (ts ++ .mark .rightParen :: (enclosed .leftBrace us .rightBrace ++ rest)) =
      .ok condition (.mark .rightParen :: (enclosed .leftBrace us .rightBrace ++ rest)) :=
    hcondition.expression_eq _ (by grind [enclosed]) (ends_mark (Nat.le_refl _) _)
  have hblock := hconsequence.block_eq rest (n := n) (by grind)
  rw [operand, read_bind, enclosed, List.cons_append, List.append_assoc]
  -- the parenthesis, the condition, the other parenthesis, the consequence
  refine (expect_bind _ _ _).trans ((bind_of_ok hfirst).trans ((expect_bind _ _ _).trans ?_))
  exact (bind_of_ok hblock).trans (peek_bind _ _)

/-- An expression of a list, and what stands behind it. -/
theorem elements_step (h : (Phrase.expr 0 e).Accepted ts) (hts : Spells (.expr 0 e) ts) {close : Mark}
    (hclose : close = .rightParen ∨ close = .rightBracket) (acc : List Expr) {rest : List Token}
    (hlength : (ts ++ rest).length ≤ n + 1) (hends : Ends 0 rest) :
    Parse.elements (n + 1) close acc (ts ++ rest) = (do
      let next ← read
      if next = .mark .comma then
        Parse.elements n close (e :: acc)
      else if next = .mark close then
        return (e :: acc).reverse
      else
        throw (.expectedListEnd close next) : Parse (List Expr)) rest := by
  have he := h.expression_eq _ hlength hends
  obtain ⟨t, ts', rfl, ht⟩ := hts.expr_starts
  have hopen : ¬ (acc.isEmpty = true ∧ t = .mark close) := by
    rintro ⟨-, rfl⟩
    rcases hclose with rfl | rfl <;> cases ht
  rw [Parse.elements, peek_bind, List.cons_append, nextToken_cons, if_neg hopen, ← bind_assoc]
  exact bind_of_ok he

/-- A pair of a hash literal, and what stands behind it. -/
theorem pairs_step {key value : Expr} (hkey : (Phrase.expr 0 key).Accepted ts)
    (hts : Spells (.expr 0 key) ts) (hvalue : (Phrase.expr 0 value).Accepted us)
    (acc : List (Expr × Expr)) {rest : List Token}
    (hlength : (ts ++ .mark .colon :: (us ++ rest)).length ≤ n + 1) (hends : Ends 0 rest) :
    Parse.pairs (n + 1) acc (ts ++ .mark .colon :: (us ++ rest)) = (do
      unless (← peek) = .mark .rightBrace do
        expect .comma
      Parse.pairs n ((key, value) :: acc) : Parse (List (Expr × Expr))) rest := by
  have hfirst := hkey.expression_eq _ hlength (ends_mark (Nat.le_refl _) _)
  obtain ⟨t, ts', rfl, ht⟩ := hts.expr_starts
  have hsecond := hvalue.expression_eq rest (n := n) (by grind) hends
  have hopen : ¬ t = .mark .rightBrace := by
    rintro rfl
    cases ht
  rw [Parse.pairs, peek_bind, List.cons_append, nextToken_cons, if_neg hopen, ← bind_assoc]
  exact (bind_of_ok hfirst).trans ((expect_bind _ _ _).trans (bind_of_ok hsecond))

theorem pairs_close (acc : List (Expr × Expr)) (rest : List Token) :
    Parse.pairs (n + 1) acc (.mark .rightBrace :: rest) = .ok acc.reverse rest := by
  rw [Parse.pairs, peek_bind, nextToken_cons, if_pos rfl]
  rfl

/-! ### Statements -/

theorem statements_step (h : (Phrase.stmt s).Accepted ts) (hts : Spells (.stmt s) ts) (acc : List Stmt)
    {rest : List Token} (hlength : (ts ++ rest).length ≤ n + 1) (hends : Ends 0 rest)
    (hreturn : s = .return none → EndsReturn (nextToken rest)) :
    statements (n + 1) acc (ts ++ rest) = statements n (s :: acc) (dropSemicolon rest) := by
  have hs := h hlength hends hreturn
  obtain ⟨t, ts', rfl, ht⟩ := hts.stmt_starts
  rw [statements, peek_bind, List.cons_append, nextToken_cons]
  split
  · cases ht
  · cases ht
  · exact bind_of_ok hs

theorem program_step (h : (Phrase.stmt s).Accepted ts) (hts : Spells (.stmt s) ts) (found : List Stmt)
    (errors : List ParseError) {rest : List Token} (hlength : (ts ++ rest).length ≤ n + 1)
    (hends : Ends 0 rest) (hreturn : s = .return none → EndsReturn (nextToken rest)) :
    program (n + 1) found errors (ts ++ rest) = program n (s :: found) errors (dropSemicolon rest) := by
  have hs := h hlength hends hreturn
  obtain ⟨t, ts', rfl, ht⟩ := hts.stmt_starts
  rw [List.cons_append] at hs ⊢
  rw [program, hs]
  · simp
  · rintro rest' heq
    cases heq
    cases ht

end Phrase.Accepted

/-- **What the grammar says, the parser reads.** -/
theorem Spells.accepted {P : Phrase} {ts : List Token} (h : Spells P ts) : P.Accepted ts := by
  induction h with
  | identifier => exact .of_operand .identifier fun _ _ => rfl
  | integer => exact .of_operand .integer fun _ _ => rfl
  | @boolean _ value => exact .of_operand .boolean fun _ _ => by cases value <;> rfl
  | string => exact .of_operand .string fun _ _ => rfl
  | @parens level e ts h ih =>
      refine .of_operand (.parens h) fun {n rest} hlength _ => ?_
      simp only [enclosed, List.cons_append, List.append_assoc, List.nil_append] at hlength ⊢
      have he := ih.expression_eq _ (Nat.le_of_succ_le_succ hlength) (ends_mark (Nat.le_refl _) _)
      exact (bind_of_ok he).trans (expect_bind _ _ _)
  | @array level es ts h ih =>
      refine .of_operand (.array h) fun {n rest} hlength _ => ?_
      simp only [enclosed, List.cons_append, List.append_assoc, List.nil_append] at hlength ⊢
      exact bind_of_ok (ih (Nat.le_of_succ_le_succ hlength) (.inr rfl) fun _ => rfl)
  | @hash level ps ts h ih =>
      refine .of_operand (.hash h) fun {n rest} hlength _ => ?_
      simp only [enclosed, List.cons_append, List.append_assoc, List.nil_append] at hlength ⊢
      exact bind_of_ok (ih (Nat.le_of_succ_le_succ hlength))
  | @unary level operator operand ts hoperator hlevel h ih =>
      refine .of_operand (.unary hoperator hlevel h) fun {n rest} hlength hends => ?_
      have hends := hends.mono hlevel
      obtain ⟨n', -, heq⟩ := ih (Nat.le_of_succ_le_succ hlength)
        (admits_of_unary_le (p := .unary) (Nat.le_refl _) (Nat.le_refl _)) hends
      rw [operators_stop hends.1] at heq
      cases operator with
      | bang | minus => exact bind_of_ok heq
      | _ => cases hoperator
  | @binary level operator left right ts us hoperator hlevel h₁ h₂ ih₁ ih₂ =>
      intro n p rest hlength hadmits hends
      have hends := hends.mono hlevel
      rw [List.append_assoc, List.cons_append] at hlength ⊢
      obtain ⟨n₁, hn₁, hleft⟩ := ih₁ hlength (hadmits.left hoperator hlevel)
        (ends_mark (Nat.le_refl _) _)
      cases n₁ with
      | zero => cases hn₁
      | succ n₁ =>
          obtain ⟨n₂, -, hright⟩ := ih₂ (Nat.le_of_succ_le_succ hn₁) (admits_right hoperator)
            (hends.mono (Nat.le_succ _))
          rw [operators_stop hends.1] at hright
          have hp := hadmits.2 operator hoperator hlevel
          exact ⟨n₁, by grind, hleft.trans (operators_binary hoperator hp hright)⟩
  | @call level callee arguments ts us h₁ h₂ ih₁ ih₂ =>
      intro n p rest hlength hadmits _
      simp only [enclosed, List.cons_append, List.append_assoc, List.nil_append] at hlength ⊢
      obtain ⟨n₁, hn₁, hcallee⟩ := ih₁ hlength (admits_of_unary_le hadmits.1 (by decide))
        (ends_mark (Nat.le_refl _) _)
      cases n₁ with
      | zero => cases hn₁
      | succ n₁ =>
          have harguments := @ih₂ n₁ _ [] rest (Nat.le_of_succ_le_succ hn₁) (.inl rfl) fun _ => rfl
          exact ⟨n₁, by grind, hcallee.trans (operators_call hadmits.1 harguments)⟩
  | @index level collection key ts us h₁ h₂ ih₁ ih₂ =>
      intro n p rest hlength hadmits _
      simp only [enclosed, List.cons_append, List.append_assoc, List.nil_append] at hlength ⊢
      obtain ⟨n₁, hn₁, hcollection⟩ := ih₁ hlength (admits_of_unary_le hadmits.1 (by decide))
        (ends_mark (Nat.le_refl _) _)
      cases n₁ with
      | zero => cases hn₁
      | succ n₁ =>
          have hkey := ih₂.expression_eq _ (Nat.le_of_succ_le_succ hn₁) (ends_mark (Nat.le_refl _) _)
          exact ⟨n₁, by grind, hcollection.trans (operators_index hadmits.1 hkey)⟩
  | @if_then level condition consequence ts us h₁ h₂ ih₁ ih₂ =>
      refine .of_operand (.if_then h₁ h₂) fun {n rest} hlength hends => ?_
      simp only [List.cons_append, List.append_assoc] at hlength ⊢
      rw [Phrase.Accepted.operand_if ih₁ ih₂ (Nat.le_of_succ_le_succ hlength), if_neg hends.2]
      rfl
  | @if_else level condition consequence alternative ts us vs h₁ h₂ h₃ ih₁ ih₂ ih₃ =>
      refine .of_operand (.if_else h₁ h₂ h₃) fun {n rest} hlength _ => ?_
      simp only [List.cons_append, List.append_assoc] at hlength ⊢
      have hblock := ih₃.block_eq rest (n := n) (by grind)
      rw [Phrase.Accepted.operand_if ih₁ ih₂ (Nat.le_of_succ_le_succ hlength), nextToken_cons, if_pos rfl]
      exact (discard_read_bind _ _ _).trans (bind_of_ok hblock)
  | @function level parameters body ts h ih =>
      refine .of_operand (.function h) fun {n rest} hlength _ => ?_
      simp only [List.cons_append, List.append_assoc] at hlength ⊢
      have hblock := ih.block_eq rest (n := n) (by grind)
      exact (bind_of_ok (parameterList_tokens parameters _)).trans (bind_of_ok hblock)
  | items_nil =>
      intro n close acc rest hlength _ hacc
      cases n with
      | zero => cases hlength
      | succ n =>
          obtain rfl := hacc rfl
          rw [List.nil_append, Parse.elements, peek_bind, nextToken_cons, if_pos ⟨rfl, rfl⟩]
          rfl
  | @items_one e ts h ih =>
      intro n close acc rest hlength hclose _
      cases n with
      | zero => grind
      | succ n =>
          have hends : Ends 0 (.mark close :: rest) := by
            rcases hclose with rfl | rfl <;> exact ends_mark (Nat.le_refl _) _
          rw [ih.elements_step h hclose acc hlength hends, read_bind]
          rcases hclose with rfl | rfl <;> exact congrArg (EStateM.Result.ok · rest) List.reverse_cons
  | @items_cons e es ts us hne h₁ h₂ ih₁ ih₂ =>
      intro n close acc rest hlength hclose _
      cases n with
      | zero => grind
      | succ n =>
          rw [List.append_assoc, List.cons_append] at hlength ⊢
          rw [ih₁.elements_step h₁ hclose acc hlength (ends_mark (Nat.le_refl _) _), read_bind, if_pos rfl]
          obtain ⟨t, ts', rfl, -⟩ := h₁.expr_starts
          rw [ih₂ (by grind) hclose fun hnil => absurd hnil hne, List.reverse_cons, List.append_assoc]
          rfl
  | pairs_nil =>
      intro n acc rest hlength
      cases n with
      | zero => cases hlength
      | succ n => rw [List.append_nil, List.nil_append, Phrase.Accepted.pairs_close]
  | @pairs_one key value ts us h₁ h₂ ih₁ ih₂ =>
      intro n acc rest hlength
      rw [List.append_assoc, List.cons_append] at hlength ⊢
      obtain ⟨n, rfl⟩ : ∃ k, n = k + 2 := ⟨n - 2, by grind⟩
      rw [ih₁.pairs_step h₁ ih₂ acc hlength (ends_mark (Nat.le_refl _) _), peek_bind, nextToken_cons]
      exact (Phrase.Accepted.pairs_close _ _).trans (congrArg (EStateM.Result.ok · rest) List.reverse_cons)
  | @pairs_cons key value ps ts us vs h₁ h₂ h₃ ih₁ ih₂ ih₃ =>
      intro n acc rest hlength
      simp only [List.append_assoc, List.cons_append] at hlength ⊢
      obtain ⟨n, rfl⟩ : ∃ k, n = k + 1 := ⟨n - 1, by grind⟩
      rw [ih₁.pairs_step h₁ ih₂ acc hlength (ends_mark (Nat.le_refl _) _), peek_bind, nextToken_cons]
      refine (expect_bind _ _ _).trans ((ih₃ (by grind)).trans ?_)
      rw [List.reverse_cons, List.append_assoc]
      rfl
  | @«let» name value ts h ih =>
      intro n rest hlength hends _
      exact statement_let name (ih.expression_eq _ (by grind) hends)
  | return_none =>
      intro n rest _ _ hreturn
      exact statement_return_none (hreturn rfl)
  | @return_some value ts h ih =>
      intro n rest hlength hends _
      have hvalue := ih.expression_eq rest (n := n) (by grind) hends
      obtain ⟨t, ts', rfl, ht⟩ := h.expr_starts
      refine statement_return_some (fun hend => ?_) hvalue
      cases hend.not_startsStmt.symm.trans (Token.startsStmt_of_startsExpr ht)
  | @expr value ts h ih =>
      intro n rest hlength hends _
      have hvalue := ih.expression_eq _ hlength hends
      obtain ⟨t, ts', rfl, ht⟩ := h.expr_starts
      exact statement_expr ht hvalue
  | stmts_nil =>
      refine ⟨fun n acc rest hlength => ?_, fun n found errors _ => ?_⟩
      · cases n with
        | zero => cases hlength
        | succ n =>
            rw [List.append_nil, List.nil_append, statements, peek_bind]
            rfl
      · rw [List.append_nil, program]
  | @stmts_semicolon s ss ts us h₁ h₂ ih₁ ih₂ =>
      refine ⟨fun n acc rest hlength => ?_, fun n found errors hlength => ?_⟩
      · simp only [List.append_assoc, List.cons_append] at hlength ⊢
        obtain ⟨n, rfl⟩ : ∃ k, n = k + 1 := ⟨n - 1, by grind⟩
        rw [ih₁.statements_step h₁ acc hlength (ends_mark (Nat.le_refl _) _) fun _ => .inl rfl]
        refine (ih₂.1 (by grind)).trans ?_
        rw [List.reverse_cons, List.append_assoc]
        rfl
      · obtain ⟨n, rfl⟩ : ∃ k, n = k + 1 := ⟨n - 1, by grind⟩
        rw [ih₁.program_step h₁ found errors hlength (ends_mark (Nat.le_refl _) _) fun _ => .inl rfl]
        refine (ih₂.2 (by grind)).trans ?_
        rw [List.reverse_cons, List.append_assoc]
        rfl
  | @stmts_cons s ss ts us hreturn hfollow h₁ h₂ ih₁ ih₂ =>
      obtain ⟨t, ts', rfl, -⟩ := h₁.stmt_starts
      refine ⟨fun n acc rest hlength => ?_, fun n found errors hlength => ?_⟩
      · obtain ⟨hends, hdrop⟩ := juxtaposed (.mark .rightBrace :: rest) h₂ hfollow (.inl rfl)
        rw [List.append_assoc] at hlength ⊢
        obtain ⟨n, rfl⟩ : ∃ k, n = k + 1 := ⟨n - 1, by grind⟩
        rw [ih₁.statements_step h₁ acc hlength hends fun heq => by rw [hreturn heq]; exact .inr (.inl rfl), hdrop]
        refine (ih₂.1 (by grind)).trans ?_
        rw [List.reverse_cons, List.append_assoc]
        rfl
      · obtain ⟨hends, hdrop⟩ := juxtaposed [] h₂ hfollow (.inr rfl)
        rw [List.append_nil] at hends hdrop
        obtain ⟨n, rfl⟩ : ∃ k, n = k + 1 := ⟨n - 1, by grind⟩
        rw [ih₁.program_step h₁ found errors hlength hends fun heq => by rw [hreturn heq]; exact .inr (.inr rfl),
          hdrop]
        refine (ih₂.2 (by grind)).trans ?_
        rw [List.reverse_cons, List.append_assoc]
        rfl

/-- Tokens that spell a program are read as this program, to the last one. -/
theorem Program.read_of_spells {program : Program} {tokens : List Token}
    (h : Spells (.stmts program) tokens) : Program.read tokens = ⟨program, [], []⟩ :=
  h.accepted.2 (Nat.le_refl _)

/-- Every program is read from the tokens that spell it. -/
theorem Program.ofTokens_of_spells {program : Program} {tokens : List Token}
    (h : Spells (.stmts program) tokens) : Program.ofTokens tokens = .ok program := by
  rw [ofTokens, read_of_spells h]
  rfl

/-- The tokens of a program that is read without an error, up to the end of the file. -/
theorem Program.spells_of_ofTokens {program : Program} {tokens : List Token}
    (h : Program.ofTokens tokens = .ok program) : ∃ ts rest, tokens = ts ++ rest ∧
      Spells (.stmts program) ts ∧ nextToken rest = .endOfFile := by
  rw [ofTokens] at h
  split at h
  · next hnone =>
      cases h
      obtain ⟨ts, htokens, hts, hend⟩ := spells_of_read (List.isEmpty_iff.mp hnone)
      exact ⟨ts, _, htokens, hts, hend⟩
  · cases h

/-- **The parser accepts the grammar.** A list of tokens is read as a program if and only if the tokens, all
of them and in their order, spell this program. None of them is an illegal one then. -/
theorem Program.ofTokens_eq_ok_iff {program : Program} {tokens : List Token}
    (hend : Token.endOfFile ∉ tokens) :
    (Program.ofTokens tokens = .ok program ↔ Spells (.stmts program) tokens) ∧
      (Program.ofTokens tokens = .ok program → ∀ text, Token.illegal text ∉ tokens) := by
  have hspells : Program.ofTokens tokens = .ok program → Spells (.stmts program) tokens := by
    intro h
    obtain ⟨ts, rest, rfl, hts, hnext⟩ := spells_of_ofTokens h
    cases rest with
    | nil => rwa [List.append_nil]
    | cons t rest =>
        cases hnext
        exact absurd (List.mem_append_right _ (List.mem_cons_self ..)) hend
  refine ⟨⟨hspells, ofTokens_of_spells⟩, fun h text hmem => ?_⟩
  exact ((hspells h).legal _ hmem).2 text rfl

/-- The tokens of `(1 - 2) * 3 {4: 5,}`: two statements without semicolons, a pair of parentheses that the
grouping needs, and a comma behind the last pair of a hash literal. -/
theorem Program.ofTokens_two_statements :
    let tokens := [.mark .leftParen, .integer 1, .mark .minus, .integer 2, .mark .rightParen,
      .mark .asterisk, .integer 3, .mark .leftBrace, .integer 4, .mark .colon, .integer 5, .mark .comma,
      .mark .rightBrace]
    let program := [.expr (.binary (.binary (.integer 1) .minus (.integer 2)) .asterisk (.integer 3)),
      .expr (.hash [(.integer 4, .integer 5)])]
    Token.endOfFile ∉ tokens ∧ Program.ofTokens tokens = .ok program ∧ Spells (.stmts program) tokens :=
  have hend := by decide
  have hread := rfl
  ⟨hend, hread, (ofTokens_eq_ok_iff hend).1.mp hread⟩

end ScriptLang
