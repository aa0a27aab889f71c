import ScriptLang.Proofs.Syntax.Bounds
import ScriptLang.Proofs.Syntax.Completeness

/-!
# Going on behind a malformed statement

The parser finds an error at a token that it has taken already, and goes on behind the next semicolon. If no
bracket is open, it reads the tokens in front of a semicolon without regard to what stands behind
(`Parse.Within`). Hence the errors of a statement do not hide those of the statements behind its semicolon,
unless an error is found at the semicolon itself: then the parser goes on behind the semicolon after that.
Main statement: `Program.errors_resume`.
-/

namespace ScriptLang

/-- The token at which an error is found. -/
def ParseError.found : ParseError → Token
  | .expected _ found | .expectedName found | .notAnExpression found | .expectedParameter found
  | .expectedParameterEnd found | .expectedListEnd _ found => found
  | .unclosedBlock => .endOfFile

/-- Whether a token is neither a semicolon nor the end of the file nor a bracket of any kind. -/
def Token.isPlain : Token → Bool
  | .endOfFile | .mark .semicolon | .mark .leftParen | .mark .rightParen | .mark .leftBracket
  | .mark .rightBracket | .mark .leftBrace | .mark .rightBrace => false
  | _ => true

theorem Token.ne_of_isPlain {t u : Token} (ht : t.isPlain = true) (hu : u.isPlain = false) : t ≠ u := by
  rintro rfl
  cases ht.symm.trans hu

namespace Parse

/-- Tokens without semicolons, ends of files and brackets. -/
def Plain (A : List Token) : Prop := ∀ t ∈ A, t.isPlain = true

/-- What a parser comes to, in terms of tokens that it does not look at. -/
abbrev Answer (α : Type) := List Token → EStateM.Result ParseError (List Token) α

variable {α β : Type} {x y : Nat → Parse α} {A A' : List Token} {t : Token} {last : Bool} {r : Answer α}

namespace Plain

theorem head (h : Plain (t :: A)) : t.isPlain = true := h t List.mem_cons_self

theorem suffix (h : Plain A) (hsuffix : A' <:+ A) : Plain A' := fun t ht => h t (hsuffix.subset ht)

theorem tail (h : Plain (t :: A)) : Plain A := h.suffix (List.suffix_cons t A)

end Plain

/-! ## Tokens in front of a semicolon

A parser that does not look past the semicolon does the same whatever stands behind it: `Answers` names what
that is, and `Within` lists the four ways it can be. Of two parsers in a row, the first must leave the
semicolon to the second. -/

/-- What a parser does with some tokens and a semicolon, in terms of what stands behind. The bound does not
matter if it is large enough. -/
def Answers (x : Nat → Parse α) (A : List Token) (r : Answer α) : Prop :=
  ∀ n B, A.length < n → x n (A ++ .mark .semicolon :: B) = r B

namespace Answers

/-- The first parser leaves the semicolon, and the second goes on in front of it. -/
theorem bind_ok {k : α → Nat → Parse β} {a : α} {r : Answer β}
    (hx : Answers x A fun B => .ok a (A' ++ .mark .semicolon :: B)) (hle : A'.length ≤ A.length)
    (hk : Answers (k a) A' r) : Answers (fun n => x n >>= fun a => k a n) A r := by
  intro n B hn
  have hkn := hk n B (Nat.lt_of_le_of_lt hle hn)
  exact (bind_of_ok (hx n B hn)).trans hkn

/-- After an error of the first parser there is no second one. -/
theorem bind_error {k : α → Nat → Parse β} {e : ParseError} {left : List Token → List Token}
    (hx : Answers x A fun B => .error e (left B)) :
    Answers (fun n => x n >>= fun a => k a n) A fun B => .error e (left B) := by
  intro n B hn
  apply (bind_apply _ _ _).trans
  rw [hx n B hn]

/-- A token that is taken lowers the bound by one. -/
theorem cons (hy : Answers y A r) (h : ∀ n tokens, x (n + 1) (t :: tokens) = y n tokens) :
    Answers x (t :: A) r := by
  intro n B hn
  obtain ⟨n, rfl⟩ := Nat.exists_eq_succ_of_ne_zero (Nat.ne_zero_of_lt hn)
  rw [List.cons_append, h]
  exact hy n B (Nat.lt_of_succ_lt_succ hn)

end Answers

/-- A parser does the same with some tokens whatever stands behind the semicolon after them. It leaves the
semicolon where it is, unless it finds an error there or, if it is the `last` one to read, takes it too. -/
inductive Within (last : Bool) (x : Nat → Parse α) (A : List Token) : Prop where
  | yields (a : α) (A' : List Token) (hsuffix : A' <:+ A)
      (h : Answers x A fun B => .ok a (A' ++ .mark .semicolon :: B))
  | takes (a : α) (hlast : last = true) (h : Answers x A fun B => .ok a B)
  | fails (e : ParseError) (A' : List Token) (hsuffix : A' <:+ A) (he : e.found ≠ .mark .semicolon)
      (h : Answers x A fun B => .error e (A' ++ .mark .semicolon :: B))
  | cut (e : ParseError) (he : e.found = .mark .semicolon) (h : Answers x A fun B => .error e B)

namespace Within

/-- A parser that does with some tokens what another one does with the end of them. -/
theorem of_answers (hy : Within last y A') (hsuffix : A' <:+ A) (h : ∀ r, Answers y A' r → Answers x A r) :
    Within last x A := by
  cases hy with
  | yields a A₂ hsuffix₂ hy => exact .yields a A₂ (hsuffix₂.trans hsuffix) (h _ hy)
  | takes a hlast hy => exact .takes a hlast (h _ hy)
  | fails e A₂ hsuffix₂ he hy => exact .fails e A₂ (hsuffix₂.trans hsuffix) he (h _ hy)
  | cut e he hy => exact .cut e he (h _ hy)

/-- Only the last of two parsers may take the semicolon. -/
theorem bind {k : α → Nat → Parse β} (hx : Within false x A)
    (hk : ∀ a A', A' <:+ A → Within last (k a) A') : Within last (fun n => x n >>= fun a => k a n) A := by
  cases hx with
  | yields a A' hsuffix hx =>
      apply (hk a A' hsuffix).of_answers hsuffix
      exact fun r hr => hx.bind_ok hsuffix.length_le hr
  | takes a hlast hx => cases hlast
  | fails e A' hsuffix he hx => exact .fails e A' hsuffix he hx.bind_error
  | cut e he hx => exact .cut e he hx.bind_error

/-- A parser that takes one token and goes on with a smaller bound. -/
theorem cons (hy : Within last y A) (h : ∀ n tokens, x (n + 1) (t :: tokens) = y n tokens) :
    Within last x (t :: A) := hy.of_answers (List.suffix_cons t A) fun _ hr => hr.cons h

theorem succ (hx : Within last x A) : Within last (fun n => x (n + 1)) A := by
  apply hx.of_answers List.suffix_rfl
  exact fun r hr n B hn => hr (n + 1) B (Nat.lt_succ_of_lt hn)

theorem congr (hx : Within last x A)
    (h : ∀ n B, y n (A ++ .mark .semicolon :: B) = x n (A ++ .mark .semicolon :: B)) : Within last y A := by
  apply hx.of_answers List.suffix_rfl
  exact fun r hr n B hn => (h n B).trans (hr n B hn)

/-- An error at a plain token, which is taken. -/
theorem of_error {e : ParseError} (ht : e.found.isPlain = true)
    (h : ∀ n tokens, x (n + 1) (t :: tokens) = .error e tokens) : Within last x (t :: A) := by
  have hthrow : Within last (fun _ => (MonadExcept.throw e : Parse α)) A :=
    .fails e A List.suffix_rfl (Token.ne_of_isPlain ht rfl) fun _ _ _ => rfl
  exact hthrow.cons h

end Within

/-! ## Missing marks

Plain tokens contain no brackets. So a parser that expects one finds an error at once, at a plain token or at
the semicolon. -/

/-- Another token than the expected one is taken, and the error names it. -/
theorem expect_bind_of_ne {m : Mark} {rest : List Token} (ht : t ≠ .mark m) (k : Unit → Parse α) :
    (expect m >>= k) (t :: rest) = .error (.expected (.mark m) t) rest := by
  have hexpect : expect m (t :: rest) = .error (.expected (.mark m) t) rest := by
    unfold expect
    rw [read_bind, if_neg ht]
    rfl
  rw [bind_apply, hexpect]

/-- A certain mark, or an error at what stands there instead. -/
theorem within_expect {k : Nat → Unit → Parse α} {m : Mark} (hm : m ≠ .semicolon) (hA : Plain A)
    (hk : ∀ A', A' <:+ A → Within last (k · ()) A') : Within last (fun n => expect m >>= k n) A := by
  cases A with
  | nil =>
      apply Within.cut (.expected (.mark m) (.mark .semicolon)) rfl
      exact fun n B _ => expect_bind_of_ne (fun h => hm (Token.mark.inj h).symm) _
  | cons t A =>
      by_cases ht : t = .mark m
      · subst ht
        apply (hk A (List.suffix_cons _ A)).succ.cons
        exact fun n tokens => expect_bind m _ tokens
      · apply Within.of_error (e := .expected (.mark m) t) hA.head
        exact fun n tokens => expect_bind_of_ne ht _

/-- A parser that needs a parenthesis behind its first token, where plain tokens have none. -/
theorem within_unopened {u : Token} (hA : Plain A) (h : ∀ n t tokens, t ≠ .mark .leftParen →
      x (n + 1) (u :: t :: tokens) = .error (.expected (.mark .leftParen) t) tokens) :
    Within last x (u :: A) := by
  have hrest : Within last (fun n tokens => x (n + 1) (u :: tokens)) A := by
    cases A with
    | nil =>
        apply Within.cut (.expected (.mark .leftParen) (.mark .semicolon)) rfl
        exact fun n B _ => h n _ _ (Mark.noConfusion ∘ Token.mark.inj)
    | cons t A =>
        apply Within.of_error (e := .expected (.mark .leftParen) t) hA.head
        exact fun n tokens => h (n + 1) t tokens (Token.ne_of_isPlain hA.head rfl)
  exact hrest.cons fun _ _ => rfl

/-! ## Expressions

By induction on the number of tokens: an operand takes a token, and what is left goes on in front of the same
semicolon. -/

section

variable {n : Nat} {p : Precedence} {tokens : List Token}

theorem expression_if (ht : t ≠ .mark .leftParen) : expression (n + 1) p (.keyword .if :: t :: tokens) =
    .error (.expected (.mark .leftParen) t) tokens := by
  rw [expression, operand, bind_apply, read_bind]
  dsimp only
  rw [expect_bind_of_ne ht]

/-- A function literal without its parenthesis. -/
theorem expression_fn (ht : t ≠ .mark .leftParen) : expression (n + 1) p (.keyword .fn :: t :: tokens) =
    .error (.expected (.mark .leftParen) t) tokens := by
  have hlist : parameterList (t :: tokens) = .error (.expected (.mark .leftParen) t) tokens := by
    unfold parameterList
    exact expect_bind_of_ne ht _
  rw [expression, operand, bind_apply, read_bind]
  dsimp only
  rw [bind_apply, hlist]

theorem expression_unary {operator : Operator} (h : operator.isUnary = true) :
    expression (n + 1) p (.mark operator.mark :: tokens) =
      (expression n .unary >>= fun e => operators n p (.unary operator e)) tokens := by
  rw [expression, operand, bind_apply, read_bind, bind_apply]
  cases operator with
  | bang | minus =>
      dsimp only [Operator.mark]
      rw [bind_apply]
      cases expression n .unary tokens <;> rfl
  | _ => cases h

/-- A plain token that binds what stands to its left is an operator. -/
theorem operators_plain (left : Expr) (ht : t.isPlain = true) (hp : p < t.precedence) :
    ∃ operator, ∀ n tokens, operators (n + 1) p left (t :: tokens) =
      (expression n t.precedence >>= fun right => operators n p (.binary left operator right)) tokens := by
  cases hop : t.binaryOperator? with
  | none =>
      have hlow : t.precedence = .lowest := Token.precedence_of_binaryOperator?_none hop
        (Token.ne_of_isPlain ht rfl) (Token.ne_of_isPlain ht rfl)
      rw [hlow] at hp
      exact absurd hp (Nat.not_lt_zero _)
  | some operator =>
      refine ⟨operator, fun n tokens => ?_⟩
      rw [operators, peek_bind, nextToken_cons, if_pos hp]
      cases t with
      | mark m => cases m <;> cases hop <;> exact discard_read_bind _ _ _
      | _ => cases hop

end

/-- Expressions, and the operators behind one, do not look behind the semicolon. -/
structure Closed (A : List Token) : Prop where
  expression : ∀ p, Within false (Parse.expression · p) A
  operators : ∀ p left, Within false (Parse.operators · p left) A

namespace Closed

/-- At the semicolon itself no expression begins, and no operator goes on. -/
theorem nil : Closed [] where
  expression := by
    intro p
    apply Within.cut (.notAnExpression (.mark .semicolon)) rfl
    intro n B hn
    obtain ⟨n, rfl⟩ := Nat.exists_eq_succ_of_ne_zero (Nat.ne_zero_of_lt hn)
    rfl
  operators := by
    intro p left
    apply Within.yields left [] List.suffix_rfl
    exact fun n B hn => operators_stop (Nat.zero_le _)

/-- An expression that begins with a plain token. -/
theorem expression_cons (h : ∀ A', A' <:+ A → Closed A') (hA : Plain (t :: A)) (p : Precedence) :
    Within false (Parse.expression · p) (t :: A) := by
  have hoperand : ∀ e, (∀ n tokens, Parse.expression (n + 1) p (t :: tokens) = Parse.operators n p e tokens) →
      Within false (Parse.expression · p) (t :: A) := fun e he => ((h A List.suffix_rfl).operators p e).cons he
  have hunary : ∀ operator : Operator, operator.isUnary = true → t = .mark operator.mark →
      Within false (Parse.expression · p) (t :: A) := by
    rintro operator hoperator rfl
    have hinner := ((h A List.suffix_rfl).expression .unary).bind fun e A' hA' =>
      (h A' hA').operators p (.unary operator e)
    exact hinner.cons fun n tokens => expression_unary hoperator
  -- `t` starts no expression
  have hnone : (∀ n tokens, Parse.expression (n + 1) p (t :: tokens) = .error (.notAnExpression t) tokens) →
      Within false (Parse.expression · p) (t :: A) := fun ht => .of_error (e := .notAnExpression t) hA.head ht
  cases t with
  | identifier name => exact hoperand (.identifier name) fun _ _ => rfl
  | integer value => exact hoperand (.integer value) fun _ _ => rfl
  | string contents => exact hoperand (.string contents) fun _ _ => rfl
  | keyword k =>
      cases k with
      | true => exact hoperand (.boolean Bool.true) fun _ _ => rfl
      | false => exact hoperand (.boolean Bool.false) fun _ _ => rfl
      | «if» => exact within_unopened hA.tail fun n t tokens => expression_if
      | fn => exact within_unopened hA.tail fun n t tokens => expression_fn
      | _ => exact hnone fun _ _ => rfl
  | mark m =>
      cases m with
      | bang => exact hunary .bang rfl rfl
      | minus => exact hunary .minus rfl rfl
      | leftParen | leftBracket | leftBrace => cases hA.head
      | _ => exact hnone fun _ _ => rfl
  | _ => exact hnone fun _ _ => rfl

theorem operators_cons (h : ∀ A', A' <:+ A → Closed A') (hA : Plain (t :: A)) (p : Precedence) (left : Expr) :
    Within false (Parse.operators · p left) (t :: A) := by
  by_cases hp : p < t.precedence
  · obtain ⟨operator, hoperator⟩ := operators_plain left hA.head hp
    have hright := ((h A List.suffix_rfl).expression t.precedence).bind fun right A' hA' =>
      (h A' hA').operators p (.binary left operator right)
    exact hright.cons hoperator
  · apply Within.yields left (t :: A) List.suffix_rfl
    exact fun n B hn => operators_stop (Nat.le_of_not_lt hp)

end Closed

/-- **Expressions** between plain tokens do not look behind the semicolon. -/
theorem closed (hA : Plain A) : Closed A := by
  -- an operand leaves an end of the tokens behind it, from which the operators go on
  induction hlength : A.length using Nat.strongRecOn generalizing A with
  | ind length ih =>
      cases A with
      | nil => exact .nil
      | cons t A =>
          have h : ∀ A', A' <:+ A → Closed A' := by
            intro A' hsuffix
            apply ih A'.length _ (hA.tail.suffix hsuffix) rfl
            rw [← hlength]
            exact Nat.lt_succ_of_le hsuffix.length_le
          exact ⟨Closed.expression_cons h hA, Closed.operators_cons h hA⟩

/-! ## Statements

Unlike an expression, a statement may take the semicolon, as the last of its parsers does. -/

/-- An expression with the semicolon behind it. -/
theorem within_value (f : Expr → Stmt) (hA : Plain A) :
    Within true (fun n => do
      let value ← expression n .lowest
      skipSemicolon
      return f value) A := by
  apply ((closed hA).expression .lowest).bind
  intro value A' hsuffix
  cases A' with
  | nil => exact .takes (f value) rfl fun n B _ => skipSemicolon_bind _ _
  | cons t A' =>
      -- `t` belongs to the next statement, since semicolons may be left out
      apply Within.yields (f value) (t :: A') List.suffix_rfl
      intro n B _
      apply (skipSemicolon_bind _ _).trans
      rw [dropSemicolon_of_ne]
      · rfl
      · exact Token.ne_of_isPlain (hA.suffix hsuffix).head rfl

section

variable {n : Nat} {tokens : List Token}

theorem statement_let_of_ne (ht : ∀ name, t ≠ .identifier name) :
    statement (expression n) (.keyword .let :: t :: tokens) = .error (.expectedName t) tokens := by
  cases t with
  | identifier name => exact absurd rfl (ht name)
  | _ => rfl

theorem statement_return_value (h : (nextToken tokens).isPlain = true) :
    statement (expression n) (.keyword .return :: tokens) =
      (do
        let value ← expression n .lowest
        skipSemicolon
        return Stmt.return (some value)) tokens := by
  have hnext : ¬ EndsReturn (nextToken tokens) := by
    rintro (hend | hend | hend)
    all_goals exact Token.ne_of_isPlain h rfl hend
  rw [statement, peek_bind, nextToken_cons]
  exact (discard_read_bind _ _ _).trans ((peek_bind _ _).trans (congrFun (if_neg hnext) tokens))

theorem statement_value (hlet : t ≠ .keyword .let) (hreturn : t ≠ .keyword .return) :
    statement (expression n) (t :: tokens) =
      (do
        let value ← expression n .lowest
        skipSemicolon
        return Stmt.expr value) (t :: tokens) := by
  rw [statement, peek_bind, nextToken_cons]
  split
  · exact absurd rfl hlet
  · exact absurd rfl hreturn
  · rfl

end

/-- A `let` does not look behind the semicolon. -/
theorem within_let (hA : Plain A) :
    Within true (fun n tokens => statement (expression n) (.keyword .let :: tokens)) A := by
  cases A with
  | nil => exact .cut (.expectedName (.mark .semicolon)) rfl fun n B _ => rfl
  | cons t A =>
      by_cases ht : ∃ name, t = .identifier name
      · obtain ⟨name, rfl⟩ := ht
        have hvalue : Within true (fun n => do
            expect .assign
            let value ← expression n .lowest
            skipSemicolon
            return Stmt.let name (value.named name)) A := by
          apply within_expect Mark.noConfusion hA.tail
          exact fun A' hsuffix => within_value _ (hA.tail.suffix hsuffix)
        exact hvalue.succ.cons fun _ _ => rfl
      · apply Within.of_error (e := .expectedName t) hA.head
        exact fun n tokens => statement_let_of_ne (not_exists.mp ht)

theorem within_return (hA : Plain A) :
    Within true (fun n tokens => statement (expression n) (.keyword .return :: tokens)) A := by
  cases A with
  | nil =>
      -- `return;` is the only statement that ends at a semicolon without an expression
      exact .takes (.return none) rfl fun n B _ => rfl
  | cons t A =>
      apply (within_value (.return ∘ some) hA).congr
      exact fun n B => statement_return_value hA.head

/-- **Statements**: what becomes of plain tokens in front of a semicolon does not depend on what stands
behind. -/
theorem within_statement (hA : Plain A) : Within true (fun n => statement (expression n)) A := by
  cases A with
  | nil =>
      apply Within.cut (.notAnExpression (.mark .semicolon)) rfl
      intro n B hn
      obtain ⟨n, rfl⟩ := Nat.exists_eq_succ_of_ne_zero (Nat.ne_zero_of_lt hn)
      rfl
  | cons t A =>
      by_cases hlet : t = .keyword .let
      · subst hlet
        exact (within_let hA.tail).succ.cons fun _ _ => rfl
      · by_cases hreturn : t = .keyword .return
        · subst hreturn
          exact (within_return hA.tail).succ.cons fun _ _ => rfl
        · apply (within_value .expr hA).congr
          exact fun n B => statement_value hlet hreturn

/-! ## What the parser goes on with

An error in front of the semicolon is followed by skipping up to it. An error at the semicolon is found after
it was taken, so that skipping goes up to the next one: that is the only way in which a malformed statement
hides others. -/

/-- What the parser goes on with behind a semicolon, after the errors that it has found up to there. -/
def resume (errors : List ParseError) (rest : List Token) : List Token :=
  if errors.any (·.found = .mark .semicolon) then synchronize rest else rest

theorem resume_singleton (e : ParseError) (rest : List Token) :
    resume [e] rest = if e.found = .mark .semicolon then synchronize rest else rest := by
  simp [resume]

/-- Skipping plain tokens ends behind the semicolon. -/
theorem synchronize_append (hA : Plain A) (B : List Token) : synchronize (A ++ .mark .semicolon :: B) = B := by
  induction A with
  | nil => rfl
  | cons t A ih =>
      have hstop : ¬ (t = .mark .semicolon ∨ t = .endOfFile) :=
        not_or.mpr ⟨Token.ne_of_isPlain hA.head rfl, Token.ne_of_isPlain hA.head rfl⟩
      rw [List.cons_append, synchronize, if_neg hstop]
      exact ih hA.tail

end Parse

open Parse

namespace Program

variable {A : List Token}

theorem nextToken_append_ne (hA : Plain A) (B : List Token) :
    nextToken (A ++ .mark .semicolon :: B) ≠ .endOfFile := by
  cases A with
  | nil => exact Token.noConfusion
  | cons t A => exact Token.ne_of_isPlain hA.head rfl

/-- The tokens in front of a semicolon are read to statements and at most one error. -/
theorem read_resume (hA : Plain A) : ∃ statements errors, errors.length ≤ 1 ∧
    ∀ B, read (A ++ .mark .semicolon :: B) =
      ⟨statements ++ (read (resume errors B)).statements, errors ++ (read (resume errors B)).errors,
        (read (resume errors B)).left⟩ := by
  -- each statement leaves fewer tokens in front of the semicolon
  induction hlength : A.length using Nat.strongRecOn generalizing A with
  | ind length ih =>
      have hbound : ∀ B : List Token, A.length < (A ++ .mark .semicolon :: B).length := by simp
      cases within_statement hA with
      | yields s A' hsuffix h =>
          have hlt : A'.length < length := by
            have hdrops := (statement_drops (expression_drops A.length)).length_le (A ++ [.mark .semicolon])
            rw [h (A.length + 1) [] (Nat.lt_succ_self _)] at hdrops
            simp only [left, List.length_append, List.length_cons, List.length_nil] at hdrops
            omega
          obtain ⟨statements, errors, hone, hread⟩ := ih A'.length hlt (hA.suffix hsuffix) rfl
          refine ⟨s :: statements, errors, hone, fun B => ?_⟩
          rw [read_of_ok (nextToken_append_ne hA B) (h _ B (hbound B)), hread B]
          rfl
      | takes s _ h =>
          refine ⟨[s], [], Nat.zero_le 1, fun B => ?_⟩
          exact read_of_ok (nextToken_append_ne hA B) (h _ B (hbound B))
      | fails e A' hsuffix he h =>
          refine ⟨[], [e], Nat.le_refl 1, fun B => ?_⟩
          rw [read_of_error (nextToken_append_ne hA B) (h _ B (hbound B)), resume_singleton, if_neg he,
            synchronize_append (hA.suffix hsuffix)]
          rfl
      | cut e he h =>
          refine ⟨[], [e], Nat.le_refl 1, fun B => ?_⟩
          rw [read_of_error (nextToken_append_ne hA B) (h _ B (hbound B)), resume_singleton, if_pos he]
          rfl

/-- The errors in front of the semicolon alone. -/
theorem errors_read_semicolon {statements : List Stmt} {errors : List ParseError}
    (h : ∀ B, read (A ++ .mark .semicolon :: B) =
      ⟨statements ++ (read (resume errors B)).statements, errors ++ (read (resume errors B)).errors,
        (read (resume errors B)).left⟩) : (read (A ++ [.mark .semicolon])).errors = errors := by
  have hnil : resume errors [] = [] := ite_self _
  rw [h [], hnil]
  exact List.append_nil errors

/-- A malformed statement costs one error. -/
theorem length_errors_le (hA : Plain A) : (read (A ++ [.mark .semicolon])).errors.length ≤ 1 := by
  obtain ⟨statements, errors, hone, hread⟩ := read_resume hA
  rwa [errors_read_semicolon hread]

/-- **Resumption**: behind a semicolon the errors of the other statements follow. Only if an error is found at
this semicolon, the tokens up to the next one are lost. -/
theorem errors_resume (hA : Plain A) (B : List Token) :
    (read (A ++ .mark .semicolon :: B)).errors = (read (A ++ [.mark .semicolon])).errors ++
      (read (resume (read (A ++ [.mark .semicolon])).errors B)).errors := by
  obtain ⟨statements, errors, -, hread⟩ := read_resume hA
  rw [errors_read_semicolon hread, hread B]

/-- In `let x; @` the error is found at the semicolon, and `@` is lost. -/
example : (read [.keyword .let, .identifier "x", .mark .semicolon, .illegal "@"]).errors =
    [.expected (.mark .assign) (.mark .semicolon)] := rfl

end Program

end ScriptLang
