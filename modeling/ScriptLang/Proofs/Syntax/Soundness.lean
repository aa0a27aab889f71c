import ScriptLang.Proofs.Syntax.Parser
import ScriptLang.Proofs.Syntax.Reading

/-!
# The parser reads what the grammar says

Whatever a parser yields, the tokens that it has read spell it. `Sound n` says so of the parsers with the
bound `n`, one field for each of them; `sound` puts the fields together by induction on the bound. Between
two operators the loop of `Parse.operators` keeps this invariant: what stands to the left has a level, and
the next token does not bind tighter than it.

Main statement: `Program.spells_of_read`.
-/

namespace ScriptLang

/-! ## Levels -/

/-- The level of what is read by operators that bind tighter than `p`. An operator in front of its operand
can always be read. -/
def Precedence.above (p : Precedence) : Nat := min (p.rank + 1) Precedence.unary.rank

/-- How tightly the next token binds what stands to its left. -/
def nextRank (tokens : List Token) : Nat := (nextToken tokens).precedence.rank

theorem Precedence.rank_le (p : Precedence) : p.rank ≤ Precedence.index.rank := by
  cases p <;> decide

theorem Operator.above_precedence {operator : Operator} (h : operator.isBinary = true) :
    operator.precedence.above = operator.precedence.rank + 1 :=
  Nat.min_eq_left (Operator.precedence_bounds h).2

theorem Precedence.eq_lowest_of_rank_le {p : Precedence} (h : p.rank ≤ Precedence.lowest.rank) :
    p = .lowest := by
  cases p <;> first | rfl | exact absurd h (by decide)

namespace Parse

/-- Whether a `return` without a value may stand in front of a token. -/
def EndsReturn (t : Token) : Prop := t = .mark .semicolon ∨ t = .mark .rightBrace ∨ t = .endOfFile

theorem EndsReturn.not_startsStmt {t : Token} (h : EndsReturn t) : t.startsStmt = false := by
  rcases h with rfl | rfl | rfl <;> rfl

/-- Statements in front of which another one may stand. -/
theorem stmts_cons_of_follow {s : Stmt} {ss : List Stmt} {ts us mid tail : List Token}
    (hs : Spells (.stmt s) ts) (hss : Spells (.stmts ss) us) (hmid : dropSemicolon mid = us ++ tail)
    (hnext : (nextToken mid).precedence = .lowest) (hreturn : s = .return none → EndsReturn (nextToken mid)) :
    ∃ vs, mid = vs ++ tail ∧ Spells (.stmts (s :: ss)) (ts ++ vs) := by
  by_cases hsemicolon : nextToken mid = .mark .semicolon
  · obtain ⟨rest, rfl⟩ := eq_cons_of_nextToken hsemicolon Token.noConfusion
    exact ⟨.mark .semicolon :: us, congrArg _ hmid, .stmts_semicolon hs hss⟩
  · rw [dropSemicolon_of_ne hsemicolon] at hmid
    subst hmid
    refine ⟨us, rfl, .stmts_cons ?_ ?_ hs hss⟩
    · intro heq
      have hend := (hreturn heq).not_startsStmt
      cases us with
      | nil => rfl
      | cons t us =>
          rw [List.cons_append, nextToken_cons, hss.stmts_starts t rfl] at hend
          cases hend
    · intro t ht
      cases us with
      | nil => cases ht
      | cons t' us =>
          cases ht
          exact hnext

/-! ## What the parsers with a bound read -/

/-- Whatever the parsers with a certain bound yield, the tokens that they have read spell it. The bound has
to be at least the number of tokens. -/
structure Sound (n : Nat) : Prop where
  expression : ∀ {p : Precedence} {tokens rest : List Token} {e : Expr}, tokens.length ≤ n →
    Parse.expression n p tokens = .ok e rest →
    ∃ ts, tokens = ts ++ rest ∧ Spells (.expr p.above e) ts ∧ nextRank rest ≤ p.rank
  operators : ∀ {p : Precedence} {level : Nat} {left e : Expr} {us tokens rest : List Token},
    tokens.length ≤ n → Spells (.expr level left) us → p.above ≤ level → nextRank tokens ≤ level →
    Parse.operators n p left tokens = .ok e rest →
    ∃ ts, tokens = ts ++ rest ∧ Spells (.expr p.above e) (us ++ ts) ∧ nextRank rest ≤ p.rank
  elements : ∀ {close : Mark} {acc es : List Expr} {tokens rest : List Token}, tokens.length ≤ n →
    Parse.elements n close acc tokens = .ok es rest →
    ∃ items ts, es = acc.reverse ++ items ∧ tokens = ts ++ .mark close :: rest ∧
      Spells (.items items) ts ∧ (acc ≠ [] → items ≠ [])
  pairs : ∀ {acc ps : List (Expr × Expr)} {tokens rest : List Token}, tokens.length ≤ n →
    Parse.pairs n acc tokens = .ok ps rest →
    ∃ more ts, ps = acc.reverse ++ more ∧ tokens = ts ++ .mark .rightBrace :: rest ∧
      Spells (.pairs more) ts
  block : ∀ {ss : List Stmt} {tokens rest : List Token}, tokens.length ≤ n →
    Parse.block n tokens = .ok ss rest →
    ∃ ts, tokens = enclosed .leftBrace ts .rightBrace ++ rest ∧ Spells (.stmts ss) ts
  statements : ∀ {acc ss : List Stmt} {tokens rest : List Token}, tokens.length ≤ n →
    Parse.statements n acc tokens = .ok ss rest →
    ∃ more ts, ss = acc.reverse ++ more ∧ tokens = ts ++ .mark .rightBrace :: rest ∧
      Spells (.stmts more) ts

/-- At the bottom nothing is read but an expression that is there already. -/
theorem sound_zero : Sound 0 where
  expression := nofun
  operators := by
    intro p level left e us tokens rest hlength hleft hlevel _ h
    obtain rfl := List.eq_nil_of_length_eq_zero (Nat.le_zero.mp hlength)
    cases h
    exact ⟨[], rfl, by simpa using hleft.mono hlevel, Nat.zero_le _⟩
  elements := nofun
  pairs := nofun
  block := nofun
  statements := nofun

/-! ### Operands -/

/-- Tokens spell an operand, which goes on behind them only with what it may be the left side of. -/
def SpellsOperand (e : Expr) (ts rest : List Token) : Prop :=
  ∃ level, Spells (.expr level e) ts ∧ Precedence.unary.rank ≤ level ∧ nextRank rest ≤ level

/-- An expression without an operator outside of brackets. -/
theorem SpellsOperand.of_closed {e : Expr} {ts : List Token}
    (h : Spells (.expr Precedence.index.rank e) ts) (rest : List Token) : SpellsOperand e ts rest :=
  ⟨_, h, by decide, Precedence.rank_le _⟩

/-- What is read where any operator may stand outside of brackets. -/
theorem lowest_of_whole {tokens rest : List Token} {e : Expr}
    (h : ∃ ts, tokens = ts ++ rest ∧ Spells (.expr Precedence.lowest.above e) ts ∧
      nextRank rest ≤ Precedence.lowest.rank) :
    ∃ ts, tokens = ts ++ rest ∧ Spells (.expr 0 e) ts ∧ (nextToken rest).precedence = .lowest := by
  obtain ⟨ts, rfl, hts, hnext⟩ := h
  exact ⟨ts, rfl, hts.mono (Nat.zero_le _), Precedence.eq_lowest_of_rank_le hnext⟩

namespace Sound

variable {n : Nat} {tokens rest : List Token} {e : Expr}

/-- An expression that may have any operator outside of brackets. -/
theorem lowest (h : Sound n) (hlength : tokens.length ≤ n)
    (hparse : Parse.expression n .lowest tokens = .ok e rest) :
    ∃ ts, tokens = ts ++ rest ∧ Spells (.expr 0 e) ts ∧ (nextToken rest).precedence = .lowest :=
  lowest_of_whole (h.expression hlength hparse)

theorem operand_if (h : Sound n) (hlength : tokens.length ≤ n) (hparse : (do
      expect .leftParen
      let condition ← Parse.expression n .lowest
      expect .rightParen
      let consequence ← Parse.block n
      if (← peek) = .keyword .else then
        discard read
        return Expr.if condition consequence (some (← Parse.block n))
      else
        return Expr.if condition consequence none : Parse Expr) tokens = .ok e rest) :
    ∃ ts, .keyword .if :: tokens = ts ++ rest ∧ SpellsOperand e ts rest := by
  rw [bind_eq_ok] at hparse
  obtain ⟨⟨⟩, t₁, hopen, hparse⟩ := hparse
  obtain rfl := expect_eq_ok hopen
  rw [bind_eq_ok] at hparse
  obtain ⟨condition, t₂, hcondition, hparse⟩ := hparse
  obtain ⟨ts, rfl, hts, -⟩ := h.lowest (by grind) hcondition
  rw [bind_eq_ok] at hparse
  obtain ⟨⟨⟩, t₃, hclose, hparse⟩ := hparse
  obtain rfl := expect_eq_ok hclose
  rw [bind_eq_ok] at hparse
  obtain ⟨consequence, t₄, hconsequence, hparse⟩ := hparse
  obtain ⟨us, rfl, hus⟩ := h.block (by grind) hconsequence
  rw [peek_bind] at hparse
  split at hparse
  · next hnext =>
      rw [bind_eq_ok] at hparse
      obtain ⟨⟨⟩, t₅, hread, hparse⟩ := hparse
      obtain rfl := discard_read_eq_ok hread hnext Token.noConfusion
      rw [bind_eq_ok] at hparse
      obtain ⟨alternative, t₆, halternative, hparse⟩ := hparse
      obtain ⟨vs, rfl, hvs⟩ := h.block (by grind) halternative
      cases hparse
      exact ⟨_, by simp [enclosed], .of_closed (.if_else hts hus hvs) _⟩
  · cases hparse
    exact ⟨_, by simp [enclosed], .of_closed (.if_then hts hus) _⟩

/-- An operator in front of its operand. -/
theorem operand_unary (h : Sound n) (operator : Operator) (hlength : tokens.length ≤ n)
    (hoperator : operator.isUnary = true) (hparse : (do
      return Expr.unary operator (← Parse.expression n .unary) : Parse Expr) tokens = .ok e rest) :
    ∃ ts, .mark operator.mark :: tokens = ts ++ rest ∧ SpellsOperand e ts rest := by
  rw [bind_eq_ok] at hparse
  obtain ⟨operand, mid, hoperand, hparse⟩ := hparse
  obtain ⟨ts, rfl, hts, hnext⟩ := h.expression hlength hoperand
  cases hparse
  exact ⟨_, rfl, _, .unary hoperator (Nat.le_refl _) hts, Nat.le_refl _, hnext⟩

theorem operand (h : Sound n) (hlength : tokens.length ≤ n + 1)
    (hparse : Parse.operand (Parse.expression n) (Parse.block n) (Parse.elements n · []) (Parse.pairs n [])
      tokens = .ok e rest) : ∃ ts, tokens = ts ++ rest ∧ SpellsOperand e ts rest := by
  unfold Parse.operand at hparse
  rw [bind_eq_ok] at hparse
  obtain ⟨t, mid, hread, hparse⟩ := hparse
  obtain ⟨-, htokens⟩ := read_eq_ok hread
  have hbound : t ≠ .endOfFile → mid.length ≤ n := by
    intro ht
    rw [htokens ht] at hlength
    exact Nat.le_of_succ_le_succ hlength
  cases t with
  | identifier name =>
      cases hparse
      exact ⟨_, htokens Token.noConfusion, .of_closed .identifier _⟩
  | integer value =>
      cases hparse
      exact ⟨_, htokens Token.noConfusion, .of_closed .integer _⟩
  | string contents =>
      cases hparse
      exact ⟨_, htokens Token.noConfusion, .of_closed .string _⟩
  | keyword word =>
      obtain rfl := htokens Token.noConfusion
      have hmid := hbound Token.noConfusion
      cases word with
      | true =>
          cases hparse
          exact ⟨_, rfl, .of_closed (@Spells.boolean _ true) _⟩
      | false =>
          cases hparse
          exact ⟨_, rfl, .of_closed (@Spells.boolean _ false) _⟩
      | «if» => exact h.operand_if hmid hparse
      | fn =>
          rw [bind_eq_ok] at hparse
          obtain ⟨names, mid₁, hnames, hparse⟩ := hparse
          obtain rfl := parameterList_eq_ok hnames
          rw [bind_eq_ok] at hparse
          obtain ⟨body, mid₂, hbody, hparse⟩ := hparse
          obtain ⟨ts, rfl, hts⟩ := h.block (by grind) hbody
          cases hparse
          exact ⟨_, by simp, .of_closed (.function hts) _⟩
      | _ => exact absurd hparse not_throw_eq_ok
  | mark m =>
      obtain rfl := htokens Token.noConfusion
      have hmid := hbound Token.noConfusion
      cases m with
      | bang => exact h.operand_unary .bang hmid rfl hparse
      | minus => exact h.operand_unary .minus hmid rfl hparse
      | leftParen =>
          rw [bind_eq_ok] at hparse
          obtain ⟨inner, mid₁, hinner, hparse⟩ := hparse
          obtain ⟨ts, rfl, hts, -⟩ := h.lowest hmid hinner
          rw [bind_eq_ok] at hparse
          obtain ⟨⟨⟩, mid₂, hclose, hparse⟩ := hparse
          obtain rfl := expect_eq_ok hclose
          cases hparse
          exact ⟨_, by simp [enclosed], .of_closed (.parens hts) _⟩
      | leftBracket =>
          rw [bind_eq_ok] at hparse
          obtain ⟨es, mid₁, helements, hparse⟩ := hparse
          obtain ⟨items, ts, rfl, rfl, hts, -⟩ := h.elements hmid helements
          cases hparse
          exact ⟨_, by simp [enclosed], .of_closed (.array hts) _⟩
      | leftBrace =>
          rw [bind_eq_ok] at hparse
          obtain ⟨ps, mid₁, hpairs, hparse⟩ := hparse
          obtain ⟨more, ts, rfl, rfl, hts⟩ := h.pairs hmid hpairs
          cases hparse
          exact ⟨_, by simp [enclosed], .of_closed (.hash hts) _⟩
      | _ => exact absurd hparse not_throw_eq_ok
  | _ => exact absurd hparse not_throw_eq_ok

/-- An operand with the operators behind it that bind tighter than `p`. -/
theorem whole (h : Sound n) {p : Precedence} (hlength : tokens.length ≤ n + 1) (hparse : (do
      let left ← Parse.operand (Parse.expression n) (Parse.block n) (Parse.elements n · [])
        (Parse.pairs n [])
      Parse.operators n p left : Parse Expr) tokens = .ok e rest) :
    ∃ ts, tokens = ts ++ rest ∧ Spells (.expr p.above e) ts ∧ nextRank rest ≤ p.rank := by
  rw [bind_eq_ok] at hparse
  obtain ⟨left, mid, hleft, hparse⟩ := hparse
  obtain ⟨ts, rfl, level, hts, hunary, hnext⟩ := h.operand hlength hleft
  have hlevel : p.above ≤ level := Nat.le_trans (Nat.min_le_right _ _) hunary
  obtain ⟨t, ts', rfl, -⟩ := hts.expr_starts
  obtain ⟨us, rfl, hus, hrest⟩ := h.operators (by grind) hts hlevel hnext hparse
  exact ⟨_, (List.append_assoc _ _ _).symm, hus, hrest⟩

/-! ### Lists, blocks and statements -/

variable {p : Precedence}

/-- Operators behind an expression were spelled, with their operands. -/
theorem operators_succ (h : Sound n) {level : Nat} {left : Expr} {us : List Token}
    (hlength : tokens.length ≤ n + 1) (hleft : Spells (.expr level left) us) (hlevel : p.above ≤ level)
    (hnext : nextRank tokens ≤ level) (hparse : Parse.operators (n + 1) p left tokens = .ok e rest) :
    ∃ ts, tokens = ts ++ rest ∧ Spells (.expr p.above e) (us ++ ts) ∧ nextRank rest ≤ p.rank := by
  have hdone : ¬ p < (nextToken tokens).precedence → nextRank tokens ≤ p.rank := Nat.le_of_not_lt
  have habove : p.above ≤ Precedence.index.rank := Nat.le_trans (Nat.min_le_right _ _) (by decide)
  unfold Parse.operators at hparse
  rw [peek_bind] at hparse
  rw [nextRank] at hnext
  generalize ht : nextToken tokens = t at hparse hdone hnext
  split at hparse
  · next hbinds =>
      split at hparse
      · -- a call of what stands to the left
        obtain ⟨mid, rfl⟩ := eq_cons_of_nextToken ht Token.noConfusion
        rw [discard_read_bind, bind_eq_ok] at hparse
        obtain ⟨arguments, mid₁, harguments, hparse⟩ := hparse
        obtain ⟨items, vs, rfl, rfl, hvs, -⟩ := h.elements (Nat.le_of_succ_le_succ hlength) harguments
        have hcall : Spells (.expr Precedence.index.rank (.call left arguments)) _ :=
          .call (hleft.mono hnext) hvs
        obtain ⟨ws, rfl, hws, hrest⟩ := h.operators (by grind) hcall habove (Precedence.rank_le _) hparse
        exact ⟨enclosed .leftParen vs .rightParen ++ ws, by simp [enclosed], by simpa using hws, hrest⟩
      · -- an element of what stands to the left
        obtain ⟨mid, rfl⟩ := eq_cons_of_nextToken ht Token.noConfusion
        rw [discard_read_bind, bind_eq_ok] at hparse
        obtain ⟨key, mid₁, hkey, hparse⟩ := hparse
        obtain ⟨vs, rfl, hvs, -⟩ := h.lowest (Nat.le_of_succ_le_succ hlength) hkey
        rw [bind_eq_ok] at hparse
        obtain ⟨⟨⟩, mid₂, hclose, hparse⟩ := hparse
        obtain rfl := expect_eq_ok hclose
        have hindex : Spells (.expr Precedence.index.rank (.index left key)) _ :=
          .index (hleft.mono hnext) hvs
        obtain ⟨ws, rfl, hws, hrest⟩ := h.operators (by grind) hindex habove (Precedence.rank_le _) hparse
        exact ⟨enclosed .leftBracket vs .rightBracket ++ ws, by simp [enclosed], by simpa using hws, hrest⟩
      · next hparen hbracket =>
        cases hoperator : t.binaryOperator? with
        | some operator =>
            obtain ⟨hbinary, rfl⟩ := Token.binaryOperator?_eq_some hoperator
            obtain ⟨mid, rfl⟩ := eq_cons_of_nextToken ht Token.noConfusion
            simp only [hoperator] at hparse
            rw [discard_read_bind, bind_eq_ok] at hparse
            obtain ⟨right, mid₁, hright, hparse⟩ := hparse
            obtain ⟨vs, rfl, hvs, hfollow⟩ := h.expression (Nat.le_of_succ_le_succ hlength) hright
            rw [show (Token.mark operator.mark).precedence = operator.precedence from rfl] at hfollow hbinds
            rw [show (Token.mark operator.mark).precedence.above = operator.precedence.rank + 1 from
              Operator.above_precedence hbinary] at hvs
            have hoperation := Spells.binary hbinary (Nat.le_refl _) (hleft.mono hnext) hvs
            have habove : p.above ≤ operator.precedence.rank :=
              Nat.le_trans (Nat.min_le_left _ _) hbinds
            obtain ⟨ws, rfl, hws, hrest⟩ := h.operators (by grind) hoperation habove hfollow hparse
            exact ⟨.mark operator.mark :: (vs ++ ws), by simp, by simpa using hws, hrest⟩
        | none =>
            rw [Token.precedence_of_binaryOperator?_none hoperator hparen hbracket] at hbinds
            exact absurd hbinds (Nat.not_lt_zero _)
  · next hbinds =>
      cases hparse
      exact ⟨[], rfl, by simpa using hleft.mono hlevel, hdone hbinds⟩

/-- Elements were spelled, with commas between them. -/
theorem elements_succ (h : Sound n) {close : Mark} {acc es : List Expr} (hlength : tokens.length ≤ n + 1)
    (hparse : Parse.elements (n + 1) close acc tokens = .ok es rest) :
    ∃ items ts, es = acc.reverse ++ items ∧ tokens = ts ++ .mark close :: rest ∧
      Spells (.items items) ts ∧ (acc ≠ [] → items ≠ []) := by
  unfold Parse.elements at hparse
  rw [peek_bind] at hparse
  split at hparse
  · next hclose =>
      obtain ⟨hacc, hclose⟩ := hclose
      obtain ⟨mid, rfl⟩ := eq_cons_of_nextToken hclose Token.noConfusion
      cases hparse
      obtain rfl := List.isEmpty_iff.mp hacc
      exact ⟨[], [], rfl, rfl, .items_nil, fun hne => absurd rfl hne⟩
  · rw [← bind_assoc, bind_eq_ok] at hparse
    obtain ⟨element, mid, helement, hparse⟩ := hparse
    obtain ⟨ts, rfl, hts, -⟩ := h.whole hlength helement
    have hts := hts.mono (Nat.zero_le _)
    obtain ⟨t, ts', rfl, -⟩ := hts.expr_starts
    rw [bind_eq_ok] at hparse
    obtain ⟨next, mid', hread, hparse⟩ := hparse
    obtain ⟨-, hmid⟩ := read_eq_ok hread
    split at hparse
    · next hcomma =>
        subst hcomma
        obtain rfl := hmid Token.noConfusion
        obtain ⟨items, us, rfl, rfl, hus, hitems⟩ := h.elements (by grind) hparse
        refine ⟨element :: items, _, by simp, ?_, .items_cons (hitems (List.cons_ne_nil _ _)) hts hus,
          fun _ => List.cons_ne_nil _ _⟩
        simp
    · split at hparse
      · next hclose =>
          subst hclose
          obtain rfl := hmid Token.noConfusion
          cases hparse
          exact ⟨[element], _, List.reverse_cons, rfl, .items_one hts, fun _ => List.cons_ne_nil _ _⟩
      · exact absurd hparse not_throw_eq_ok

theorem pairs_succ (h : Sound n) {acc ps : List (Expr × Expr)} (hlength : tokens.length ≤ n + 1)
    (hparse : Parse.pairs (n + 1) acc tokens = .ok ps rest) :
    ∃ more ts, ps = acc.reverse ++ more ∧ tokens = ts ++ .mark .rightBrace :: rest ∧
      Spells (.pairs more) ts := by
  unfold Parse.pairs at hparse
  rw [peek_bind] at hparse
  split at hparse
  · next hclose =>
      obtain ⟨mid, rfl⟩ := eq_cons_of_nextToken hclose Token.noConfusion
      cases hparse
      exact ⟨[], [], (List.append_nil _).symm, rfl, .pairs_nil⟩
  · rw [← bind_assoc, bind_eq_ok] at hparse
    obtain ⟨key, mid₁, hkey, hparse⟩ := hparse
    obtain ⟨ts, rfl, hts, -⟩ := h.whole hlength hkey
    have hts := hts.mono (Nat.zero_le _)
    rw [bind_eq_ok] at hparse
    obtain ⟨⟨⟩, mid₂, hcolon, hparse⟩ := hparse
    obtain rfl := expect_eq_ok hcolon
    rw [bind_eq_ok] at hparse
    obtain ⟨value, mid₃, hvalue, hparse⟩ := hparse
    obtain ⟨us, rfl, hus, -⟩ := h.lowest (by grind) hvalue
    rw [peek_bind] at hparse
    split at hparse
    · next hclose =>
        obtain ⟨mid₄, rfl⟩ := eq_cons_of_nextToken hclose Token.noConfusion
        obtain ⟨more, vs, rfl, hvs, hmore⟩ := h.pairs (by grind) hparse
        obtain ⟨rfl, rfl⟩ := hmore.pairs_eq_nil hvs.symm
        cases hvs
        exact ⟨[(key, value)], _, by simp, by simp, .pairs_one hts hus⟩
    · rw [bind_eq_ok] at hparse
      obtain ⟨⟨⟩, mid₄, hcomma, hparse⟩ := hparse
      obtain rfl := expect_eq_ok hcomma
      obtain ⟨more, vs, rfl, rfl, hmore⟩ := h.pairs (by grind) hparse
      exact ⟨(key, value) :: more, _, by simp, by simp, .pairs_cons hts hus hmore⟩

end Sound

/-! ### Statements -/

/-- A statement that is read, and the tokens in which the semicolon behind it was looked for. -/
theorem statement_spells {n : Nat} {expression : Precedence → Parse Expr}
    (hexpression : ∀ {tokens rest : List Token} {e : Expr}, tokens.length ≤ n →
      expression .lowest tokens = .ok e rest →
      ∃ ts, tokens = ts ++ rest ∧ Spells (.expr 0 e) ts ∧ (nextToken rest).precedence = .lowest)
    {tokens rest : List Token} {s : Stmt} (hlength : tokens.length ≤ n)
    (hparse : Parse.statement expression tokens = .ok s rest) :
    ∃ ts mid, tokens = ts ++ mid ∧ rest = dropSemicolon mid ∧ Spells (.stmt s) ts ∧
      (nextToken mid).precedence = .lowest ∧ (s = .return none → EndsReturn (nextToken mid)) := by
  unfold Parse.statement at hparse
  rw [peek_bind] at hparse
  generalize ht : nextToken tokens = t at hparse
  split at hparse
  · obtain ⟨mid, rfl⟩ := eq_cons_of_nextToken ht Token.noConfusion
    rw [discard_read_bind, bind_eq_ok] at hparse
    obtain ⟨found, mid₁, hread, hparse⟩ := hparse
    obtain ⟨-, hname⟩ := read_eq_ok hread
    dsimp only at hparse
    split at hparse
    · next name =>
        obtain rfl := hname Token.noConfusion
        rw [pure_bind, bind_eq_ok] at hparse
        obtain ⟨⟨⟩, mid₂, hassign, hparse⟩ := hparse
        obtain rfl := expect_eq_ok hassign
        rw [bind_eq_ok] at hparse
        obtain ⟨value, mid₃, hvalue, hparse⟩ := hparse
        obtain ⟨ts, rfl, hts, hnext⟩ := hexpression (by grind) hvalue
        rw [skipSemicolon_bind] at hparse
        cases hparse
        exact ⟨_, _, rfl, rfl, .let hts, hnext, Stmt.noConfusion⟩
    · rw [bind_eq_ok] at hparse
      obtain ⟨_, _, hthrow, -⟩ := hparse
      exact absurd hthrow not_throw_eq_ok
  · obtain ⟨mid, rfl⟩ := eq_cons_of_nextToken ht Token.noConfusion
    rw [discard_read_bind, peek_bind] at hparse
    split at hparse
    · next hend =>
        rw [skipSemicolon_bind] at hparse
        cases hparse
        refine ⟨[_], mid, rfl, rfl, .return_none, ?_, fun _ => hend⟩
        rcases hend with hend | hend | hend <;> rw [hend] <;> rfl
    · rw [bind_eq_ok] at hparse
      obtain ⟨value, mid₁, hvalue, hparse⟩ := hparse
      obtain ⟨ts, rfl, hts, hnext⟩ := hexpression (by grind) hvalue
      rw [skipSemicolon_bind] at hparse
      cases hparse
      exact ⟨_, _, rfl, rfl, .return_some hts, hnext, by simp⟩
  · rw [bind_eq_ok] at hparse
    obtain ⟨value, mid, hvalue, hparse⟩ := hparse
    obtain ⟨ts, rfl, hts, hnext⟩ := hexpression hlength hvalue
    rw [skipSemicolon_bind] at hparse
    cases hparse
    exact ⟨_, _, rfl, rfl, .expr hts, hnext, Stmt.noConfusion⟩

theorem Sound.statements_succ {n : Nat} (h : Sound n) {acc ss : List Stmt} {tokens rest : List Token}
    (hlength : tokens.length ≤ n + 1) (hparse : Parse.statements (n + 1) acc tokens = .ok ss rest) :
    ∃ more ts, ss = acc.reverse ++ more ∧ tokens = ts ++ .mark .rightBrace :: rest ∧
      Spells (.stmts more) ts := by
  unfold Parse.statements at hparse
  rw [peek_bind] at hparse
  generalize ht : nextToken tokens = t at hparse
  split at hparse
  · obtain ⟨mid, rfl⟩ := eq_cons_of_nextToken ht Token.noConfusion
    cases hparse
    exact ⟨[], [], (List.append_nil _).symm, rfl, .stmts_nil⟩
  · exact absurd hparse not_throw_eq_ok
  · rw [bind_eq_ok] at hparse
    obtain ⟨s, mid, hs, hparse⟩ := hparse
    obtain ⟨ts, mid₁, rfl, rfl, hts, hnext, hreturn⟩ := statement_spells
      (fun hlength hparse => lowest_of_whole (h.whole hlength hparse)) hlength hs
    obtain ⟨t', ts', rfl, -⟩ := hts.stmt_starts
    have hle := length_dropSemicolon_le mid₁
    obtain ⟨more, us, rfl, hmid, hus⟩ := h.statements (by grind) hparse
    obtain ⟨vs, rfl, hvs⟩ := stmts_cons_of_follow hts hus hmid hnext hreturn
    exact ⟨s :: more, _, by simp, by simp, hvs⟩

theorem sound : ∀ n : Nat, Sound n
  | 0 => sound_zero
  | n + 1 =>
    have h := sound n
    { expression := fun hlength hparse => by
        unfold Parse.expression at hparse
        exact h.whole hlength hparse
      operators := h.operators_succ
      elements := h.elements_succ
      pairs := h.pairs_succ
      block := by
        intro ss tokens rest hlength hparse
        unfold Parse.block at hparse
        rw [bind_eq_ok] at hparse
        obtain ⟨⟨⟩, mid, hopen, hparse⟩ := hparse
        obtain rfl := expect_eq_ok hopen
        obtain ⟨more, ts, rfl, rfl, hts⟩ := h.statements (Nat.le_of_succ_le_succ hlength) hparse
        exact ⟨ts, by simp [enclosed], hts⟩
      statements := h.statements_succ }

/-! ## Whole programs -/

/-- Errors that have been found are not forgotten. -/
theorem program_errors (n : Nat) (found : List Stmt) (errors : List ParseError) (tokens : List Token) :
    (program n found errors tokens).errors = [] → errors = [] := by
  fun_induction program n found errors tokens with
  | case1 | case2 | case3 => exact List.reverse_eq_nil_iff.mp
  | case4 _ _ _ _ _ _ _ _ _ ih => exact ih
  | case5 _ _ _ _ _ _ _ _ _ ih => exact fun h => absurd (ih h) (List.cons_ne_nil _ _)

/-- What has been read up to the end of the file, if nothing was malformed. -/
theorem program_spells (n : Nat) (found : List Stmt) (errors : List ParseError) (tokens : List Token) :
    tokens.length ≤ n → (program n found errors tokens).errors = [] →
    ∃ more ts, (program n found errors tokens).statements = found.reverse ++ more ∧
      tokens = ts ++ (program n found errors tokens).left ∧ Spells (.stmts more) ts ∧
      nextToken (program n found errors tokens).left = .endOfFile := by
  fun_induction program n found errors tokens with
  | case1 n found errors =>
      intro _ _
      exact ⟨[], [], (List.append_nil _).symm, rfl, .stmts_nil, rfl⟩
  | case2 n found errors rest =>
      intro _ _
      exact ⟨[], [], (List.append_nil _).symm, rfl, .stmts_nil, rfl⟩
  | case3 found errors tokens hne =>
      intro hlength
      exact absurd (List.eq_nil_of_length_eq_zero (Nat.le_zero.mp hlength)) (by simpa using hne)
  | case4 n found errors tokens _ _ s rest hs ih =>
      intro hlength hnone
      obtain ⟨ts, mid, rfl, rfl, hts, hnext, hreturn⟩ := statement_spells
        (fun hlength hparse => lowest_of_whole ((sound (n + 1)).expression hlength hparse)) hlength hs
      obtain ⟨t, ts', rfl, -⟩ := hts.stmt_starts
      have hle := length_dropSemicolon_le mid
      obtain ⟨more, us, hmore, hmid, hus, hend⟩ := ih (by grind) hnone
      obtain ⟨vs, hvs, hspells⟩ := stmts_cons_of_follow hts hus hmid hnext hreturn
      exact ⟨s :: more, _, by simpa using hmore, by rw [List.append_assoc, ← hvs], hspells, hend⟩
  | case5 =>
      exact fun _ hnone => absurd (program_errors _ _ _ _ hnone) (List.cons_ne_nil _ _)

end Parse

/-- Whatever is read without an error, the tokens up to the end of the file spell. -/
theorem Program.spells_of_read {tokens : List Token} (h : (Program.read tokens).errors = []) :
    ∃ ts, tokens = ts ++ (Program.read tokens).left ∧
      Spells (.stmts (Program.read tokens).statements) ts ∧
      nextToken (Program.read tokens).left = .endOfFile := by
  obtain ⟨more, ts, hmore, htokens, hts, hend⟩ :=
    Parse.program_spells tokens.length [] [] tokens (Nat.le_refl _) h
  have hmore : (Program.read tokens).statements = more := hmore
  exact ⟨ts, htokens, by rwa [hmore], hend⟩

end ScriptLang
