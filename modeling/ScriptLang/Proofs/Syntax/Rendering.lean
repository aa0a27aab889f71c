import ScriptLang.Proofs.Syntax.Completeness

/-!
# Programs as tokens

`Stmt.allTokens` writes a program as tokens, with parentheses only where the precedence of an operator needs
them and a semicolon behind every statement. The tokens spell the program (`Stmt.all_spelt`), whence the
parser gives it back, whatever the depth of its trees.

A program can be written so if the parser could have yielded it: its operators stand where they have a meaning
(`Expr.isProper`) and its function literals are named by the `let` around them (`Expr.isNamed`).

Main statement: `Program.ofTokens_allTokens`.
-/

namespace ScriptLang

/-! ## Proper trees -/

mutual

/-- Whether every operator in an expression stands where it has a meaning. -/
def Expr.isProper : Expr → Bool
  | .identifier _ | .integer _ | .boolean _ | .string _ => true
  | .array elements => Expr.areProper elements
  | .hash pairs => Expr.areProperPairs pairs
  | .unary operator operand => operator.isUnary && operand.isProper
  | .binary left operator right => operator.isBinary && (left.isProper && right.isProper)
  | .if condition consequence none => condition.isProper && Stmt.areProper consequence
  | .if condition consequence (some alternative) =>
    condition.isProper && (Stmt.areProper consequence && Stmt.areProper alternative)
  | .function _ _ body => Stmt.areProper body
  | .call callee arguments => callee.isProper && Expr.areProper arguments
  | .index collection key => collection.isProper && key.isProper

/-- Whether the operators in some expressions stand where they have a meaning. -/
def Expr.areProper : List Expr → Bool
  | [] => true
  | e :: es => e.isProper && Expr.areProper es

/-- Whether the operators in the keys and values of a hash literal stand where they have a meaning. -/
def Expr.areProperPairs : List (Expr × Expr) → Bool
  | [] => true
  | (key, value) :: pairs => key.isProper && (value.isProper && Expr.areProperPairs pairs)

/-- Whether the operators in a statement stand where they have a meaning. -/
def Stmt.isProper : Stmt → Bool
  | .return none => true
  | .let _ value | .return (some value) | .expr value => value.isProper

/-- Whether the operators in some statements stand where they have a meaning. -/
def Stmt.areProper : List Stmt → Bool
  | [] => true
  | s :: ss => s.isProper && Stmt.areProper ss

end

/-! ## Writing -/

/-- How tightly the operator outside of brackets binds, if an expression has one. -/
def Expr.level : Expr → Nat
  | .unary _ _ => Precedence.unary.rank
  | .binary _ operator _ => operator.precedence.rank
  | _ => Precedence.index.rank

/-- The tokens of an expression, in parentheses if an expression of some level has to stand there and this
one binds less tightly. -/
def Expr.atLevel (level : Nat) (e : Expr) (tokens : List Token) : List Token :=
  if e.level < level then enclosed .leftParen tokens .rightParen else tokens

mutual

/-- The tokens of an expression. -/
def Expr.tokens : Expr → List Token
  | .identifier name => [.identifier name]
  | .integer value => [.integer value]
  | .boolean value => [.keyword (if value then .true else .false)]
  | .string contents => [.string contents]
  | .array elements => enclosed .leftBracket (Expr.itemTokens elements) .rightBracket
  | .hash pairs => enclosed .leftBrace (Expr.pairTokens pairs) .rightBrace
  | .unary operator operand =>
    .mark operator.mark :: operand.atLevel Precedence.unary.rank operand.tokens
  | .binary left operator right =>
    left.atLevel operator.precedence.rank left.tokens ++
      .mark operator.mark :: right.atLevel (operator.precedence.rank + 1) right.tokens
  | .if condition consequence none =>
    .keyword .if :: (enclosed .leftParen condition.tokens .rightParen ++
      enclosed .leftBrace (Stmt.allTokens consequence) .rightBrace)
  | .if condition consequence (some alternative) =>
    .keyword .if :: (enclosed .leftParen condition.tokens .rightParen ++
      (enclosed .leftBrace (Stmt.allTokens consequence) .rightBrace ++
        .keyword .else :: enclosed .leftBrace (Stmt.allTokens alternative) .rightBrace))
  | .function _ parameters body =>
    .keyword .fn :: (enclosed .leftParen (parameterTokens parameters) .rightParen ++
      enclosed .leftBrace (Stmt.allTokens body) .rightBrace)
  | .call callee arguments =>
    callee.atLevel Precedence.call.rank callee.tokens ++
      enclosed .leftParen (Expr.itemTokens arguments) .rightParen
  | .index collection key =>
    collection.atLevel Precedence.index.rank collection.tokens ++
      enclosed .leftBracket key.tokens .rightBracket

/-- The tokens of some expressions with commas between them. -/
def Expr.itemTokens : List Expr → List Token
  | [] => []
  | [e] => e.tokens
  | e :: es => e.tokens ++ .mark .comma :: Expr.itemTokens es

/-- The tokens of the pairs of a hash literal with commas between them. -/
def Expr.pairTokens : List (Expr × Expr) → List Token
  | [] => []
  | [(key, value)] => key.tokens ++ .mark .colon :: value.tokens
  | (key, value) :: pairs => key.tokens ++ .mark .colon :: (value.tokens ++ .mark .comma :: Expr.pairTokens pairs)

/-- The tokens of a statement without the semicolon behind it. -/
def Stmt.tokens : Stmt → List Token
  | .let name value => .keyword .let :: .identifier name :: .mark .assign :: value.tokens
  | .return none => [.keyword .return]
  | .return (some value) => .keyword .return :: value.tokens
  | .expr value => value.tokens

/-- The tokens of some statements with a semicolon behind each one. -/
def Stmt.allTokens : List Stmt → List Token
  | [] => []
  | s :: ss => s.tokens ++ .mark .semicolon :: Stmt.allTokens ss

end

/-! ## What is written spells the tree -/

/-- An expression without the name that a function literal records. -/
def Expr.unnamed : Expr → Expr
  | .function _ parameters body => .function none parameters body
  | e => e

theorem Expr.unnamed_of_isNamed_none {e : Expr} (h : e.isNamed none = true) : e.unnamed = e := by
  cases e with
  | function recorded parameters body =>
      rw [isNamed, Bool.and_eq_true_iff, decide_eq_true_iff] at h
      rw [unnamed, h.1]
  | _ => rfl

theorem Expr.named_unnamed {e : Expr} {name : String} (h : e.isNamed (some name) = true) :
    e.unnamed.named name = e := by
  cases e with
  | function recorded parameters body =>
      rw [isNamed, Bool.and_eq_true_iff, decide_eq_true_iff] at h
      rw [unnamed, named, h.1]
  | _ => rfl

/-- An expression may stand where some level is asked for, with parentheses around it if it needs them. -/
theorem Spells.atLevel {e : Expr} {tokens : List Token} (h : Spells (.expr e.level e) tokens)
    (level : Nat) : Spells (.expr level e) (e.atLevel level tokens) := by
  unfold Expr.atLevel
  split
  · exact .parens (h.mono (Nat.zero_le _))
  · next hle => exact h.mono (Nat.le_of_not_lt hle)

/-- An expression that records no name, which may stand where some level is asked for. -/
theorem Spells.placed {e : Expr} {tokens : List Token} (h : Spells (.expr e.level e.unnamed) tokens)
    (hnamed : e.isNamed none = true) (level : Nat) : Spells (.expr level e) (e.atLevel level tokens) := by
  rw [Expr.unnamed_of_isNamed_none hnamed] at h
  exact h.atLevel level

/-- An expression that records no name, which stands between brackets. -/
theorem Spells.whole {e : Expr} {tokens : List Token} (h : Spells (.expr e.level e.unnamed) tokens)
    (hnamed : e.isNamed none = true) : Spells (.expr 0 e) tokens := by
  rw [Expr.unnamed_of_isNamed_none hnamed] at h
  exact h.mono (Nat.zero_le _)

mutual

/-- A name that the expression records is not written. -/
theorem Expr.spelt {name : Option String} : ∀ e : Expr, e.isNamed name = true → e.isProper = true →
    Spells (.expr e.level e.unnamed) e.tokens
  | .identifier _, _, _ => .identifier
  | .integer _, _, _ => .integer
  | .boolean _, _, _ => .boolean
  | .string _, _, _ => .string
  | .array elements, hnamed, hproper => .array (Expr.items_spelt elements hnamed hproper)
  | .hash pairs, hnamed, hproper => .hash (Expr.pairs_spelt pairs hnamed hproper)
  | .unary operator operand, hnamed, hproper => by
      obtain ⟨hoperator, hproper⟩ := Bool.and_eq_true_iff.mp hproper
      exact .unary hoperator (Nat.le_refl _) ((operand.spelt hnamed hproper).placed hnamed _)
  | .binary left operator right, hnamed, hproper => by
      obtain ⟨hoperator, hproper⟩ := Bool.and_eq_true_iff.mp hproper
      obtain ⟨hleft, hright⟩ := Bool.and_eq_true_iff.mp hproper
      obtain ⟨hleft', hright'⟩ := Bool.and_eq_true_iff.mp hnamed
      exact .binary hoperator (Nat.le_refl _) ((left.spelt hleft' hleft).placed hleft' _)
        ((right.spelt hright' hright).placed hright' _)
  | .if condition consequence none, hnamed, hproper => by
      rw [Expr.isNamed, Bool.and_eq_true_iff] at hnamed
      rw [Expr.isProper, Bool.and_eq_true_iff] at hproper
      exact .if_then ((condition.spelt hnamed.1 hproper.1).whole hnamed.1)
        (Stmt.all_spelt consequence hnamed.2 hproper.2)
  | .if condition consequence (some alternative), hnamed, hproper => by
      simp only [Expr.isNamed, Bool.and_eq_true_iff] at hnamed
      simp only [Expr.isProper, Bool.and_eq_true_iff] at hproper
      exact .if_else ((condition.spelt hnamed.1 hproper.1).whole hnamed.1)
        (Stmt.all_spelt consequence hnamed.2.1 hproper.2.1) (Stmt.all_spelt alternative hnamed.2.2 hproper.2.2)
  | .function _ parameters body, hnamed, hproper =>
      .function (Stmt.all_spelt body (Bool.and_eq_true_iff.mp hnamed).2 hproper)
  | .call callee arguments, hnamed, hproper => by
      obtain ⟨hcallee, harguments⟩ := Bool.and_eq_true_iff.mp hproper
      obtain ⟨hcallee', harguments'⟩ := Bool.and_eq_true_iff.mp hnamed
      exact .call ((callee.spelt hcallee' hcallee).placed hcallee' _)
        (Expr.items_spelt arguments harguments' harguments)
  | .index collection key, hnamed, hproper => by
      obtain ⟨hcollection, hkey⟩ := Bool.and_eq_true_iff.mp hproper
      obtain ⟨hcollection', hkey'⟩ := Bool.and_eq_true_iff.mp hnamed
      exact .index ((collection.spelt hcollection' hcollection).placed hcollection' _)
        ((key.spelt hkey' hkey).whole hkey')

theorem Expr.items_spelt : ∀ es : List Expr, Expr.areNamed es = true → Expr.areProper es = true →
    Spells (.items es) (Expr.itemTokens es)
  | [], _, _ => .items_nil
  | [e], hnamed, hproper =>
      have hnamed := (Bool.and_eq_true_iff.mp hnamed).1
      .items_one ((e.spelt hnamed (Bool.and_eq_true_iff.mp hproper).1).whole hnamed)
  | e :: e' :: es, hnamed, hproper => by
      obtain ⟨hnamed, hnamed'⟩ := Bool.and_eq_true_iff.mp hnamed
      obtain ⟨hproper, hproper'⟩ := Bool.and_eq_true_iff.mp hproper
      exact .items_cons (List.cons_ne_nil _ _) ((e.spelt hnamed hproper).whole hnamed)
        (Expr.items_spelt (e' :: es) hnamed' hproper')

theorem Expr.pairs_spelt : ∀ pairs : List (Expr × Expr), Expr.areNamedPairs pairs = true →
    Expr.areProperPairs pairs = true → Spells (.pairs pairs) (Expr.pairTokens pairs)
  | [], _, _ => .pairs_nil
  | [(key, value)], hnamed, hproper => by
      simp only [Expr.areNamedPairs, Bool.and_eq_true_iff] at hnamed
      simp only [Expr.areProperPairs, Bool.and_eq_true_iff] at hproper
      exact .pairs_one ((key.spelt hnamed.1 hproper.1).whole hnamed.1)
        ((value.spelt hnamed.2.1 hproper.2.1).whole hnamed.2.1)
  | (key, value) :: pair :: pairs, hnamed, hproper => by
      rw [Expr.areNamedPairs, Bool.and_eq_true_iff, Bool.and_eq_true_iff] at hnamed
      rw [Expr.areProperPairs, Bool.and_eq_true_iff, Bool.and_eq_true_iff] at hproper
      exact .pairs_cons ((key.spelt hnamed.1 hproper.1).whole hnamed.1)
        ((value.spelt hnamed.2.1 hproper.2.1).whole hnamed.2.1)
        (Expr.pairs_spelt (pair :: pairs) hnamed.2.2 hproper.2.2)

theorem Stmt.spelt : ∀ s : Stmt, s.isNamed = true → s.isProper = true → Spells (.stmt s) s.tokens
  | .let name value, hnamed, hproper => by
      have hlet : Spells (.stmt (.let name (value.unnamed.named name))) _ :=
        .let ((value.spelt hnamed hproper).mono (Nat.zero_le _))
      rwa [Expr.named_unnamed hnamed] at hlet
  | .return none, _, _ => .return_none
  | .return (some value), hnamed, hproper => .return_some ((value.spelt hnamed hproper).whole hnamed)
  | .expr value, hnamed, hproper => .expr ((value.spelt hnamed hproper).whole hnamed)

theorem Stmt.all_spelt : ∀ ss : List Stmt, Stmt.areNamed ss = true → Stmt.areProper ss = true →
    Spells (.stmts ss) (Stmt.allTokens ss)
  | [], _, _ => .stmts_nil
  | s :: ss, hnamed, hproper => by
      obtain ⟨hnamed, hnamed'⟩ := Bool.and_eq_true_iff.mp hnamed
      obtain ⟨hproper, hproper'⟩ := Bool.and_eq_true_iff.mp hproper
      exact .stmts_semicolon (s.spelt hnamed hproper) (Stmt.all_spelt ss hnamed' hproper')

end

/-- **Reading is inverse to writing.** A program that is written as tokens, with parentheses only where
precedence needs them, is read as it was, and no token is left. -/
theorem Program.ofTokens_allTokens {program : Program} (hnamed : Stmt.areNamed program = true)
    (hproper : Stmt.areProper program = true) :
    Program.ofTokens (Stmt.allTokens program) = .ok program ∧
      Program.read (Stmt.allTokens program) = ⟨program, [], []⟩ := by
  have h := Stmt.all_spelt program hnamed hproper
  exact ⟨ofTokens_of_spells h, read_of_spells h⟩

/-- The program `let f = fn(a) { return -(a + 1) * 2; }; f(3) - (4 - 5);`. -/
theorem Program.ofTokens_allTokens_grouping :
    let body := [.return (some (.binary (.unary .minus (.binary (.identifier "a") .plus (.integer 1)))
      .asterisk (.integer 2)))]
    let program := [.let "f" (.function (some "f") ["a"] body),
      .expr (.binary (.call (.identifier "f") [.integer 3]) .minus
        (.binary (.integer 4) .minus (.integer 5)))]
    (Stmt.areNamed program = true ∧ Stmt.areProper program = true) ∧
      Program.ofTokens (Stmt.allTokens program) = .ok program ∧
        Program.read (Stmt.allTokens program) = ⟨program, [], []⟩ :=
  have hnamed := by decide
  have hproper := by decide
  ⟨⟨hnamed, hproper⟩, ofTokens_allTokens hnamed hproper⟩

example : Stmt.allTokens [.expr (.binary (.unary .minus (.integer 1)) .minus
      (.binary (.integer 2) .minus (.integer 3)))] =
    [.mark .minus, .integer 1, .mark .minus, .mark .leftParen, .integer 2, .mark .minus, .integer 3,
      .mark .rightParen, .mark .semicolon] := rfl

end ScriptLang
