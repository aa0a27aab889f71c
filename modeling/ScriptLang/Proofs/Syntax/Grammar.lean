import ScriptLang.Syntax.Parser

/-!
# The grammar of programs

`Spells P ts`: the tokens `ts`, all of them and in this order, spell the phrase `P`. The rules say nothing
of how tokens are read. Every phrase but a list begins with a token of a certain kind (`Spells.starts`,
`Spells.begins`), and no phrase contains a token that is no part of the language (`Spells.legal`).

Expressions are told apart by their level: the operators outside of brackets have at least that rank. The
left operand of an operator has the level of the operator and the right one a higher level, so that
operators of one rank group to the left.
-/

namespace ScriptLang

/-! ## Operators -/

/-- The mark of an operator. -/
def Operator.mark : Operator → Mark
  | .plus => .plus
  | .minus => .minus
  | .asterisk => .asterisk
  | .slash => .slash
  | .bang => .bang
  | .lessThan => .lessThan
  | .greaterThan => .greaterThan
  | .equal => .equal
  | .notEqual => .notEqual

/-- Whether an operator may stand in front of an operand. -/
def Operator.isUnary : Operator → Bool
  | .bang | .minus => true
  | _ => false

/-- Whether an operator may stand between two operands. -/
def Operator.isBinary : Operator → Bool
  | .bang => false
  | _ => true

/-- How tightly an operator binds the operands around it. -/
def Operator.precedence (operator : Operator) : Precedence := (Token.mark operator.mark).precedence

theorem Operator.precedence_bounds {operator : Operator} (h : operator.isBinary = true) :
    Precedence.lowest.rank < operator.precedence.rank ∧
      operator.precedence.rank < Precedence.unary.rank := by
  cases operator <;> first | decide | cases h

theorem Token.binaryOperator?_eq_some {t : Token} {operator : Operator}
    (h : t.binaryOperator? = some operator) : operator.isBinary = true ∧ t = .mark operator.mark := by
  unfold binaryOperator? at h
  split at h <;> cases h <;> exact ⟨rfl, rfl⟩

/-- A token that binds what stands to its left opens a bracket or is an operator. -/
theorem Token.precedence_of_binaryOperator?_none {t : Token} (h : t.binaryOperator? = none)
    (hparen : t ≠ .mark .leftParen) (hbracket : t ≠ .mark .leftBracket) : t.precedence = .lowest := by
  cases t with
  | mark m => cases m <;> first | exact absurd rfl hparen | exact absurd rfl hbracket | rfl | cases h
  | _ => rfl

/-! ## Phrases -/

/-- What a stretch of tokens can spell. -/
inductive Phrase where
  /-- An expression whose operators outside of brackets have at least the rank `level`. -/
  | expr (level : Nat) (e : Expr)
  /-- Expressions with commas between them. -/
  | items (es : List Expr)
  /-- Pairs of a hash literal. A comma stands behind each one, but the last one may do without. -/
  | pairs (pairs : List (Expr × Expr))
  /-- A statement without the semicolon behind it. -/
  | stmt (s : Stmt)
  /-- Statements, with a semicolon behind each one or without. -/
  | stmts (ss : List Stmt)

/-- Names with commas between them. -/
def parameterTokens : List String → List Token
  | [] => []
  | [name] => [.identifier name]
  | name :: names => .identifier name :: .mark .comma :: parameterTokens names

/-- Some tokens between two marks. -/
def enclosed (first : Mark) (tokens : List Token) (last : Mark) : List Token :=
  .mark first :: (tokens ++ [.mark last])

/-- The tokens that spell a phrase. -/
inductive Spells : Phrase → List Token → Prop where
  | identifier {level : Nat} {name : String} :
    Spells (.expr level (.identifier name)) [.identifier name]
  | integer {level : Nat} {value : Int64} : Spells (.expr level (.integer value)) [.integer value]
  | boolean {level : Nat} {value : Bool} :
    Spells (.expr level (.boolean value)) [.keyword (if value then .true else .false)]
  | string {level : Nat} {contents : String} :
    Spells (.expr level (.string contents)) [.string contents]
  /-- Any expression may stand in parentheses. -/
  | parens {level : Nat} {e : Expr} {ts : List Token} : Spells (.expr 0 e) ts →
    Spells (.expr level e) (enclosed .leftParen ts .rightParen)
  | array {level : Nat} {es : List Expr} {ts : List Token} : Spells (.items es) ts →
    Spells (.expr level (.array es)) (enclosed .leftBracket ts .rightBracket)
  | hash {level : Nat} {ps : List (Expr × Expr)} {ts : List Token} : Spells (.pairs ps) ts →
    Spells (.expr level (.hash ps)) (enclosed .leftBrace ts .rightBrace)
  | unary {level : Nat} {operator : Operator} {operand : Expr} {ts : List Token} :
    operator.isUnary = true → level ≤ Precedence.unary.rank →
    Spells (.expr Precedence.unary.rank operand) ts →
    Spells (.expr level (.unary operator operand)) (.mark operator.mark :: ts)
  | binary {level : Nat} {operator : Operator} {left right : Expr} {ts us : List Token} :
    operator.isBinary = true → level ≤ operator.precedence.rank →
    Spells (.expr operator.precedence.rank left) ts →
    Spells (.expr (operator.precedence.rank + 1) right) us →
    Spells (.expr level (.binary left operator right)) (ts ++ .mark operator.mark :: us)
  | call {level : Nat} {callee : Expr} {arguments : List Expr} {ts us : List Token} :
    Spells (.expr Precedence.call.rank callee) ts → Spells (.items arguments) us →
    Spells (.expr level (.call callee arguments)) (ts ++ enclosed .leftParen us .rightParen)
  | index {level : Nat} {collection key : Expr} {ts us : List Token} :
    Spells (.expr Precedence.index.rank collection) ts → Spells (.expr 0 key) us →
    Spells (.expr level (.index collection key)) (ts ++ enclosed .leftBracket us .rightBracket)
  | if_then {level : Nat} {condition : Expr} {consequence : List Stmt} {ts us : List Token} :
    Spells (.expr 0 condition) ts → Spells (.stmts consequence) us →
    Spells (.expr level (.if condition consequence none))
      (.keyword .if :: (enclosed .leftParen ts .rightParen ++ enclosed .leftBrace us .rightBrace))
  | if_else {level : Nat} {condition : Expr} {consequence alternative : List Stmt} {ts us vs : List Token} :
    Spells (.expr 0 condition) ts → Spells (.stmts consequence) us → Spells (.stmts alternative) vs →
    Spells (.expr level (.if condition consequence (some alternative)))
      (.keyword .if :: (enclosed .leftParen ts .rightParen ++ (enclosed .leftBrace us .rightBrace ++
        .keyword .else :: enclosed .leftBrace vs .rightBrace)))
  | function {level : Nat} {parameters : List String} {body : List Stmt} {ts : List Token} :
    Spells (.stmts body) ts →
    Spells (.expr level (.function none parameters body))
      (.keyword .fn :: (enclosed .leftParen (parameterTokens parameters) .rightParen ++
        enclosed .leftBrace ts .rightBrace))
  | items_nil : Spells (.items []) []
  | items_one {e : Expr} {ts : List Token} : Spells (.expr 0 e) ts → Spells (.items [e]) ts
  | items_cons {e : Expr} {es : List Expr} {ts us : List Token} : es ≠ [] →
    Spells (.expr 0 e) ts → Spells (.items es) us → Spells (.items (e :: es)) (ts ++ .mark .comma :: us)
  | pairs_nil : Spells (.pairs []) []
  | pairs_one {key value : Expr} {ts us : List Token} :
    Spells (.expr 0 key) ts → Spells (.expr 0 value) us →
    Spells (.pairs [(key, value)]) (ts ++ .mark .colon :: us)
  | pairs_cons {key value : Expr} {ps : List (Expr × Expr)} {ts us vs : List Token} :
    Spells (.expr 0 key) ts → Spells (.expr 0 value) us → Spells (.pairs ps) vs →
    Spells (.pairs ((key, value) :: ps)) (ts ++ .mark .colon :: (us ++ .mark .comma :: vs))
  /-- A function literal has no name of its own. It takes the one that it is bound to. -/
  | «let» {name : String} {value : Expr} {ts : List Token} : Spells (.expr 0 value) ts →
    Spells (.stmt (.let name (value.named name)))
      (.keyword .let :: .identifier name :: .mark .assign :: ts)
  | return_none : Spells (.stmt (.return none)) [.keyword .return]
  | return_some {value : Expr} {ts : List Token} : Spells (.expr 0 value) ts →
    Spells (.stmt (.return (some value))) (.keyword .return :: ts)
  | expr {value : Expr} {ts : List Token} : Spells (.expr 0 value) ts → Spells (.stmt (.expr value)) ts
  | stmts_nil : Spells (.stmts []) []
  | stmts_semicolon {s : Stmt} {ss : List Stmt} {ts us : List Token} :
    Spells (.stmt s) ts → Spells (.stmts ss) us →
    Spells (.stmts (s :: ss)) (ts ++ .mark .semicolon :: us)
  /-- Without a semicolon, what comes next may not go on with the statement. -/
  | stmts_cons {s : Stmt} {ss : List Stmt} {ts us : List Token} :
    (s = .return none → us = []) → (∀ t ∈ us.head?, t.precedence = .lowest) →
    Spells (.stmt s) ts → Spells (.stmts ss) us → Spells (.stmts (s :: ss)) (ts ++ us)

/-! ## The tokens of a phrase -/

/-- Whether a token is the first one of some expression. -/
def Token.startsExpr : Token → Bool
  | .identifier _ | .integer _ | .string _ => true
  | .keyword .true | .keyword .false | .keyword .if | .keyword .fn => true
  | .mark .bang | .mark .minus | .mark .leftParen | .mark .leftBracket | .mark .leftBrace => true
  | _ => false

/-- Whether a token is the first one of some statement. -/
def Token.startsStmt : Token → Bool
  | .keyword .let | .keyword .return => true
  | t => t.startsExpr

theorem Token.startsStmt_of_startsExpr {t : Token} (h : t.startsExpr = true) : t.startsStmt = true := by
  unfold startsStmt
  split
  · rfl
  · rfl
  · exact h

/-- What a phrase begins with. -/
def Phrase.Starts : Phrase → Token → Prop
  | .expr _ _ | .items _ | .pairs _ => fun t => t.startsExpr = true
  | .stmt _ | .stmts _ => fun t => t.startsStmt = true

/-- Whether a phrase is an empty list. -/
def Phrase.isEmpty : Phrase → Bool
  | .items es => es.isEmpty
  | .pairs ps => ps.isEmpty
  | .stmts ss => ss.isEmpty
  | _ => false

theorem Operator.startsExpr_mark {operator : Operator} (h : operator.isUnary = true) :
    (Token.mark operator.mark).startsExpr = true := by
  cases operator <;> first | rfl | cases h

namespace Spells

variable {P : Phrase} {level level' : Nat} {e : Expr} {s : Stmt} {ss : List Stmt} {ts us : List Token}

/-- A phrase has tokens, unless it is an empty list, and begins with one of its own kind. -/
theorem starts (h : Spells P ts) :
    if P.isEmpty then ts = [] else ∃ t us, ts = t :: us ∧ P.Starts t := by
  induction h with
  | identifier | integer | string => exact ⟨_, _, rfl, rfl⟩
  | @boolean _ value => exact ⟨_, _, rfl, by cases value <;> rfl⟩
  | parens | array | hash | if_then | if_else | function => exact ⟨_, _, rfl, rfl⟩
  | unary hoperator => exact ⟨_, _, rfl, Operator.startsExpr_mark hoperator⟩
  | binary _ _ _ _ ih | call _ _ ih | index _ _ ih =>
      obtain ⟨t, us, rfl, ht⟩ := ih
      exact ⟨t, _, rfl, ht⟩
  | items_nil | pairs_nil | stmts_nil => rfl
  | items_one _ ih => exact ih
  | items_cons _ _ _ ih | pairs_one _ _ ih | pairs_cons _ _ _ ih =>
      obtain ⟨t, us, rfl, ht⟩ := ih
      exact ⟨t, _, rfl, ht⟩
  | «let» | return_none | return_some => exact ⟨_, _, rfl, rfl⟩
  | expr _ ih =>
      obtain ⟨t, us, rfl, ht⟩ := ih
      exact ⟨t, us, rfl, Token.startsStmt_of_startsExpr ht⟩
  | stmts_semicolon _ _ ih | stmts_cons _ _ _ _ ih =>
      obtain ⟨t, us, rfl, ht⟩ := ih
      exact ⟨t, _, rfl, ht⟩

/-- An expression begins with a token that starts an expression. -/
theorem expr_starts (h : Spells (.expr level e) ts) : ∃ t us, ts = t :: us ∧ t.startsExpr = true :=
  h.starts

/-- A statement begins with a token that starts a statement. -/
theorem stmt_starts (h : Spells (.stmt s) ts) : ∃ t us, ts = t :: us ∧ t.startsStmt = true :=
  h.starts

/-- The tokens of some statements begin with one that starts a statement, if there are any. -/
theorem stmts_starts (h : Spells (.stmts ss) ts) : ∀ t ∈ ts.head?, t.startsStmt = true := by
  have hstarts := h.starts
  intro t ht
  split at hstarts
  · subst hstarts
    cases ht
  · obtain ⟨t', us, rfl, ht'⟩ := hstarts
    cases ht
    exact ht'

/-- Pairs in front of a closing brace are none if the brace comes first. -/
theorem pairs_eq_nil {ps : List (Expr × Expr)} {rest rest' : List Token} (h : Spells (.pairs ps) ts)
    (hts : ts ++ .mark .rightBrace :: rest = .mark .rightBrace :: rest') : ps = [] ∧ ts = [] := by
  have hstarts := h.starts
  split at hstarts
  · next hempty => exact ⟨List.isEmpty_iff.mp hempty, hstarts⟩
  · obtain ⟨t, us, rfl, ht⟩ := hstarts
    cases hts
    cases ht

/-- Whether a token belongs to the language. -/
def Legal (t : Token) : Prop := t ≠ .endOfFile ∧ ∀ text, t ≠ .illegal text

theorem legal_parameterTokens : ∀ names : List String, ∀ t ∈ parameterTokens names, Legal t
  | [] => by simp [parameterTokens]
  | [name] => by simp [parameterTokens, Legal]
  | name :: name' :: names => by
      have ih := legal_parameterTokens (name' :: names)
      simpa [parameterTokens, Legal] using ih

/-- **No phrase contains a token that is no part of the language.** -/
theorem legal (h : Spells P ts) : ∀ t ∈ ts, Legal t := by
  induction h with
  | @function _ parameters =>
      have hparameters := legal_parameterTokens parameters
      grind [enclosed, Legal]
  | _ => grind [enclosed, Legal]

/-- An expression of some level may stand where a lower one will do. -/
theorem mono (h : Spells (.expr level e) ts) (hle : level' ≤ level) : Spells (.expr level' e) ts := by
  cases h with
  | identifier => exact .identifier
  | integer => exact .integer
  | boolean => exact .boolean
  | string => exact .string
  | parens h => exact .parens h
  | array h => exact .array h
  | hash h => exact .hash h
  | unary hoperator hlevel h => exact .unary hoperator (Nat.le_trans hle hlevel) h
  | binary hoperator hlevel h₁ h₂ => exact .binary hoperator (Nat.le_trans hle hlevel) h₁ h₂
  | call h₁ h₂ => exact .call h₁ h₂
  | index h₁ h₂ => exact .index h₁ h₂
  | if_then h₁ h₂ => exact .if_then h₁ h₂
  | if_else h₁ h₂ h₃ => exact .if_else h₁ h₂ h₃
  | function h => exact .function h

end Spells

end ScriptLang
