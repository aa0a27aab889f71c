import ScriptLang.Source
import ScriptLang.Syntax.Text
import ScriptLang.Proofs.Syntax.Completeness
import ScriptLang.Proofs.Syntax.Lexing

/-!
# Programs as text and back

The text of a statement is read as this statement (`Program.ofSource_text`). The text of an expression puts
parentheses around every operator, so its tokens spell the expression whatever its operators are. They are the
tokens of the text because each one ends where the next part of the text begins (`Expr.Printed`).

Only what the text shows can come back: the names in a tree have to be words that are not reserved, its
integers have to be unsigned, and its strings may not contain a quote. The condition of an `if` is printed
without parentheses and a function literal with its name, so that neither of them is read again.
-/

namespace ScriptLang

/-! ## Trees that the text shows -/

/-- Whether a word is read as an identifier. -/
def isName (name : String) : Bool :=
  !name.isEmpty && (name.toList.all Lexer.isLetter && (Keyword.ofText? name).isNone)

mutual

/-- Whether an expression can be read again from its text. -/
def Expr.isPrintable : Expr → Bool
  | .identifier name => isName name
  | .integer value => 0 ≤ value.toInt
  | .boolean _ => true
  | .string contents => contents.toList.all (· ≠ '"')
  | .array elements => Expr.arePrintable elements
  | .hash pairs => Expr.arePrintablePairs pairs
  | .unary operator operand => operator.isUnary && operand.isPrintable
  | .binary left operator right => operator.isBinary && (left.isPrintable && right.isPrintable)
  | .if _ _ _ | .function _ _ _ => false
  | .call callee arguments => callee.isPrintable && Expr.arePrintable arguments
  | .index collection key => collection.isPrintable && key.isPrintable

/-- Whether some expressions can be read again from their texts. -/
def Expr.arePrintable : List Expr → Bool
  | [] => true
  | e :: es => e.isPrintable && Expr.arePrintable es

/-- Whether the keys and values of a hash literal can be read again from their texts. -/
def Expr.arePrintablePairs : List (Expr × Expr) → Bool
  | [] => true
  | (key, value) :: pairs => key.isPrintable && (value.isPrintable && Expr.arePrintablePairs pairs)

end

/-- Whether a statement can be read again from its text. -/
def Stmt.isPrintable : Stmt → Bool
  | .let name value => isName name && value.isPrintable
  | .return none => true
  | .return (some value) | .expr value => value.isPrintable

/-! ## Lists of texts

The texts of a list are gathered in front of those that are there already. Seen from outside they are the
texts of the elements, in their order. -/

/-- The texts of expressions, in their order. -/
theorem Expr.texts_eq (acc : List String) (es : List Expr) :
    Expr.texts acc es = acc.reverse ++ es.map Expr.text := by
  induction es generalizing acc with
  | nil => simp [texts]
  | cons e es ih => simp [texts, ih]

/-- The text of a pair of a hash literal. -/
def Expr.pairText (pair : Expr × Expr) : String := pair.1.text ++ ": " ++ pair.2.text

/-- The texts of the pairs of a hash literal, in their order. -/
theorem Expr.pairTexts_eq (acc : List String) (pairs : List (Expr × Expr)) :
    Expr.pairTexts acc pairs = acc.reverse ++ pairs.map Expr.pairText := by
  induction pairs generalizing acc with
  | nil => simp [pairTexts]
  | cons pair pairs ih => simp [pairTexts, pairText, ih]

/-! ## Texts and tokens

A text is split into the same tokens wherever it stands, if what follows is no letter and no digit. In a
printed program that is always so: a blank, a comma, a colon or a bracket follows every part. -/

attribute [local simp] Expr.text

namespace Lexer

/-- A text is split into certain tokens, whatever comes behind that is no letter and no digit. -/
def Splits (text : String) (ts : List Token) : Prop := ∀ ⦃acc : List Token⦄ ⦃rest : List Char⦄,
  Ends rest → tokens acc (text.toList ++ rest) = tokens (ts.reverse ++ acc) rest

theorem ends_nil : Ends [] := nofun

theorem ends_cons {c : Char} (h : isLetter c = false ∧ c.isDigit = false) (rest : List Char) :
    Ends (c :: rest) := by
  rintro _ ⟨⟩
  exact h

theorem splits_name {name : String} (h : isName name = true) : Splits name [.identifier name] := by
  simp only [isName, Bool.and_eq_true, Bool.not_eq_true', List.all_eq_true, Option.isNone_iff_eq_none] at h
  obtain ⟨hne, hletters, hkeyword⟩ := h
  intro acc rest hends
  have hword : word name.toList = .identifier name := by
    simp only [word, String.ofList_toList, hkeyword]
  rw [tokens_word (by simpa using hne) hletters hends, hword]
  rfl

theorem tokens_keyword {letters : List Char} {keyword : Keyword} {acc : List Token} {rest : List Char}
    (hne : letters ≠ []) (hletters : letters.all isLetter = true) (hword : word letters = .keyword keyword)
    (h : Ends rest) : tokens acc (letters ++ rest) = tokens (.keyword keyword :: acc) rest := by
  rw [tokens_word hne (List.all_eq_true.mp hletters) h, hword]

/-- Two texts with a comma between them. -/
theorem Splits.comma {first second : String} {ts us : List Token} (h₁ : Splits first ts)
    (h₂ : Splits second us) : Splits (first ++ ", " ++ second) (ts ++ .mark .comma :: us) := by
  intro acc rest hends
  have htext : (first ++ ", " ++ second).toList ++ rest =
      first.toList ++ ',' :: ' ' :: (second.toList ++ rest) := by simp
  rw [htext, h₁ (ends_cons ⟨rfl, rfl⟩ _), tokens_mark rfl (by decide), tokens_blank, h₂ hends]
  simp

/-- An operator with a blank behind it is one token. -/
theorem tokens_operator {operator : Operator} {acc : List Token} {rest : List Char}
    (h : operator.isBinary = true) :
    tokens acc (operator.text.toList ++ ' ' :: rest) = tokens (.mark operator.mark :: acc) (' ' :: rest) := by
  cases operator with
  | bang => cases h
  | equal => exact tokens_equal
  | notEqual => exact tokens_notEqual
  | _ => exact tokens_mark rfl (by decide)

end Lexer

open Lexer

/-- The tokens of the text of an expression. They spell it, also where only the tightest operators bind. -/
structure Expr.Printed (e : Expr) (ts : List Token) : Prop where
  spells : Spells (.expr Precedence.index.rank e) ts
  splits : Splits e.text ts
  /-- A `!` in front of the text does not become a part of a longer mark. -/
  starts : ∀ c ∈ e.text.toList.head?, c ≠ '='

/-- The tokens of the texts of some expressions with commas between them. -/
structure Expr.PrintedAll (es : List Expr) (ts : List Token) : Prop where
  spells : Spells (.items es) ts
  splits : Splits (", ".intercalate (es.map Expr.text)) ts

/-- The tokens of the texts of the pairs of a hash literal with commas between them. -/
structure Expr.PrintedPairs (pairs : List (Expr × Expr)) (ts : List Token) : Prop where
  spells : Spells (.pairs pairs) ts
  splits : Splits (", ".intercalate (pairs.map Expr.pairText)) ts

namespace Expr

variable {e : Expr} {ts us : List Token}

theorem printed_identifier {name : String} (h : isName name = true) :
    (Expr.identifier name).Printed [.identifier name] where
  spells := .identifier
  splits := splits_name h
  starts := by
    rintro c hc rfl
    simp only [isName, Bool.and_eq_true, List.all_eq_true] at h
    cases h.2.1 '=' (List.mem_of_mem_head? hc)

/-- Integers that are not negative stand for themselves. -/
theorem printed_integer {value : Int64} (h : 0 ≤ value.toInt) :
    (Expr.integer value).Printed [.integer value] where
  spells := .integer
  splits := fun _ _ hends => tokens_integer h hends
  starts := by
    rintro c hc rfl
    rw [text, toList_toString h] at hc
    cases Nat.isDigit_of_mem_toDigits (by decide) (by decide) (List.mem_of_mem_head? hc)

theorem printed_boolean (value : Bool) :
    (Expr.boolean value).Printed [.keyword (if value then .true else .false)] where
  spells := .boolean
  splits := by
    intro acc rest hends
    have htrue : (Expr.boolean true).text.toList = ['t', 'r', 'u', 'e'] := rfl
    have hfalse : (Expr.boolean false).text.toList = ['f', 'a', 'l', 's', 'e'] := rfl
    cases value with
    | true =>
        rw [htrue]
        exact tokens_keyword (List.cons_ne_nil _ _) rfl rfl hends
    | false =>
        rw [hfalse]
        exact tokens_keyword (List.cons_ne_nil _ _) rfl rfl hends
  starts := by cases value <;> (rintro c ⟨⟩; decide)

/-- What follows a text does not matter to its first character. -/
theorem starts_append {cs : List Char} {c : Char} (h : ∀ c ∈ cs.head?, c ≠ '=') (hc : c ≠ '=')
    (rest : List Char) : ∀ c' ∈ (cs ++ c :: rest).head?, c' ≠ '=' := by
  cases cs with
  | nil =>
      rintro _ ⟨⟩
      exact hc
  | cons c' cs => exact h

/-- A text that begins with some other character than `=`. -/
theorem starts_of_text {text : String} {c : Char} {cs : List Char} (h : text.toList ++ [] = c :: cs)
    (hc : c ≠ '=') : ∀ c ∈ text.toList.head?, c ≠ '=' := by
  rw [List.append_nil] at h
  rw [h]
  rintro _ ⟨⟩
  exact hc

theorem printed_string {contents : String} (h : contents.toList.all (· ≠ '"') = true) :
    (Expr.string contents).Printed [.string contents] :=
  have htext : ∀ rest, (Expr.string contents).text.toList ++ rest =
      '"' :: (contents.toList ++ '"' :: rest) := by simp
  have hcontents : ∀ c ∈ contents.toList, c ≠ '"' := fun c hc => of_decide_eq_true (List.all_eq_true.mp h c hc)
  { spells := .string
    splits := fun acc rest _ => by rw [htext, tokens_string hcontents, String.ofList_toList]; rfl
    starts := starts_of_text (htext []) (by decide) }

theorem PrintedAll.array {es : List Expr} (h : PrintedAll es ts) :
    (Expr.array es).Printed (enclosed .leftBracket ts .rightBracket) :=
  have htext : ∀ rest, (Expr.array es).text.toList ++ rest =
      '[' :: ((", ".intercalate (es.map Expr.text)).toList ++ ']' :: rest) := by simp [texts_eq]
  { spells := .array h.spells
    splits := fun acc rest _ => by
      rw [htext, tokens_mark rfl (by decide), h.splits (ends_cons ⟨rfl, rfl⟩ _), tokens_mark rfl (by decide)]
      simp [enclosed]
    starts := starts_of_text (htext []) (by decide) }

theorem PrintedPairs.hash {pairs : List (Expr × Expr)} (h : PrintedPairs pairs ts) :
    (Expr.hash pairs).Printed (enclosed .leftBrace ts .rightBrace) :=
  have htext : ∀ rest, (Expr.hash pairs).text.toList ++ rest =
      '\x7b' :: ((", ".intercalate (pairs.map Expr.pairText)).toList ++ '\x7d' :: rest) := by
    simp [braced, pairTexts_eq]
  { spells := .hash h.spells
    splits := fun acc rest _ => by
      rw [htext, tokens_mark rfl (by decide), h.splits (ends_cons ⟨rfl, rfl⟩ _), tokens_mark rfl (by decide)]
      simp [enclosed]
    starts := starts_of_text (htext []) (by decide) }

/-- A prefix operator has parentheses around it and its operand. -/
theorem Printed.unary {operator : Operator} {operand : Expr} (h : operand.Printed ts)
    (hoperator : operator.isUnary = true) :
    (Expr.unary operator operand).Printed (enclosed .leftParen (.mark operator.mark :: ts) .rightParen) :=
  have htext : ∀ rest, (Expr.unary operator operand).text.toList ++ rest =
      '(' :: (operator.text.toList ++ (operand.text.toList ++ ')' :: rest)) := by simp
  have hmark : ∀ acc rest, tokens acc (operator.text.toList ++ (operand.text.toList ++ ')' :: rest)) =
      tokens (.mark operator.mark :: acc) (operand.text.toList ++ ')' :: rest) := by
    intro acc rest
    cases operator with
    | minus => exact tokens_mark rfl (by decide)
    | bang =>
        have hstarts := starts_append h.starts (c := ')') (by decide) rest
        exact tokens_bang hstarts
    | _ => cases hoperator
  { spells := .parens (.unary hoperator (Nat.zero_le _) (h.spells.mono (by decide)))
    splits := fun acc rest _ => by
      rw [htext, tokens_mark rfl (by decide), hmark, h.splits (ends_cons ⟨rfl, rfl⟩ _),
        tokens_mark rfl (by decide)]
      simp [enclosed]
    starts := starts_of_text (htext []) (by decide) }

/-- An infix operator has parentheses around its operands, and blanks on both sides. -/
theorem Printed.binary {left right : Expr} {operator : Operator} (hleft : left.Printed ts)
    (hright : right.Printed us) (hoperator : operator.isBinary = true) :
    (Expr.binary left operator right).Printed
      (enclosed .leftParen (ts ++ .mark operator.mark :: us) .rightParen) :=
  have htext : ∀ rest, (Expr.binary left operator right).text.toList ++ rest =
      '(' :: (left.text.toList ++ ' ' :: (operator.text.toList ++ ' ' ::
        (right.text.toList ++ ')' :: rest))) := by simp
  have hbounds := Operator.precedence_bounds hoperator
  { spells := .parens (.binary hoperator (Nat.zero_le _)
      (hleft.spells.mono (Precedence.rank_le _)) (hright.spells.mono (by grind [Precedence.rank])))
    splits := fun acc rest _ => by
      rw [htext, tokens_mark rfl (by decide), hleft.splits (ends_cons ⟨rfl, rfl⟩ _), tokens_blank,
        tokens_operator hoperator, tokens_blank, hright.splits (ends_cons ⟨rfl, rfl⟩ _),
        tokens_mark rfl (by decide)]
      simp [enclosed]
    starts := starts_of_text (htext []) (by decide) }

/-- A call is printed as it was written. What is called needs no parentheses of its own. -/
theorem Printed.call {callee : Expr} {arguments : List Expr} (hcallee : callee.Printed ts)
    (harguments : PrintedAll arguments us) :
    (Expr.call callee arguments).Printed (ts ++ enclosed .leftParen us .rightParen) :=
  have htext : ∀ rest, (Expr.call callee arguments).text.toList ++ rest =
      callee.text.toList ++ '(' :: ((", ".intercalate (arguments.map Expr.text)).toList ++ ')' :: rest) := by
    simp [texts_eq]
  { spells := .call (hcallee.spells.mono (by decide)) harguments.spells
    splits := fun acc rest _ => by
      rw [htext, hcallee.splits (ends_cons ⟨rfl, rfl⟩ _), tokens_mark rfl (by decide),
        harguments.splits (ends_cons ⟨rfl, rfl⟩ _), tokens_mark rfl (by decide)]
      simp [enclosed]
    starts := by
      rw [← List.append_nil (Expr.call callee arguments).text.toList, htext]
      exact starts_append hcallee.starts (by decide) _ }

/-- Indexing has parentheses around the collection and the key. -/
theorem Printed.index {collection key : Expr} (hcollection : collection.Printed ts) (hkey : key.Printed us) :
    (Expr.index collection key).Printed
      (enclosed .leftParen (ts ++ enclosed .leftBracket us .rightBracket) .rightParen) :=
  have htext : ∀ rest, (Expr.index collection key).text.toList ++ rest =
      '(' :: (collection.text.toList ++ '[' :: (key.text.toList ++ ']' :: ')' :: rest)) := by simp
  { spells := .parens (.index hcollection.spells (hkey.spells.mono (Nat.zero_le _)))
    splits := fun acc rest _ => by
      rw [htext, tokens_mark rfl (by decide), hcollection.splits (ends_cons ⟨rfl, rfl⟩ _),
        tokens_mark rfl (by decide), hkey.splits (ends_cons ⟨rfl, rfl⟩ _), tokens_mark rfl (by decide),
        tokens_mark rfl (by decide)]
      simp [enclosed]
    starts := starts_of_text (htext []) (by decide) }

theorem Printed.cons {es : List Expr} (he : e.Printed ts) (hes : PrintedAll es us) (hne : es ≠ []) :
    PrintedAll (e :: es) (ts ++ .mark .comma :: us) where
  spells := .items_cons hne (he.spells.mono (Nat.zero_le _)) hes.spells
  splits := by
    intro acc rest hends
    rw [List.map_cons, String.intercalate_cons_of_ne_nil (by simpa using hne)]
    exact he.splits.comma hes.splits hends

/-- The text of one pair. -/
theorem Printed.pair {key value : Expr} (hkey : key.Printed ts) (hvalue : value.Printed us) :
    Splits (Expr.pairText (key, value)) (ts ++ .mark .colon :: us) := by
  intro acc rest hends
  have htext : (Expr.pairText (key, value)).toList ++ rest =
      key.text.toList ++ ':' :: ' ' :: (value.text.toList ++ rest) := by simp [Expr.pairText]
  rw [htext, hkey.splits (ends_cons ⟨rfl, rfl⟩ _), tokens_mark rfl (by decide), tokens_blank,
    hvalue.splits hends]
  simp

theorem PrintedPairs.cons {key value : Expr} {pairs : List (Expr × Expr)} {vs : List Token}
    (hkey : key.Printed ts) (hvalue : value.Printed us) (hpairs : PrintedPairs pairs vs) (hne : pairs ≠ []) :
    PrintedPairs ((key, value) :: pairs) (ts ++ .mark .colon :: (us ++ .mark .comma :: vs)) where
  spells := .pairs_cons (hkey.spells.mono (Nat.zero_le _)) (hvalue.spells.mono (Nat.zero_le _)) hpairs.spells
  splits := by
    intro acc rest hends
    rw [List.map_cons, String.intercalate_cons_of_ne_nil (by simpa using hne)]
    simpa using (hkey.pair hvalue).comma hpairs.splits hends

end Expr

mutual

/-- **The text of an expression is split into tokens that spell it.** -/
theorem Expr.printed : ∀ e : Expr, e.isPrintable = true → ∃ ts, e.Printed ts
  | .identifier _, h => ⟨_, Expr.printed_identifier h⟩
  | .integer _, h => ⟨_, Expr.printed_integer (of_decide_eq_true h)⟩
  | .boolean value, _ => ⟨_, Expr.printed_boolean value⟩
  | .string _, h => ⟨_, Expr.printed_string h⟩
  | .array elements, h =>
      have ⟨_, helements⟩ := Expr.all_printed elements h
      ⟨_, helements.array⟩
  | .hash pairs, h =>
      have ⟨_, hpairs⟩ := Expr.pairs_printed pairs h
      ⟨_, hpairs.hash⟩
  | .unary _ operand, h => by
      rw [Expr.isPrintable, Bool.and_eq_true_iff] at h
      obtain ⟨_, hoperand⟩ := operand.printed h.2
      exact ⟨_, hoperand.unary h.1⟩
  | .binary left _ right, h => by
      rw [Expr.isPrintable, Bool.and_eq_true_iff, Bool.and_eq_true_iff] at h
      obtain ⟨_, hleft⟩ := left.printed h.2.1
      obtain ⟨_, hright⟩ := right.printed h.2.2
      exact ⟨_, hleft.binary hright h.1⟩
  | .call callee arguments, h => by
      rw [Expr.isPrintable, Bool.and_eq_true_iff] at h
      obtain ⟨_, hcallee⟩ := callee.printed h.1
      obtain ⟨_, harguments⟩ := Expr.all_printed arguments h.2
      exact ⟨_, hcallee.call harguments⟩
  | .index collection key, h => by
      rw [Expr.isPrintable, Bool.and_eq_true_iff] at h
      obtain ⟨_, hcollection⟩ := collection.printed h.1
      obtain ⟨_, hkey⟩ := key.printed h.2
      exact ⟨_, hcollection.index hkey⟩

/-- Some expressions that can be read again. -/
theorem Expr.all_printed : ∀ es : List Expr, Expr.arePrintable es = true → ∃ ts, Expr.PrintedAll es ts
  | [], _ => ⟨[], .items_nil, fun _ _ _ => rfl⟩
  | [e], h => by
      obtain ⟨ts, he⟩ := e.printed (Bool.and_eq_true_iff.mp h).1
      exact ⟨ts, .items_one (he.spells.mono (Nat.zero_le _)), he.splits⟩
  | e :: e' :: es, h => by
      obtain ⟨h, h'⟩ := Bool.and_eq_true_iff.mp h
      obtain ⟨_, he⟩ := e.printed h
      obtain ⟨_, hes⟩ := Expr.all_printed (e' :: es) h'
      exact ⟨_, he.cons hes (List.cons_ne_nil _ _)⟩

theorem Expr.pairs_printed : ∀ pairs : List (Expr × Expr), Expr.arePrintablePairs pairs = true →
    ∃ ts, Expr.PrintedPairs pairs ts
  | [], _ => ⟨[], .pairs_nil, fun _ _ _ => rfl⟩
  | [(key, value)], h => by
      rw [Expr.arePrintablePairs, Bool.and_eq_true_iff, Bool.and_eq_true_iff] at h
      obtain ⟨_, hkey⟩ := key.printed h.1
      obtain ⟨_, hvalue⟩ := value.printed h.2.1
      exact ⟨_, .pairs_one (hkey.spells.mono (Nat.zero_le _)) (hvalue.spells.mono (Nat.zero_le _)),
        hkey.pair hvalue⟩
  | (key, value) :: pair :: pairs, h => by
      rw [Expr.arePrintablePairs, Bool.and_eq_true_iff, Bool.and_eq_true_iff] at h
      obtain ⟨_, hkey⟩ := key.printed h.1
      obtain ⟨_, hvalue⟩ := value.printed h.2.1
      obtain ⟨_, hpairs⟩ := Expr.pairs_printed (pair :: pairs) h.2.2
      exact ⟨_, .cons hkey hvalue hpairs (List.cons_ne_nil _ _)⟩

end

/-- An expression that can be read again is no function literal and takes no name. -/
theorem Expr.named_of_isPrintable {e : Expr} (h : e.isPrintable = true) (name : String) :
    e.named name = e := by
  cases e with
  | function => cases h
  | _ => rfl

/-- The text of a statement is split into tokens that spell it, with a semicolon or without. -/
theorem Stmt.printed : ∀ s : Stmt, s.isPrintable = true →
    ∃ ts, tokenize s.text = .ok ts ∧ Spells (.stmts [s]) ts
  | .let name value, h => by
      rw [isPrintable, Bool.and_eq_true_iff] at h
      obtain ⟨ts, hvalue⟩ := value.printed h.2
      have htext : (Stmt.let name value).text.toList =
          ['l', 'e', 't'] ++ ' ' :: (name.toList ++ ' ' :: '=' :: ' ' :: (value.text.toList ++ [';'])) := by
        simp [text]
      have hspells : Spells (.stmt (.let name (value.named name))) _ :=
        .let (hvalue.spells.mono (Nat.zero_le _))
      rw [Expr.named_of_isPrintable h.2] at hspells
      refine ⟨_, ?_, .stmts_semicolon hspells .stmts_nil⟩
      rw [tokenize, htext, tokens_keyword (List.cons_ne_nil _ _) rfl rfl (ends_cons ⟨rfl, rfl⟩ _), tokens_blank,
        splits_name h.1 (ends_cons ⟨rfl, rfl⟩ _), tokens_blank, tokens_assign,
        hvalue.splits (ends_cons ⟨rfl, rfl⟩ _), tokens_mark rfl (by decide), tokens_nil]
      simp
  | .return none, _ => by
      have htext : (Stmt.return none).text.toList = ['r', 'e', 't', 'u', 'r', 'n'] ++ [';'] := rfl
      refine ⟨_, ?_, .stmts_semicolon .return_none .stmts_nil⟩
      rw [tokenize, htext, tokens_keyword (List.cons_ne_nil _ _) rfl rfl (ends_cons ⟨rfl, rfl⟩ _),
        tokens_mark rfl (by decide), tokens_nil]
      rfl
  | .return (some value), h => by
      obtain ⟨ts, hvalue⟩ := value.printed h
      have htext : (Stmt.return (some value)).text.toList =
          ['r', 'e', 't', 'u', 'r', 'n'] ++ ' ' :: (value.text.toList ++ [';']) := by simp [text]
      refine ⟨_, ?_, .stmts_semicolon (.return_some (hvalue.spells.mono (Nat.zero_le _))) .stmts_nil⟩
      rw [tokenize, htext, tokens_keyword (List.cons_ne_nil _ _) rfl rfl (ends_cons ⟨rfl, rfl⟩ _), tokens_blank,
        hvalue.splits (ends_cons ⟨rfl, rfl⟩ _), tokens_mark rfl (by decide), tokens_nil]
      simp
  | .expr value, h => by
      obtain ⟨ts, hvalue⟩ := value.printed h
      have htokens := @hvalue.splits [] _ ends_nil
      rw [List.append_nil, List.append_nil, tokens_nil, List.reverse_reverse] at htokens
      refine ⟨ts ++ [], by rw [List.append_nil]; exact htokens, ?_⟩
      exact .stmts_cons (fun _ => rfl) (by simp) (.expr (hvalue.spells.mono (Nat.zero_le _))) .stmts_nil

/-- **Reading is inverse to printing.** A statement that the text shows is read from its text as it was. -/
theorem Program.ofSource_text {s : Stmt} (h : s.isPrintable = true) : Program.ofSource s.text = .ok [s] := by
  obtain ⟨ts, htokens, hspells⟩ := s.printed h
  rw [ofSource, htokens]
  show (ofTokens ts).mapError SourceError.malformed = _
  rw [ofTokens_of_spells hspells]
  rfl

/-- The statement `let total = (table[(1 + (-2))])("a b", true);`, as its text is. -/
theorem Program.ofSource_text_let :
    let s := Stmt.let "total" (.call (.index (.identifier "table")
      (.binary (.integer 1) .plus (.unary .minus (.integer 2)))) [.string "a b", .boolean true])
    s.isPrintable = true ∧ Program.ofSource s.text = .ok [s] :=
  have h := by decide
  ⟨h, ofSource_text h⟩

end ScriptLang
