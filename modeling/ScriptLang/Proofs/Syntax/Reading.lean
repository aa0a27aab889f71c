import ScriptLang.Proofs.Syntax.Grammar

/-!
# Steps of the parser

What a parser does that is made of two, and what the parsers that read single tokens do. Past the end of
the tokens the next token is `Token.endOfFile`.
-/

namespace ScriptLang

/-- The token that comes next. -/
def nextToken (tokens : List Token) : Token := tokens.head?.getD .endOfFile

/-- What is left behind a semicolon, if one comes next. -/
def dropSemicolon : List Token → List Token
  | .mark .semicolon :: rest => rest
  | tokens => tokens

@[simp] theorem nextToken_nil : nextToken [] = .endOfFile := rfl

@[simp] theorem nextToken_cons (t : Token) (rest : List Token) : nextToken (t :: rest) = t := rfl

/-- A token other than the end of the file only comes next if it is there. -/
theorem eq_cons_of_nextToken {tokens : List Token} {t : Token} (h : nextToken tokens = t)
    (ht : t ≠ .endOfFile) : ∃ rest, tokens = t :: rest := by
  cases tokens with
  | nil => exact absurd h.symm ht
  | cons t' rest =>
      cases h
      exact ⟨rest, rfl⟩

/-- Where no semicolon comes next, nothing is skipped. -/
theorem dropSemicolon_of_ne {tokens : List Token} (h : nextToken tokens ≠ .mark .semicolon) :
    dropSemicolon tokens = tokens := by
  unfold dropSemicolon
  split
  · exact absurd rfl h
  · rfl

/-- Skipping a semicolon adds no tokens. -/
theorem length_dropSemicolon_le (tokens : List Token) :
    (dropSemicolon tokens).length ≤ tokens.length := by
  unfold dropSemicolon
  split
  · exact Nat.le_succ _
  · exact Nat.le_refl _

namespace Parse

variable {α β : Type} {x : Parse α} {f : α → Parse β} {tokens rest mid : List Token} {a : α} {b : β}

/-! ## Steps in general

A parser is a step on the tokens that are left. The lemmas come in two directions: what a parser does on
tokens of a known form, and what is known of the tokens of a parser that has succeeded. The first ones read
back what was printed, the second ones say which tokens can be read at all. -/

/-- The second parser reads what the first one leaves, if that succeeds. -/
theorem bind_apply (x : Parse α) (f : α → Parse β) (tokens : List Token) :
    (x >>= f) tokens = match x tokens with
      | .ok a rest => f a rest
      | .error e rest => .error e rest := by
  show EStateM.bind x f tokens = _
  rw [EStateM.bind]
  cases x tokens <;> rfl

theorem bind_of_ok (h : x tokens = .ok a mid) : (x >>= f) tokens = f a mid := by
  rw [bind_apply, h]

/-- Two parsers in a row succeed exactly if both succeed. -/
theorem bind_eq_ok : (x >>= f) tokens = .ok b rest ↔ ∃ a mid, x tokens = .ok a mid ∧ f a mid = .ok b rest := by
  rw [bind_apply]
  cases x tokens with
  | ok a mid =>
      constructor
      · exact fun h => ⟨a, mid, rfl, h⟩
      · rintro ⟨_, _, heq, h⟩
        cases heq
        exact h
  | error e mid => exact iff_of_false nofun fun ⟨_, _, heq, _⟩ => nomatch heq

@[simp] theorem pure_apply (a : α) (tokens : List Token) : (Pure.pure a : Parse α) tokens = .ok a tokens := rfl

theorem pure_eq_ok {a' : α} : (Pure.pure a : Parse α) tokens = .ok a' rest ↔ a = a' ∧ tokens = rest := by
  rw [pure_apply, EStateM.Result.ok.injEq]

theorem not_throw_eq_ok {e : ParseError} : ¬ (throw e : Parse α) tokens = .ok a rest := nofun

/-! ## Single tokens

Looking at a token leaves it there, and reading takes it away. Past the end both answer with the end of the
file, so a token that is known to be another one was really there. -/

@[simp] theorem peek_apply (tokens : List Token) : peek tokens = .ok (nextToken tokens) tokens := by
  cases tokens <;> rfl

/-- What comes behind a look sees the same tokens. -/
theorem peek_bind (f : Token → Parse β) (tokens : List Token) :
    (peek >>= f) tokens = f (nextToken tokens) tokens := bind_of_ok (peek_apply tokens)

@[simp] theorem read_cons (t : Token) (rest : List Token) : read (t :: rest) = .ok t rest := rfl

/-- What comes behind reading a token sees the tokens behind it. -/
theorem read_bind (f : Token → Parse β) (t : Token) (rest : List Token) :
    (read >>= f) (t :: rest) = f t rest := bind_of_ok (read_cons t rest)

/-- Reading gives the next token. Only the end of the file may come of nothing. -/
theorem read_eq_ok {t : Token} (h : read tokens = .ok t rest) :
    t = nextToken tokens ∧ (t ≠ .endOfFile → tokens = t :: rest) := by
  cases tokens with
  | nil =>
      cases h
      exact ⟨rfl, fun hne => absurd rfl hne⟩
  | cons t' rest' =>
      cases h
      exact ⟨rfl, fun _ => rfl⟩

theorem discard_read_bind (f : PUnit → Parse β) (t : Token) (rest : List Token) :
    (discard read >>= f) (t :: rest) = f ⟨⟩ rest := rfl

/-- A token that was seen before it was read away was there, unless it was the end of the file. -/
theorem discard_read_eq_ok {u : PUnit} {t : Token} (h : discard read tokens = .ok u rest)
    (hnext : nextToken tokens = t) (ht : t ≠ .endOfFile) : tokens = t :: rest := by
  obtain ⟨rest', rfl⟩ := eq_cons_of_nextToken hnext ht
  cases h
  rfl

@[simp] theorem expect_cons (m : Mark) (rest : List Token) : expect m (.mark m :: rest) = .ok () rest := by
  unfold expect
  rw [read_bind, if_pos rfl]
  rfl

theorem expect_bind (m : Mark) (f : Unit → Parse β) (rest : List Token) :
    (expect m >>= f) (.mark m :: rest) = f () rest := bind_of_ok (expect_cons m rest)

/-- If an expected mark does not lead to an error, it was there. -/
theorem expect_eq_ok {m : Mark} {u : Unit} (h : expect m tokens = .ok u rest) : tokens = .mark m :: rest := by
  obtain ⟨t, mid, hread, h⟩ := bind_eq_ok.mp h
  obtain ⟨-, htokens⟩ := read_eq_ok hread
  split at h
  · next ht =>
      cases h
      subst ht
      exact htokens Token.noConfusion
  · exact absurd h not_throw_eq_ok

/-- Skipping a semicolon never fails. -/
@[simp] theorem skipSemicolon_apply (tokens : List Token) :
    skipSemicolon tokens = .ok () (dropSemicolon tokens) := by
  unfold skipSemicolon
  rw [peek_bind]
  split
  · next h =>
      obtain ⟨rest, rfl⟩ := eq_cons_of_nextToken h Token.noConfusion
      rfl
  · next h =>
      rw [dropSemicolon_of_ne h]
      rfl

/-- What comes behind sees the tokens without the semicolon. -/
theorem skipSemicolon_bind (f : Unit → Parse β) (tokens : List Token) :
    (skipSemicolon >>= f) tokens = f () (dropSemicolon tokens) := bind_of_ok (skipSemicolon_apply tokens)

/-! ## Parameters

The parameters of a function are the first list of the grammar: names between commas, inside parentheses,
without a comma at the end. They are read with the names that were found so far in hand, last one first. -/

/-- The names that are read are those found so far and those that stand there. -/
theorem parameters_eq_ok (acc names : List String) (tokens rest : List Token) :
    parameters acc tokens = .ok names rest →
      ∃ more, names = acc.reverse ++ more ∧ tokens = parameterTokens more ++ .mark .rightParen :: rest := by
  fun_induction parameters acc tokens with
  | case1 acc name tokens ih =>
      intro h
      obtain ⟨more, rfl, rfl⟩ := ih h
      cases more with
      | nil => cases h
      | cons name' more => exact ⟨name :: name' :: more, by simp, rfl⟩
  | case2 acc name tokens =>
      intro h
      cases h
      exact ⟨[name], List.reverse_cons, rfl⟩
  | case3 | case4 | case5 | case6 => nofun

/-- Names that stand there are read, up to the closing parenthesis. -/
theorem parameters_tokens (acc : List String) (rest : List Token) : ∀ names : List String, names ≠ [] →
    parameters acc (parameterTokens names ++ .mark .rightParen :: rest) = .ok (acc.reverse ++ names) rest
  | [], h => absurd rfl h
  | [name], _ => by simp [parameterTokens, parameters]
  | name :: name' :: names, _ => by
      have ih := parameters_tokens (name :: acc) rest (name' :: names) (List.cons_ne_nil _ _)
      simpa [parameterTokens, parameters] using ih

/-- Behind the opening parenthesis, either the list ends at once or it has a first name. -/
theorem parameterList_apply (rest : List Token) : parameterList (.mark .leftParen :: rest) =
    if nextToken rest = .mark .rightParen then .ok [] rest.tail else parameters [] rest := by
  unfold parameterList
  rw [expect_bind, peek_bind]
  by_cases h : nextToken rest = .mark .rightParen
  · obtain ⟨rest', rfl⟩ := eq_cons_of_nextToken h Token.noConfusion
    rfl
  · rw [if_neg h]
    exact congrFun (if_neg h) rest

/-- **What is read as parameters** are names between commas in parentheses. -/
theorem parameterList_eq_ok {names : List String} (h : parameterList tokens = .ok names rest) :
    tokens = enclosed .leftParen (parameterTokens names) .rightParen ++ rest := by
  obtain ⟨⟨⟩, mid, hopen, -⟩ := bind_eq_ok.mp h
  obtain rfl := expect_eq_ok hopen
  rw [parameterList_apply] at h
  split at h
  · next hnext =>
      obtain ⟨rest', rfl⟩ := eq_cons_of_nextToken hnext Token.noConfusion
      cases h
      rfl
  · obtain ⟨more, rfl, rfl⟩ := parameters_eq_ok _ _ _ _ h
    simp [enclosed]

/-- **Such names** are read as parameters. -/
theorem parameterList_tokens (names : List String) (rest : List Token) :
    parameterList (enclosed .leftParen (parameterTokens names) .rightParen ++ rest) = .ok names rest := by
  rw [enclosed, List.cons_append, parameterList_apply, List.append_assoc]
  cases names with
  | nil => rfl
  | cons name names =>
      rw [if_neg (by cases names <;> exact Token.noConfusion)]
      exact parameters_tokens [] rest (name :: names) (List.cons_ne_nil _ _)

end Parse

end ScriptLang
