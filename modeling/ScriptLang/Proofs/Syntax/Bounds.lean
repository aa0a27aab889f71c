import Mathlib.Logic.Function.Iterate
import ScriptLang.Proofs.Syntax.Reading

/-!
# Bounds of the parser

Every parser takes a bound on its recursion, and one level of the recursion is `Parse.Parsers.unfold`. A parser
takes tokens off the front or leaves them where they are (`Parse.Drops`), and so the recursion is over before there
are more levels than tokens: what stands at the bottom is never asked (`Parse.Parsers.Alike`). Main statements:

* `Parse.statement_drops` — a statement takes at least one token, even if it is malformed;
* `Parse.statement_unfold` — below more levels than tokens any parsers may stand;
* `Parse.expression_bound` — no bound of at least the number of tokens matters;
* `Program.read_of_ok` and `Program.read_of_error` — a program is read statement by statement.
-/

namespace ScriptLang

namespace Parse

variable {α β : Type} {x y : Parse α} {f g : α → Parse β} {k n m : Nat} {tokens rest : List Token}

/-! ## Tokens that are taken

What a parser leaves is a suffix of what it was given. That alone bounds the length of what is left, and both
facts compose along the steps of a parser. -/

/-- The tokens that are left, after a success or a failure. -/
def left : EStateM.Result ParseError (List Token) α → List Token
  | .ok _ rest | .error _ rest => rest

/-- A parser takes tokens off the front, at least `k` if there are that many, whether it succeeds or fails. -/
def Drops (k : Nat) (x : Parse α) : Prop := ∀ tokens, left (x tokens) <:+ tokens.drop k

namespace Drops

theorem length_le (h : Drops k x) (tokens : List Token) : (left (x tokens)).length ≤ tokens.length - k :=
  Nat.le_trans (h tokens).length_le (Nat.le_of_eq List.length_drop)

theorem weaken (h : Drops k x) : Drops 0 x := fun tokens => (h tokens).trans (List.drop_suffix k tokens)

theorem pure (a : α) : Drops 0 (pure a : Parse α) := fun tokens => List.suffix_refl tokens

theorem throw (e : ParseError) : Drops 0 (throw e : Parse α) := fun tokens => List.suffix_refl tokens

theorem bind (hx : Drops k x) (hf : ∀ a, Drops 0 (f a)) : Drops k (x >>= f) := by
  intro tokens
  have hk := hx tokens
  rw [bind_apply]
  cases hr : x tokens with
  | ok a mid =>
      rw [hr] at hk
      exact (hf a mid).trans hk
  | error e mid =>
      rw [hr] at hk
      exact hk

/-- A look takes nothing, so the tokens must be taken behind it. -/
theorem peek_bind {f : Token → Parse β} (hf : ∀ t, Drops k (f t)) : Drops k (peek >>= f) := by
  intro tokens
  rw [Parse.peek_bind]
  exact hf _ tokens

theorem ite {p : Prop} [Decidable p] (hx : Drops k x) (hy : Drops k y) : Drops k (if p then x else y) := by
  split
  · exact hx
  · exact hy

end Drops

/-- Reading takes one token, and none only where there is none. -/
theorem read_drops : Drops 1 read := by
  intro tokens
  cases tokens with
  | nil => exact List.suffix_refl []
  | cons t rest => exact List.suffix_refl rest

theorem discard_read_drops : Drops 1 (discard read) := read_drops.bind fun _ => .pure _

theorem expect_drops (m : Mark) : Drops 1 (expect m) := by
  unfold expect
  exact read_drops.bind fun _ => .ite (.pure _) (.throw _)

theorem skipSemicolon_drops : Drops 0 skipSemicolon := by
  unfold skipSemicolon
  exact .peek_bind fun _ => .ite discard_read_drops.weaken (.pure _)

/-- Parameters are taken off the front, up to the first token that is out of place. -/
theorem parameters_drops (acc : List String) : Drops 0 (parameters acc) := by
  intro tokens
  fun_induction parameters acc tokens with
  | case1 acc name rest ih => exact ih.trans (List.suffix_append [Token.identifier name, .mark .comma] rest)
  | case2 acc name rest => exact List.suffix_append [.identifier name, .mark .rightParen] rest
  | case3 acc name found rest => exact List.suffix_append [.identifier name, found] rest
  | case4 => exact List.nil_suffix
  | case5 acc found rest => exact List.suffix_cons found rest
  | case6 => exact List.nil_suffix

theorem parameterList_drops : Drops 1 parameterList := by
  unfold parameterList
  apply (expect_drops .leftParen).bind
  intro _
  apply Drops.peek_bind
  intro _
  apply Drops.ite
  · exact discard_read_drops.weaken.bind fun _ => .pure _
  · exact parameters_drops []

section

variable {expression : Precedence → Parse Expr} {block : Parse (List Stmt)}
  {elements : Mark → Parse (List Expr)} {pairs : Parse (List (Expr × Expr))}

/-- An operand takes at least the token that says what kind of operand it is. -/
theorem operand_drops (hexpression : ∀ p, Drops 0 (expression p)) (hblock : Drops 0 block)
    (helements : ∀ close, Drops 0 (elements close)) (hpairs : Drops 0 pairs) :
    Drops 1 (operand expression block elements pairs) := by
  have hexpect : ∀ m, Drops 0 (expect m) := fun m => (expect_drops m).weaken
  unfold operand
  apply read_drops.bind
  intro token
  cases token with
  | identifier | integer | string => exact .pure _
  | keyword k =>
      cases k with
      | true | false => exact .pure _
      | «if» =>
          apply (hexpect _).bind
          intro _
          apply (hexpression _).bind
          intro condition
          apply (hexpect _).bind
          intro _
          apply hblock.bind
          intro consequence
          apply Drops.peek_bind
          intro _
          apply Drops.ite
          · apply discard_read_drops.weaken.bind
            exact fun _ => hblock.bind fun _ => .pure _
          · exact .pure _
      | fn =>
          apply parameterList_drops.weaken.bind
          exact fun _ => hblock.bind fun _ => .pure _
      | _ => exact .throw _
  | mark m =>
      cases m with
      | bang | minus => exact (hexpression _).bind fun _ => .pure _
      | leftParen =>
          apply (hexpression _).bind
          exact fun _ => (hexpect _).bind fun _ => .pure _
      | leftBracket => exact (helements _).bind fun _ => .pure _
      | leftBrace => exact hpairs.bind fun _ => .pure _
      | _ => exact .throw _
  | _ => exact .throw _

/-- A statement takes a token if each expression does. -/
theorem statement_drops (hexpression : ∀ p, Drops 1 (expression p)) : Drops 1 (statement expression) := by
  have hvalue : ∀ f : Expr → Stmt, Drops 1 (do
      let value ← expression .lowest
      skipSemicolon
      return f value) := by
    intro f
    apply (hexpression _).bind
    exact fun _ => skipSemicolon_drops.bind fun _ => .pure _
  unfold statement
  apply Drops.peek_bind
  intro token
  split
  · apply discard_read_drops.bind
    intro _
    apply read_drops.weaken.bind
    intro found
    dsimp only
    split
    · apply (expect_drops _).weaken.bind
      exact fun _ => (hvalue _).weaken
    · apply (Drops.throw _).bind
      intro name
      apply (expect_drops _).weaken.bind
      exact fun _ => (hvalue _).weaken
  · apply discard_read_drops.bind
    intro _
    apply Drops.peek_bind
    intro next
    apply Drops.ite
    · exact skipSemicolon_drops.bind fun _ => .pure _
    · exact (hvalue _).weaken
  · exact hvalue _

end

/-! ## One level of the recursion

The parsers call each other in a circle, each call with a bound that is smaller by one. `Parsers` gathers what
one level asks of the next one, and `Parsers.unfold` is one level by itself. Facts about all bounds are then
proved by showing that one level keeps them. -/

/-- The parsers that read each other. -/
structure Parsers where
  /-- An expression whose operators bind tighter than a precedence. -/
  expression : Precedence → Parse Expr
  /-- What goes on behind an expression by such operators. -/
  operators : Precedence → Expr → Parse Expr
  /-- The expressions of a list behind those that are found, last one first. -/
  elements : Mark → List Expr → Parse (List Expr)
  /-- The pairs of a hash literal behind those that are found, last one first. -/
  pairs : List (Expr × Expr) → Parse (List (Expr × Expr))
  /-- A block in braces. -/
  block : Parse (List Stmt)
  /-- The statements of a block behind those that are found, last one first. -/
  statements : List Stmt → Parse (List Stmt)

namespace Parsers

section

variable (P : Parsers)

/-- An operand whose parts are read by certain parsers. -/
def operand : Parse Expr := Parse.operand P.expression P.block (P.elements · []) (P.pairs [])

/-- An operand with the operators behind it. -/
def whole (p : Precedence) : Parse Expr := do
  let left ← P.operand
  P.operators p left

/-- The parsers one level up: they read as the language says, and have `P` read what stands inside. -/
def unfold : Parsers where
  expression := P.whole
  operators p left := do
    let next ← peek
    if p < next.precedence then
      match next with
      | .mark .leftParen =>
        discard read
        let arguments ← P.elements .rightParen []
        P.operators p (.call left arguments)
      | .mark .leftBracket =>
        discard read
        let key ← P.expression .lowest
        expect .rightBracket
        P.operators p (.index left key)
      | _ =>
        match next.binaryOperator? with
        | some operator =>
          discard read
          let right ← P.expression next.precedence
          P.operators p (.binary left operator right)
        | none => return left
    else
      return left
  elements close acc := do
    if acc.isEmpty ∧ (← peek) = .mark close then
      discard read
      return []
    let left ← P.operand
    let element ← P.operators .lowest left
    let next ← read
    if next = .mark .comma then
      P.elements close (element :: acc)
    else if next = .mark close then
      return (element :: acc).reverse
    else
      throw (.expectedListEnd close next)
  pairs acc := do
    if (← peek) = .mark .rightBrace then
      discard read
      return acc.reverse
    let left ← P.operand
    let key ← P.operators .lowest left
    expect .colon
    let value ← P.expression .lowest
    unless (← peek) = .mark .rightBrace do
      expect .comma
    P.pairs ((key, value) :: acc)
  block := do
    expect .leftBrace
    P.statements []
  statements acc := do
    match ← peek with
    | .mark .rightBrace =>
      discard read
      return acc.reverse
    | .endOfFile => throw .unclosedBlock
    | _ =>
      let s ← statement P.whole
      P.statements (s :: acc)

/-- The parsers with a certain bound. -/
def bounded (n : Nat) : Parsers where
  expression := Parse.expression n
  operators := Parse.operators n
  elements := Parse.elements n
  pairs := Parse.pairs n
  block := Parse.block n
  statements := Parse.statements n

/-- A bound counts the levels. -/
theorem bounded_succ (n : Nat) : bounded (n + 1) = (bounded n).unfold := rfl

end

variable {P Q : Parsers}

/-- None of the parsers puts tokens back. -/
structure Reads (P : Parsers) : Prop where
  expression : ∀ p, Drops 0 (P.expression p)
  operators : ∀ p left, Drops 0 (P.operators p left)
  elements : ∀ close acc, Drops 0 (P.elements close acc)
  pairs : ∀ acc, Drops 0 (P.pairs acc)
  block : Drops 0 P.block
  statements : ∀ acc, Drops 0 (P.statements acc)

namespace Reads

theorem zero : (bounded 0).Reads where
  expression := fun _ => .throw _
  operators := fun _ _ => .pure _
  elements := fun _ _ => .throw _
  pairs := fun _ => .throw _
  block := .throw _
  statements := fun _ => .throw _

theorem operand (h : P.Reads) : Drops 1 P.operand :=
  operand_drops h.expression h.block (fun close => h.elements close []) (h.pairs [])

/-- An expression is an operand and the operators behind it, and it takes at least the operand. -/
theorem whole (h : P.Reads) (p : Precedence) : Drops 1 (P.whole p) :=
  h.operand.bind fun left => h.operators p left

/-- Operators, calls and indexing behind an operand. -/
theorem unfold_operators (h : P.Reads) (p : Precedence) (left : Expr) : Drops 0 (P.unfold.operators p left) := by
  have hskip : Drops 0 (discard read) := discard_read_drops.weaken
  apply Drops.peek_bind
  intro next
  apply Drops.ite
  · split
    · apply hskip.bind
      exact fun _ => (h.elements _ _).bind fun _ => h.operators _ _
    · apply hskip.bind
      intro _
      apply (h.expression _).bind
      intro key
      apply (expect_drops _).weaken.bind
      exact fun _ => h.operators _ _
    · split
      · apply hskip.bind
        exact fun _ => (h.expression _).bind fun _ => h.operators _ _
      · exact .pure _
  · exact .pure _

/-- Elements of an array and arguments of a call. -/
theorem unfold_elements (h : P.Reads) (close : Mark) (acc : List Expr) : Drops 0 (P.unfold.elements close acc) := by
  apply Drops.peek_bind
  intro token
  apply Drops.ite
  · exact discard_read_drops.weaken.bind fun _ => .pure _
  · apply h.operand.weaken.bind
    intro left
    apply (h.operators _ _).bind
    intro element
    apply read_drops.weaken.bind
    intro next
    apply Drops.ite
    · exact h.elements _ _
    · exact .ite (.pure _) (.throw _)

theorem unfold_pairs (h : P.Reads) (acc : List (Expr × Expr)) : Drops 0 (P.unfold.pairs acc) := by
  have hexpect : ∀ m, Drops 0 (expect m) := fun m => (expect_drops m).weaken
  apply Drops.peek_bind
  intro token
  apply Drops.ite
  · exact discard_read_drops.weaken.bind fun _ => .pure _
  · apply h.operand.weaken.bind
    intro left
    apply (h.operators _ _).bind
    intro key
    apply (hexpect _).bind
    intro _
    apply (h.expression _).bind
    intro value
    apply Drops.peek_bind
    intro next
    apply Drops.ite
    · exact h.pairs _
    · exact (hexpect _).bind fun _ => h.pairs _

theorem unfold_statements (h : P.Reads) (acc : List Stmt) : Drops 0 (P.unfold.statements acc) := by
  apply Drops.peek_bind
  intro token
  split
  · exact discard_read_drops.weaken.bind fun _ => .pure _
  · exact .throw _
  · apply (statement_drops h.whole).weaken.bind
    exact fun s => h.statements _

theorem unfold (h : P.Reads) : P.unfold.Reads where
  expression p := (h.whole p).weaken
  operators := h.unfold_operators
  elements := h.unfold_elements
  pairs := h.unfold_pairs
  block := (expect_drops _).weaken.bind fun _ => h.statements []
  statements := h.unfold_statements

end Reads

theorem reads : ∀ n : Nat, (bounded n).Reads
  | 0 => .zero
  | n + 1 => bounded_succ n ▸ (reads n).unfold

end Parsers

/-- An expression takes at least one token, even if it is malformed. -/
theorem expression_drops (n : Nat) (p : Precedence) : Drops 1 (expression (n + 1) p) := (Parsers.reads n).whole p

/-! ## Bounds that are large enough

By induction on the number of tokens `n`: parsers whose bounds are large enough agree on `n` tokens, since
everything that is asked of the level below comes behind at least one token and is asked of at most `n - 1` of
them (`Agree.bind`). -/

/-- Two parsers give the same answer on at most `n` tokens. -/
def Agree (n : Nat) (x y : Parse α) : Prop := ∀ tokens, tokens.length ≤ n → x tokens = y tokens

namespace Agree

theorem refl (n : Nat) (x : Parse α) : Agree n x x := fun _ _ => rfl

/-- What comes behind has fewer tokens to agree on. -/
theorem bind (hx : Agree n x y) (hdrops : Drops k x) (hf : ∀ a, Agree (n - k) (f a) (g a)) :
    Agree n (x >>= f) (y >>= g) := by
  intro tokens hlength
  have hk := hdrops.length_le tokens
  rw [bind_apply, bind_apply, ← hx tokens hlength]
  cases hr : x tokens with
  | ok a mid =>
      rw [hr] at hk
      exact hf a mid (Nat.le_trans hk (Nat.sub_le_sub_right hlength k))
  | error e mid => rfl

/-- The same parser in front. -/
theorem behind (hx : Drops k x) (hf : ∀ a, Agree (n - k) (f a) (g a)) : Agree n (x >>= f) (x >>= g) :=
  (refl n x).bind hx hf

/-- What comes behind a look must agree on as many tokens. -/
theorem peek_bind {f g : Token → Parse β} (hf : ∀ t, Agree n (f t) (g t)) :
    Agree n (peek >>= f) (peek >>= g) := by
  intro tokens hlength
  rw [Parse.peek_bind, Parse.peek_bind]
  exact hf _ tokens hlength

theorem ite {p : Prop} [Decidable p] {x' y' : Parse α} (hx : Agree n x y) (hy : Agree n x' y') :
    Agree n (if p then x else x') (if p then y else y') := by
  split
  · exact hx
  · exact hy

end Agree

section

variable {e e' : Precedence → Parse Expr} {b b' : Parse (List Stmt)} {l l' : Mark → Parse (List Expr)}
  {ps ps' : Parse (List (Expr × Expr))}

/-- Operands agree on one token more than what stands inside of them. -/
theorem operand_agree (he : ∀ p, Agree n (e p) (e' p)) (hb : Agree n b b')
    (hl : ∀ close, Agree n (l close) (l' close)) (hps : Agree n ps ps') (hedrops : ∀ p, Drops 0 (e p))
    (hbdrops : Drops 0 b) (hldrops : ∀ close, Drops 0 (l close)) (hpsdrops : Drops 0 ps) :
    Agree (n + 1) (operand e b l ps) (operand e' b' l' ps') := by
  unfold operand
  apply Agree.behind read_drops
  intro token
  cases token with
  | identifier | integer | string => exact .refl _ _
  | keyword k =>
      cases k with
      | true | false => exact .refl _ _
      | «if» =>
          apply Agree.behind (expect_drops _).weaken
          intro _
          apply (he _).bind (hedrops _)
          intro condition
          apply Agree.behind (expect_drops _).weaken
          intro _
          apply hb.bind hbdrops
          intro consequence
          apply Agree.peek_bind
          intro next
          apply Agree.ite
          · apply Agree.behind discard_read_drops.weaken
            exact fun _ => hb.bind hbdrops fun _ => .refl _ _
          · exact .refl _ _
      | fn =>
          apply Agree.behind parameterList_drops.weaken
          exact fun _ => hb.bind hbdrops fun _ => .refl _ _
      | _ => exact .refl _ _
  | mark m =>
      cases m with
      | bang | minus => exact (he _).bind (hedrops _) fun _ => .refl _ _
      | leftParen => exact (he _).bind (hedrops _) fun _ => .refl _ _
      | leftBracket => exact (hl _).bind (hldrops _) fun _ => .refl _ _
      | leftBrace => exact hps.bind hpsdrops fun _ => .refl _ _
      | _ => exact .refl _ _
  | _ => exact .refl _ _

/-- Statements agree on as many tokens as expressions do. -/
theorem statement_agree (he : ∀ p, Agree n (e p) (e' p)) (hedrops : ∀ p, Drops 0 (e p)) :
    Agree n (statement e) (statement e') := by
  have hvalue : ∀ f : Expr → Stmt, Agree n
      (do
        let value ← e .lowest
        skipSemicolon
        return f value)
      (do
        let value ← e' .lowest
        skipSemicolon
        return f value) := fun f => (he _).bind (hedrops _) fun _ => .refl _ _
  unfold statement
  apply Agree.peek_bind
  intro token
  split
  · apply Agree.behind discard_read_drops.weaken
    intro _
    apply Agree.behind read_drops.weaken
    intro found
    dsimp only
    split
    · exact Agree.behind (x := expect _) (expect_drops _).weaken fun _ => hvalue _
    · exact fun _ _ => rfl
  · apply Agree.behind discard_read_drops.weaken
    intro _
    apply Agree.peek_bind
    intro next
    exact .ite (.refl _ _) (hvalue _)
  · exact hvalue _

end

namespace Parsers

variable {P Q : Parsers}

/-- Two families of parsers give the same answers on at most `n` tokens. -/
structure Alike (n : Nat) (P Q : Parsers) : Prop where
  expression : ∀ p, Agree n (P.expression p) (Q.expression p)
  operators : ∀ p left, Agree n (P.operators p left) (Q.operators p left)
  elements : ∀ close acc, Agree n (P.elements close acc) (Q.elements close acc)
  pairs : ∀ acc, Agree n (P.pairs acc) (Q.pairs acc)
  block : Agree n P.block Q.block
  statements : ∀ acc, Agree n (P.statements acc) (Q.statements acc)

namespace Alike

/-- Parsers agree on no token if they give the same answer at the end of the file. -/
theorem agree_zero (h : x [] = y []) : Agree 0 x y := by
  intro tokens hlength
  rw [List.eq_nil_of_length_eq_zero (Nat.le_zero.mp hlength), h]

/-- The bound `0` answers as any parsers do at the end of the file. -/
theorem zero (P : Parsers) : Alike 0 (bounded 0) P.unfold where
  expression := fun p => agree_zero rfl
  operators := fun p left => agree_zero (by cases p <;> rfl)
  elements := fun close acc => agree_zero (by cases acc <;> rfl)
  pairs := fun acc => agree_zero rfl
  block := agree_zero rfl
  statements := fun acc => agree_zero rfl

theorem operand (hP : P.Reads) (h : Alike n P Q) : Agree (n + 1) P.operand Q.operand :=
  operand_agree h.expression h.block (fun close => h.elements close []) (h.pairs []) hP.expression
    hP.block (fun close => hP.elements close []) (hP.pairs [])

theorem whole (hP : P.Reads) (h : Alike n P Q) (p : Precedence) : Agree (n + 1) (P.whole p) (Q.whole p) :=
  (h.operand hP).bind hP.operand fun left => h.operators p left

/-- Operators, calls and indexing agree on one token more. -/
theorem unfold_operators (hP : P.Reads) (h : Alike n P Q) (p : Precedence) (left : Expr) :
    Agree (n + 1) (P.unfold.operators p left) (Q.unfold.operators p left) := by
  apply Agree.peek_bind
  intro next
  apply Agree.ite
  · split
    · apply Agree.behind discard_read_drops
      intro _
      exact (h.elements _ _).bind (hP.elements _ _) fun _ => h.operators _ _
    · apply Agree.behind discard_read_drops
      intro _
      apply (h.expression _).bind (hP.expression _)
      intro key
      apply Agree.behind (expect_drops _).weaken
      exact fun _ => h.operators _ _
    · split
      · apply Agree.behind discard_read_drops
        intro _
        exact (h.expression _).bind (hP.expression _) fun _ => h.operators _ _
      · exact .refl _ _
  · exact .refl _ _

/-- Elements and arguments agree on one token more: each element takes a token. -/
theorem unfold_elements (hP : P.Reads) (h : Alike n P Q) (close : Mark) (acc : List Expr) :
    Agree (n + 1) (P.unfold.elements close acc) (Q.unfold.elements close acc) := by
  apply Agree.peek_bind
  intro token
  apply Agree.ite
  · exact .refl _ _
  · apply (h.operand hP).bind hP.operand
    intro left
    apply (h.operators _ _).bind (hP.operators _ _)
    intro element
    apply Agree.behind read_drops.weaken
    intro next
    apply Agree.ite
    · exact h.elements _ _
    · exact .refl _ _

/-- Pairs agree on one token more: each key takes a token. -/
theorem unfold_pairs (hP : P.Reads) (h : Alike n P Q) (acc : List (Expr × Expr)) :
    Agree (n + 1) (P.unfold.pairs acc) (Q.unfold.pairs acc) := by
  apply Agree.peek_bind
  intro token
  apply Agree.ite
  · exact .refl _ _
  · apply (h.operand hP).bind hP.operand
    intro left
    apply (h.operators _ _).bind (hP.operators _ _)
    intro key
    apply Agree.behind (expect_drops _).weaken
    intro _
    apply (h.expression _).bind (hP.expression _)
    intro value
    apply Agree.peek_bind
    intro next
    apply Agree.ite
    · exact h.pairs _
    · exact .behind (expect_drops _).weaken fun _ => h.pairs _

/-- Statements of a block agree on one token more: each statement takes a token. -/
theorem unfold_statements (hP : P.Reads) (h : Alike n P Q) (acc : List Stmt) :
    Agree (n + 1) (P.unfold.statements acc) (Q.unfold.statements acc) := by
  apply Agree.peek_bind
  intro token
  split
  · exact .refl _ _
  · exact .refl _ _
  · apply (statement_agree (h.whole hP) fun p => (hP.whole p).weaken).bind (statement_drops hP.whole)
    exact fun s => h.statements _

/-- Every path down to the next level takes a token first. -/
theorem unfold (hP : P.Reads) (h : Alike n P Q) : Alike (n + 1) P.unfold Q.unfold where
  expression := h.whole hP
  operators := h.unfold_operators hP
  elements := h.unfold_elements hP
  pairs := h.unfold_pairs hP
  block := Agree.behind (expect_drops _) fun _ => h.statements []
  statements := h.unfold_statements hP

end Alike

/-- Levels above any parsers read as the bounded ones, if there are more of them than tokens. -/
theorem alike (P : Parsers) : ∀ n : Nat, Alike n (bounded n) (unfold^[n + 1] P)
  | 0 => .zero P
  | n + 1 => by
    rw [Function.iterate_succ_apply', bounded_succ]
    exact (alike P n).unfold (reads n)

end Parsers

open Parsers in
/-- **Bounds**: whatever the bound is, an expression is read in the same way if there are not more tokens. -/
theorem expression_bound (p : Precedence) (hn : tokens.length ≤ n) (hm : tokens.length ≤ m) :
    expression n p tokens = expression m p tokens := by
  -- one family of parsers is enough levels above some bottom for both bounds
  have hsame : unfold^[n + 1] (unfold^[m] (bounded 0)) = unfold^[m + 1] (unfold^[n] (bounded 0)) := by
    rw [← Function.iterate_add_apply, ← Function.iterate_add_apply]
    congr 1
    omega
  have hn := (alike (unfold^[m] (bounded 0)) n).expression p tokens hn
  have hm := (alike (unfold^[n] (bounded 0)) m).expression p tokens hm
  rw [hsame] at hn
  exact hn.trans hm.symm

/-- No bound of at least the number of tokens matters to a statement. -/
theorem statement_bound (hn : tokens.length ≤ n) (hm : tokens.length ≤ m) :
    statement (expression n) tokens = statement (expression m) tokens := by
  have hagree : Agree tokens.length (statement (expression n)) (statement (expression m)) := by
    apply statement_agree
    · intro p rest hrest
      exact expression_bound p (Nat.le_trans hrest hn) (Nat.le_trans hrest hm)
    · exact (Parsers.reads n).expression
  exact hagree tokens (Nat.le_refl _)

/-- **The bottom is never asked**: below more levels of the recursion than there are tokens any parsers may
stand, and a statement is read in the same way. -/
theorem statement_unfold (P : Parsers) (hn : tokens.length ≤ n) :
    statement (Parsers.unfold^[n + 1] P).expression tokens = statement (expression n) tokens := by
  have hagree : Agree n (statement (expression n)) (statement (Parsers.unfold^[n + 1] P).expression) :=
    statement_agree (Parsers.alike P n).expression (Parsers.reads n).expression
  exact (hagree tokens hn).symm

/-! ## Whole programs

A program is read in rounds, each of which leaves fewer tokens. So the bound on the number of rounds does not
matter either, and reading satisfies equations without bounds. -/

/-- The tokens of a malformed statement are skipped from the front. -/
theorem synchronize_suffix (tokens : List Token) : synchronize tokens <:+ tokens := by
  induction tokens with
  | nil => exact List.suffix_refl []
  | cons t rest ih =>
      rw [synchronize]
      split
      · exact List.suffix_cons t rest
      · exact ih.trans (List.suffix_cons t rest)

theorem length_synchronize_le (tokens : List Token) : (synchronize tokens).length ≤ tokens.length :=
  (synchronize_suffix tokens).length_le

/-- One round: a statement is read, or the tokens of a malformed one are skipped. -/
theorem program_round {t : Token} (ht : t ≠ .endOfFile) (hn : rest.length ≤ n) (found : List Stmt)
    (errors : List ParseError) : program (n + 1) found errors (t :: rest) =
      match statement (expression (rest.length + 1)) (t :: rest) with
      | .ok s mid => program n (s :: found) errors mid
      | .error e mid => program n found (e :: errors) (synchronize mid) := by
  have hsame : statement (expression (n + 1)) (t :: rest) = statement (expression (rest.length + 1)) (t :: rest) :=
    statement_bound (Nat.succ_le_succ hn) (Nat.le_refl _)
  rw [← hsame]
  cases t with
  | endOfFile => exact absurd rfl ht
  | _ => rfl

/-- What is left behind a statement is part of what stands behind its first token. -/
theorem left_statement_suffix (t : Token) (rest : List Token) :
    left (statement (expression (rest.length + 1)) (t :: rest)) <:+ rest :=
  statement_drops (expression_drops rest.length) (t :: rest)

theorem length_left_statement_le (t : Token) (rest : List Token) :
    (left (statement (expression (rest.length + 1)) (t :: rest))).length ≤ rest.length :=
  (left_statement_suffix t rest).length_le

end Parse

open Parse

namespace Program

variable {n : Nat} {tokens mid : List Token} {s : Stmt} {e : ParseError}

/-- **Reading** does not depend on the bound, nor on what has been found before. -/
theorem program_eq (hn : tokens.length ≤ n) (found : List Stmt) (errors : List ParseError) :
    Parse.program n found errors tokens =
      ⟨found.reverse ++ (read tokens).statements, errors.reverse ++ (read tokens).errors,
        (read tokens).left⟩ := by
  -- each round leaves fewer tokens
  induction hlength : tokens.length using Nat.strongRecOn generalizing tokens n found errors with
  | ind length ih =>
      cases tokens with
      | nil => simp [read, Parse.program]
      | cons t rest =>
          by_cases ht : t = .endOfFile
          · subst ht
            simp [read, Parse.program]
          · obtain ⟨n, rfl⟩ := Nat.exists_eq_succ_of_ne_zero (Nat.ne_zero_of_lt hn)
            have hn : rest.length ≤ n := Nat.le_of_succ_le_succ hn
            have hleft := length_left_statement_le t rest
            rw [read, List.length_cons, program_round ht hn, program_round ht (Nat.le_refl _)]
            generalize statement (expression (rest.length + 1)) (t :: rest) = r at hleft
            cases r with
            | ok s mid =>
                have hle : mid.length ≤ rest.length := hleft
                have hlt : mid.length < length := by
                  rw [← hlength]
                  exact Nat.lt_succ_of_le hle
                have hfound := ih _ hlt (Nat.le_trans hle hn) (s :: found) errors rfl
                have hread := ih _ hlt hle [s] [] rfl
                simp [hfound, hread]
            | error e mid =>
                have hle : (synchronize mid).length ≤ rest.length :=
                  Nat.le_trans (length_synchronize_le mid) hleft
                have hlt : (synchronize mid).length < length := by
                  rw [← hlength]
                  exact Nat.lt_succ_of_le hle
                have hfound := ih _ hlt (Nat.le_trans hle hn) found (e :: errors) rfl
                have hread := ih _ hlt hle [] [e] rfl
                simp [hfound, hread]

/-- Nothing is read at the end of the file. -/
theorem read_of_end (hnext : nextToken tokens = .endOfFile) : read tokens = ⟨[], [], tokens⟩ := by
  cases tokens with
  | nil => simp [read, Parse.program]
  | cons t rest =>
      cases (hnext : t = .endOfFile)
      simp [read, Parse.program]

/-- A well-formed statement in front of others. -/
theorem read_of_ok (hnext : nextToken tokens ≠ .endOfFile)
    (h : statement (expression tokens.length) tokens = .ok s mid) :
    read tokens = { read mid with statements := s :: (read mid).statements } := by
  cases tokens with
  | nil => exact absurd rfl hnext
  | cons t rest =>
      have ht : t ≠ .endOfFile := hnext
      have hleft := length_left_statement_le t rest
      rw [List.length_cons] at h
      rw [h] at hleft
      rw [read, List.length_cons, program_round ht (Nat.le_refl _), h]
      exact program_eq hleft [s] []

/-- A malformed statement in front of others. -/
theorem read_of_error (hnext : nextToken tokens ≠ .endOfFile)
    (h : statement (expression tokens.length) tokens = .error e mid) :
    read tokens = { read (synchronize mid) with errors := e :: (read (synchronize mid)).errors } := by
  cases tokens with
  | nil => exact absurd rfl hnext
  | cons t rest =>
      have ht : t ≠ .endOfFile := hnext
      have hleft := length_left_statement_le t rest
      rw [List.length_cons] at h
      rw [h] at hleft
      rw [read, List.length_cons, program_round ht (Nat.le_refl _), h]
      exact program_eq (Nat.le_trans (length_synchronize_le mid) hleft) [] [e]

end Program

end ScriptLang
