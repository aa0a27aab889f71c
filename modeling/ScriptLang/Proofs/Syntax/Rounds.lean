import ScriptLang.Proofs.Syntax.Bounds

/-!
# The rounds in which a program is read

A program is read in rounds up to the end of the file. Each round reads a statement, or finds it malformed and
skips what belongs to it (`Parse.Rounds`), and as either takes a token, the rounds are over before the tokens are.
Main statement: `Program.read_in_rounds`.
-/

namespace ScriptLang

namespace Parse

/-- A round that has been made. -/
structure Round where
  /-- The tokens that it takes. -/
  taken : List Token
  /-- The statement that it reads, or the error that it finds. -/
  result : Except ParseError Stmt

namespace Round

/-- The statement that a round reads. -/
def statement? (r : Round) : Option Stmt :=
  match r.result with
  | .ok s => some s
  | .error _ => none

/-- The error that a round finds. -/
def error? (r : Round) : Option ParseError :=
  match r.result with
  | .ok _ => none
  | .error e => some e

theorem error?_eq_some_iff {r : Round} {e : ParseError} : r.error? = some e ↔ r.result = .error e := by
  unfold error?
  cases r.result <;> simp

/-- Every round comes to a statement or to an error. -/
theorem length_statements_add_errors (rounds : List Round) :
    (rounds.filterMap statement?).length + (rounds.filterMap error?).length = rounds.length := by
  induction rounds with
  | nil => rfl
  | cons r rounds ih =>
      obtain ⟨taken, result⟩ := r
      cases result <;> simp [List.filterMap_cons, statement?, error?, ← ih] <;> omega

theorem length_le_flatMap_taken {rounds : List Round} (h : ∀ r ∈ rounds, r.taken ≠ []) :
    rounds.length ≤ (rounds.flatMap taken).length := by
  induction rounds with
  | nil => exact Nat.le_refl 0
  | cons r rounds ih =>
      obtain ⟨hr, hrounds⟩ := List.forall_mem_cons.mp h
      have hpos := List.length_pos_iff.mpr hr
      have hle := ih hrounds
      rw [List.flatMap_cons, List.length_append, List.length_cons]
      omega

end Round

/-- The rounds that lead from some tokens to those that are left, with a certain parser for expressions. -/
inductive Rounds (expression : Precedence → Parse Expr) : List Token → List Round → List Token → Prop where
  /-- The end of the file stays unread. -/
  | stop {tokens : List Token} (hnext : nextToken tokens = .endOfFile) : Rounds expression tokens [] tokens
  /-- A statement is read. -/
  | read {tokens taken mid left : List Token} {s : Stmt} {rounds : List Round}
      (hnext : nextToken tokens ≠ .endOfFile) (hstatement : statement expression tokens = .ok s mid)
      (htaken : taken ++ mid = tokens) (rest : Rounds expression mid rounds left) :
      Rounds expression tokens (⟨taken, .ok s⟩ :: rounds) left
  /-- A statement is malformed, and the next one starts behind the next semicolon. -/
  | skip {tokens taken mid left : List Token} {e : ParseError} {rounds : List Round}
      (hnext : nextToken tokens ≠ .endOfFile) (hstatement : statement expression tokens = .error e mid)
      (htaken : taken ++ synchronize mid = tokens) (rest : Rounds expression (synchronize mid) rounds left) :
      Rounds expression tokens (⟨taken, .error e⟩ :: rounds) left

variable {reader reader' : Precedence → Parse Expr} {tokens left mid : List Token} {rounds : List Round} {n : Nat}

theorem length_lt_of_suffix_tail (hnext : nextToken tokens ≠ .endOfFile) (h : mid <:+ tokens.drop 1) :
    mid.length < tokens.length := by
  cases tokens with
  | nil => exact absurd rfl hnext
  | cons t rest => exact Nat.lt_succ_of_le h.length_le

namespace Rounds

/-- **The rounds come to an end**, whatever the tokens are. -/
theorem exist (hdrops : ∀ p, Drops 1 (reader p)) (tokens : List Token) :
    ∃ rounds left, Rounds reader tokens rounds left := by
  -- each round leaves fewer tokens
  induction hlength : tokens.length using Nat.strongRecOn generalizing tokens with
  | ind length ih =>
      by_cases hnext : nextToken tokens = .endOfFile
      · exact ⟨[], tokens, .stop hnext⟩
      · have hsuffix := statement_drops hdrops tokens
        have hwhole := hsuffix.trans (List.drop_suffix 1 tokens)
        have hlt := length_lt_of_suffix_tail hnext hsuffix
        cases hstatement : statement reader tokens with
        | ok s mid =>
            rw [hstatement] at hwhole hlt
            obtain ⟨taken, htaken⟩ := hwhole
            obtain ⟨rounds, left, hrest⟩ := ih mid.length (hlength ▸ hlt) mid rfl
            exact ⟨_, left, .read hnext hstatement htaken hrest⟩
        | error e mid =>
            rw [hstatement] at hwhole hlt
            obtain ⟨taken, htaken⟩ := (synchronize_suffix mid).trans hwhole
            have hlt : (synchronize mid).length < length :=
              hlength ▸ Nat.lt_of_le_of_lt (length_synchronize_le mid) hlt
            obtain ⟨rounds, left, hrest⟩ := ih _ hlt (synchronize mid) rfl
            exact ⟨_, left, .skip hnext hstatement htaken hrest⟩

theorem nextToken_left (h : Rounds reader tokens rounds left) : nextToken left = .endOfFile := by
  induction h with
  | stop hnext => exact hnext
  | read _ _ _ _ ih | skip _ _ _ _ ih => exact ih

theorem flatMap_taken_append (h : Rounds reader tokens rounds left) : rounds.flatMap Round.taken ++ left = tokens := by
  induction h with
  | stop => rfl
  | read _ _ htaken _ ih | skip _ _ htaken _ ih => rw [List.flatMap_cons, List.append_assoc, ih, htaken]

/-- **Progress**: every round takes a token. -/
theorem taken_ne_nil (hdrops : ∀ p, Drops 1 (reader p)) (h : Rounds reader tokens rounds left) :
    ∀ r ∈ rounds, r.taken ≠ [] := by
  have hstep : ∀ {tokens taken mid rest : List Token}, nextToken tokens ≠ .endOfFile → taken ++ rest = tokens →
      rest <:+ mid → mid <:+ tokens.drop 1 → taken ≠ [] := by
    rintro tokens taken mid rest hnext htaken hrest hmid rfl
    exact Nat.ne_of_lt (length_lt_of_suffix_tail hnext (hrest.trans hmid)) (congrArg List.length htaken)
  induction h with
  | stop => exact List.forall_mem_nil _
  | @read tokens _ _ _ _ _ hnext hstatement htaken _ ih =>
      have hmid := statement_drops hdrops tokens
      rw [hstatement] at hmid
      exact List.forall_mem_cons.mpr ⟨hstep hnext htaken (List.suffix_refl _) hmid, ih⟩
  | @skip tokens _ _ _ _ _ hnext hstatement htaken _ ih =>
      have hmid := statement_drops hdrops tokens
      rw [hstatement] at hmid
      exact List.forall_mem_cons.mpr ⟨hstep hnext htaken (synchronize_suffix _) hmid, ih⟩

/-- Two parsers make the same rounds if they read statements in the same way. -/
theorem congr (h : Rounds reader tokens rounds left)
    (heq : ∀ rest, rest <:+ tokens → statement reader rest = statement reader' rest) :
    Rounds reader' tokens rounds left := by
  induction h with
  | stop hnext => exact .stop hnext
  | read hnext hstatement htaken _ ih =>
      have hsuffix := htaken ▸ List.suffix_append _ _
      exact .read hnext (heq _ (List.suffix_refl _) ▸ hstatement) htaken
        (ih fun rest hrest => heq rest (hrest.trans hsuffix))
  | skip hnext hstatement htaken _ ih =>
      have hsuffix := htaken ▸ List.suffix_append _ _
      exact .skip hnext (heq _ (List.suffix_refl _) ▸ hstatement) htaken
        (ih fun rest hrest => heq rest (hrest.trans hsuffix))

/-- A program is what its rounds come to. -/
theorem read_eq (h : Rounds (expression n) tokens rounds left) (hn : tokens.length ≤ n) :
    Program.read tokens = ⟨rounds.filterMap Round.statement?, rounds.filterMap Round.error?, left⟩ := by
  induction h with
  | stop hnext => exact Program.read_of_end hnext
  | read hnext hstatement htaken _ ih =>
      have hsuffix := htaken ▸ List.suffix_append _ _
      rw [Program.read_of_ok hnext ((statement_bound (Nat.le_refl _) hn).trans hstatement),
        ih (Nat.le_trans hsuffix.length_le hn)]
      rfl
  | skip hnext hstatement htaken _ ih =>
      have hsuffix := htaken ▸ List.suffix_append _ _
      rw [Program.read_of_error hnext ((statement_bound (Nat.le_refl _) hn).trans hstatement),
        ih (Nat.le_trans hsuffix.length_le hn)]
      rfl

end Rounds

end Parse

open Parse

namespace Program

theorem ofTokens_eq_error_iff (tokens : List Token) :
    (∃ errors, ofTokens tokens = .error errors) ↔ (read tokens).errors ≠ [] := by
  unfold ofTokens
  dsimp only
  cases (read tokens).errors <;> simp

/-- **The parser ends** on all tokens. Its rounds are the same whatever parsers stand below one more level of the
recursion than there are tokens, so that no way through the recursion gets down to them. -/
theorem read_in_rounds (tokens : List Token) : ∃ rounds : List Round,
    (∀ (P : Parsers) (k : Nat),
      Rounds (Parsers.unfold^[tokens.length + 1 + k] P).expression tokens rounds (read tokens).left) ∧
    (∀ r ∈ rounds, r.taken ≠ []) ∧
    rounds.flatMap Round.taken ++ (read tokens).left = tokens ∧
    nextToken (read tokens).left = .endOfFile ∧
    (read tokens).statements = rounds.filterMap Round.statement? ∧
    (read tokens).errors = rounds.filterMap Round.error? ∧
    ((∃ errors, ofTokens tokens = .error errors) ↔ ∃ r ∈ rounds, ∃ e, r.result = .error e) ∧
    (read tokens).statements.length + (read tokens).errors.length ≤ (rounds.flatMap Round.taken).length := by
  have hdrops := expression_drops tokens.length
  obtain ⟨rounds, left, h⟩ := Rounds.exist hdrops tokens
  have htaken := h.taken_ne_nil hdrops
  have hfailed : rounds.filterMap Round.error? ≠ [] ↔ ∃ r ∈ rounds, ∃ e, r.result = .error e := by
    simp [List.filterMap_eq_nil_iff, Option.ne_none_iff_exists', Round.error?_eq_some_iff]
  rw [ofTokens_eq_error_iff, h.read_eq (Nat.le_succ _)]
  refine ⟨rounds, fun P k => ?_, htaken, h.flatMap_taken_append, h.nextToken_left, rfl, rfl, hfailed, ?_⟩
  · apply h.congr
    intro rest hsuffix
    have hle := hsuffix.length_le
    rw [Nat.add_right_comm, statement_unfold P (Nat.le_add_right_of_le hle)]
    exact statement_bound (Nat.le_succ_of_le hle) (Nat.le_add_right_of_le hle)
  · rw [Round.length_statements_add_errors]
    exact Round.length_le_flatMap_taken htaken

/-- An end-of-file token inside a malformed statement is taken like any other, one in front of a statement ends
the program. -/
example : read [.keyword .let, .endOfFile, .illegal "@", .mark .semicolon, .integer (-1), .endOfFile, .integer 2] =
    ⟨[.expr (.integer (-1))], [.expectedName .endOfFile], [.endOfFile, .integer 2]⟩ := rfl

end Program

end ScriptLang
