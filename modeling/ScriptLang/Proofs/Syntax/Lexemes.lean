import Mathlib.Data.List.TakeWhile
import ScriptLang.Proofs.Syntax.Lexing

/-!
# The lexical grammar

`Lexeme t cs`: the characters `cs` are a way to write the token `t`. `Lexes rest ts cs`: a text consists of
lexemes of the tokens `ts` with blanks around them, as far as `rest`, and each lexeme is as long as it can be.
The rules say nothing of how a text is scanned. `Arises e rest`: a text begins with what causes the error `e`.

A step of the lexer either splits off one lexeme or stands at an error, and a lexeme is what it splits off
where that lexeme cannot go on. Main statement: `tokenize_spec`.
-/

namespace ScriptLang

open Lexer (isBlank isLetter)

/-! ## Lexemes and texts -/

/-- The ways to write a token. -/
inductive Lexeme : Token → List Char → Prop where
  | keyword (k : Keyword) : Lexeme (.keyword k) k.text.toList
  | mark (m : Mark) : Lexeme (.mark m) m.text.toList
  | identifier {cs : List Char} : cs ≠ [] → (∀ c ∈ cs, isLetter c = true) →
    (∀ k : Keyword, k.text.toList ≠ cs) → Lexeme (.identifier (String.ofList cs)) cs
  /-- Leading zeros are allowed. -/
  | integer {cs : List Char} {value : Int64} : cs ≠ [] → (∀ c ∈ cs, c.isDigit = true) →
    value.toInt = Nat.ofDigitChars 10 cs 0 → Lexeme (.integer value) cs
  | string {cs : List Char} : '"' ∉ cs → Lexeme (.string (String.ofList cs)) ('"' :: (cs ++ ['"']))
  /-- A character with which nothing else begins. -/
  | illegal {c : Char} : isBlank c = false → isLetter c = false → c.isDigit = false → c ≠ '"' →
    (∀ m : Mark, m.text.toList ≠ [c]) → Lexeme (.illegal (String.singleton c)) [c]

/-- Whether a lexeme of a token can end in front of some text, which does not make it longer. -/
def Token.EndsBefore : Token → List Char → Prop
  | .keyword _, rest | .identifier _, rest => ∀ c ∈ rest.head?, isLetter c = false
  | .integer _, rest => ∀ c ∈ rest.head?, c.isDigit = false
  | .mark .assign, rest | .mark .bang, rest => ∀ c ∈ rest.head?, c ≠ '='
  | _, _ => True

/-- A text consists of lexemes with blanks around them, up to `rest`. -/
inductive Lexes (rest : List Char) : List Token → List Char → Prop where
  | blanks {blanks : List Char} : (∀ c ∈ blanks, isBlank c = true) → Lexes rest [] (blanks ++ rest)
  | lexeme {blanks lexeme cs : List Char} {t : Token} {ts : List Token} :
    (∀ c ∈ blanks, isBlank c = true) → Lexeme t lexeme → t.EndsBefore cs → Lexes rest ts cs →
    Lexes rest (t :: ts) (blanks ++ (lexeme ++ cs))

/-- A text begins with something that is no lexeme of any token. -/
inductive LexError.Arises : LexError → List Char → Prop where
  /-- A run of digits, as long as it can be, whose value is above the largest integer. -/
  | integerOutOfRange {cs rest : List Char} : cs ≠ [] → (∀ c ∈ cs, c.isDigit = true) →
    (∀ c ∈ rest.head?, c.isDigit = false) → Int64.maxValue.toInt < Nat.ofDigitChars 10 cs 0 →
    Arises (.integerOutOfRange (String.ofList cs)) (cs ++ rest)
  /-- A quote without a second one behind it. -/
  | unterminatedString {cs : List Char} : '"' ∉ cs →
    Arises (.unterminatedString (String.ofList cs)) ('"' :: cs)

/-! ## Reserved words and marks -/

theorem Keyword.mem_all (k : Keyword) : k ∈ Keyword.all := by
  cases k <;> decide

/-- A keyword is known by its text. -/
theorem Keyword.ofText?_eq_some_iff {s : String} {k : Keyword} : ofText? s = some k ↔ k.text = s := by
  constructor
  · intro h
    simpa using List.find?_some h
  · rintro rfl
    cases k <;> rfl

theorem Keyword.ofText?_eq_none_iff {s : String} : ofText? s = none ↔ ∀ k : Keyword, k.text ≠ s := by
  rw [ofText?, List.find?_eq_none]
  constructor
  · intro h k
    simpa using h k k.mem_all
  · intro h k _
    simpa using h k

theorem Keyword.text_spec (k : Keyword) : k.text.toList ≠ [] ∧ ∀ c ∈ k.text.toList, isLetter c = Bool.true := by
  rw [← List.all_eq_true]
  cases k <;> decide

/-- A mark of one character is known by it. -/
theorem Mark.ofChar?_eq_some_iff {c : Char} {m : Mark} : ofChar? c = some m ↔ m.text.toList = [c] := by
  constructor
  · intro h
    unfold ofChar? at h
    split at h <;> cases h <;> rfl
  · intro h
    cases m <;> cases h <;> rfl

theorem Mark.ofChar?_eq_none_iff {c : Char} : ofChar? c = none ↔ ∀ m : Mark, m.text.toList ≠ [c] := by
  rw [Option.eq_none_iff_forall_ne_some]
  exact forall_congr' fun m => not_congr ofChar?_eq_some_iff

namespace Lexer

variable {cs rest : List Char} {c : Char} {t : Token} {e : LexError}

/-! ## What is split off in front of a text -/

/-- **A lexeme is split off** where it ends. -/
theorem next_of_lexeme {lexeme : List Char} (h : Lexeme t lexeme) (hends : t.EndsBefore rest) :
    next (lexeme ++ rest) = (.ok t, rest) := by
  cases h with
  | keyword k =>
      obtain ⟨hne, hletters⟩ := k.text_spec
      have hword : word k.text.toList = .keyword k := by
        simp only [word, String.ofList_toList, Keyword.ofText?_eq_some_iff.mpr rfl]
      rw [next_word hne hletters hends, hword]
  | mark m =>
      cases m with
      | equal | notEqual => rfl
      | assign | bang => exact next_mark rfl fun _ => hends
      | _ => exact next_mark rfl fun h => absurd h (by decide)
  | identifier hne hletters hkeyword =>
      have hword : word lexeme = .identifier (String.ofList lexeme) := by
        have hnone : Keyword.ofText? (String.ofList lexeme) = none := by
          refine Keyword.ofText?_eq_none_iff.mpr fun k hk => hkeyword k ?_
          rw [hk, String.toList_ofList]
        simp only [word, hnone]
      rw [next_word hne hletters hends, hword]
  | @integer digits value hne hdigits hvalue =>
      have hnumber : number lexeme = .ok (.integer value) := by
        have hlt := value.toInt_lt
        have hdecimal : decimalValue lexeme = value.toInt.toNat := by
          rw [hvalue, Int.toNat_natCast]
          exact Nat.ofDigitChars_eq_foldl.symm
        have hofNat : Int64.ofNat value.toInt.toNat = value := by
          rw [← Int64.ofInt_eq_ofNat, Int.toNat_of_nonneg (by omega), Int64.ofInt_toInt]
        rw [number, hdecimal, if_pos (by omega), hofNat]
      rw [next_digits hne hdigits hends, hnumber]
  | string hquote =>
      rw [List.cons_append, List.append_assoc]
      exact next_string hquote
  | @illegal c hblank hletter hdigit hquote hmark =>
      have hpair : c = '=' ∨ c = '!' → ∀ d ∈ rest.head?, d ≠ '=' := by
        rintro (rfl | rfl)
        · exact absurd rfl (hmark .assign)
        · exact absurd rfl (hmark .bang)
      rw [List.singleton_append, next_symbol hblank hletter hdigit hquote, symbol_eq hpair,
        Mark.ofChar?_eq_none_iff.mpr hmark]

/-- **An error is reported** where it arises. -/
theorem next_of_arises (h : e.Arises cs) : (next cs).1 = .error e := by
  cases h with
  | @integerOutOfRange digits rest hne hdigits hend hvalue =>
      have hnumber : number digits = .error (.integerOutOfRange (String.ofList digits)) := by
        have hdecimal : decimalValue digits = Nat.ofDigitChars 10 digits 0 := Nat.ofDigitChars_eq_foldl.symm
        have hmax : Int64.maxValue.toInt = 0x7fffffffffffffff := rfl
        rw [number, hdecimal, if_neg (by omega)]
      rw [next_digits hne hdigits hend, hnumber]
  | @unterminatedString contents hquote =>
      rw [next_cons rfl, if_pos rfl, quoted, List.takeWhile_eq_self_iff.mpr (bne_quote hquote),
        List.dropWhile_eq_nil_iff.mpr (bne_quote hquote)]

/-! ## What a text begins with

A text that has no blanks in front begins with a lexeme, or an error arises. Which class the first character
belongs to decides how far the lexeme goes. -/

/-- What stops a run of characters is none of them. -/
theorem head?_dropWhile {p : Char → Bool} (cs : List Char) : ∀ c ∈ (cs.dropWhile p).head?, p c = false := by
  intro c hc
  have hnot := List.head?_dropWhile_not p cs
  rw [Option.mem_def.mp hc] at hnot
  simpa using hnot

/-- The characters of a run. -/
theorem forall_takeWhile {p : Char → Bool} (cs : List Char) : ∀ c ∈ cs.takeWhile p, p c = true :=
  fun _ hc => List.mem_takeWhile_imp hc

/-- A text begins with a lexeme that ends. -/
def Begins (cs : List Char) : Prop :=
  ∃ t lexeme rest, cs = lexeme ++ rest ∧ Lexeme t lexeme ∧ t.EndsBefore rest

theorem begins_word (hc : isLetter c = true) (cs : List Char) : Begins (c :: cs) := by
  have hsplit : c :: cs = (c :: cs.takeWhile isLetter) ++ cs.dropWhile isLetter := by simp
  have hletters : ∀ d ∈ c :: cs.takeWhile isLetter, isLetter d = true :=
    List.forall_mem_cons.mpr ⟨hc, forall_takeWhile cs⟩
  -- a keyword is a whole word
  by_cases hkeyword : ∃ k : Keyword, k.text.toList = c :: cs.takeWhile isLetter
  · obtain ⟨k, hk⟩ := hkeyword
    exact ⟨.keyword k, _, _, hsplit, hk ▸ Lexeme.keyword k, head?_dropWhile cs⟩
  · rw [not_exists] at hkeyword
    exact ⟨_, _, _, hsplit, .identifier (List.cons_ne_nil _ _) hletters hkeyword, head?_dropWhile cs⟩

/-- A digit begins a number, which may be too large. -/
theorem begins_digits (hc : c.isDigit = true) (cs : List Char) :
    Begins (c :: cs) ∨ ∃ e : LexError, e.Arises (c :: cs) := by
  have hsplit : c :: cs = (c :: cs.takeWhile Char.isDigit) ++ cs.dropWhile Char.isDigit := by simp
  have hdigits : ∀ d ∈ c :: cs.takeWhile Char.isDigit, d.isDigit = true :=
    List.forall_mem_cons.mpr ⟨hc, forall_takeWhile cs⟩
  generalize hn : Nat.ofDigitChars 10 (c :: cs.takeWhile Char.isDigit) 0 = n
  by_cases hvalue : (n : Int) ≤ Int64.maxValue.toInt
  · refine .inl ⟨.integer (Int64.ofNat n), _, _, hsplit, .integer (List.cons_ne_nil _ _) hdigits ?_, head?_dropWhile cs⟩
    rw [hn]
    exact Int64.toInt_ofNat_of_lt (by have : Int64.maxValue.toInt = 2 ^ 63 - 1 := rfl; omega)
  · refine .inr ⟨.integerOutOfRange (String.ofList (c :: cs.takeWhile Char.isDigit)), ?_⟩
    rw [hsplit]
    refine .integerOutOfRange (List.cons_ne_nil _ _) hdigits (head?_dropWhile cs) ?_
    rw [hn]
    exact Int.lt_of_not_ge hvalue

/-- A quote begins a string, which may not be closed. -/
theorem begins_quote (cs : List Char) : Begins ('"' :: cs) ∨ ∃ e : LexError, e.Arises ('"' :: cs) := by
  have hquote : '"' ∉ cs.takeWhile (· != '"') := fun h => by simpa using forall_takeWhile cs _ h
  cases hrest : cs.dropWhile (· != '"') with
  | nil =>
      have hcs : cs.takeWhile (· != '"') = cs := by
        simpa [hrest] using List.takeWhile_append_dropWhile (p := (· != '"')) (l := cs)
      exact .inr ⟨_, .unterminatedString (hcs ▸ hquote)⟩
  | cons d rest =>
      have hd := head?_dropWhile (p := (· != '"')) cs d (by rw [hrest]; rfl)
      obtain rfl : d = '"' := by simpa using hd
      have hcs : cs = cs.takeWhile (· != '"') ++ '"' :: rest := by
        rw [← hrest]
        exact List.takeWhile_append_dropWhile.symm
      refine .inl ⟨_, _, rest, ?_, .string hquote, trivial⟩
      rw [List.cons_append, List.append_assoc]
      exact congrArg _ hcs

/-- Any other character is a mark or an illegal token. -/
theorem begins_symbol (hblank : isBlank c = false) (hletter : isLetter c = false) (hdigit : c.isDigit = false)
    (hquote : c ≠ '"') (cs : List Char) : Begins (c :: cs) := by
  by_cases hpair : (c = '=' ∨ c = '!') ∧ cs.head? = some '='
  · obtain ⟨hc, hhead⟩ := hpair
    obtain ⟨rest, rfl⟩ := List.head?_eq_some_iff.mp hhead
    rcases hc with rfl | rfl
    · exact ⟨_, _, rest, rfl, .mark .equal, trivial⟩
    · exact ⟨_, _, rest, rfl, .mark .notEqual, trivial⟩
  · cases hm : Mark.ofChar? c with
    | none =>
        exact ⟨_, _, cs, rfl, .illegal hblank hletter hdigit hquote (Mark.ofChar?_eq_none_iff.mp hm), trivial⟩
    | some m =>
        have htext := Mark.ofChar?_eq_some_iff.mp hm
        refine ⟨.mark m, [c], cs, rfl, htext ▸ Lexeme.mark m, ?_⟩
        cases m with
        | assign | bang =>
            rintro d hd rfl
            cases htext
            exact hpair ⟨by decide, hd⟩
        | _ => exact trivial

/-- A text without blanks in front begins with a lexeme, or else an error arises there. -/
theorem begins_or_arises (hblank : isBlank c = false) (cs : List Char) :
    Begins (c :: cs) ∨ ∃ e : LexError, e.Arises (c :: cs) := by
  by_cases hletter : isLetter c = true
  · exact .inl (begins_word hletter cs)
  by_cases hdigit : c.isDigit = true
  · exact begins_digits hdigit cs
  by_cases hquote : c = '"'
  · exact hquote ▸ begins_quote cs
  exact .inl (begins_symbol hblank (Bool.eq_false_iff.mpr hletter) (Bool.eq_false_iff.mpr hdigit) hquote cs)

/-! ## Whole texts -/

end Lexer

theorem Lexeme.ne_nil {t : Token} {cs : List Char} (h : Lexeme t cs) : cs ≠ [] := by
  cases h with
  | keyword k => exact k.text_spec.1
  | mark m => cases m <;> exact List.cons_ne_nil _ _
  | identifier hne | integer hne => exact hne
  | string | illegal => exact List.cons_ne_nil _ _

theorem Lexeme.ne_endOfFile {t : Token} {cs : List Char} (h : Lexeme t cs) : t ≠ .endOfFile := by
  rintro rfl
  cases h

namespace Lexer

/-- Every text consists of lexemes up to its end or up to an error. -/
theorem exists_lexes (cs : List Char) : ∃ ts rest, Lexes rest ts cs ∧ (rest = [] ∨ ∃ e : LexError, e.Arises rest) := by
  have hcs : cs = cs.takeWhile isBlank ++ cs.dropWhile isBlank := List.takeWhile_append_dropWhile.symm
  have hblanks := forall_takeWhile (p := isBlank) cs
  cases hbody : cs.dropWhile isBlank with
  | nil =>
      rw [hbody] at hcs
      rw [hcs]
      exact ⟨[], [], .blanks hblanks, .inl rfl⟩
  | cons c body =>
      have hc := head?_dropWhile (p := isBlank) cs c (by rw [hbody]; rfl)
      rw [hbody] at hcs
      rcases begins_or_arises hc body with ⟨t, lexeme, tail, hlexeme, ht, hends⟩ | ⟨e, he⟩
      · -- a lexeme is not empty
        have hshort : tail.length < cs.length := by
          have hpos := List.length_pos_iff.mpr ht.ne_nil
          rw [hcs, hlexeme]
          simp only [List.length_append]
          omega
        obtain ⟨ts, rest, hts, hrest⟩ := exists_lexes tail
        rw [hcs, hlexeme]
        exact ⟨t :: ts, rest, .lexeme hblanks ht hends hts, hrest⟩
      · rw [hcs]
        exact ⟨[], c :: body, .blanks hblanks, .inr ⟨e, he⟩⟩
termination_by cs.length

/-- The tokens of the lexemes of a text come first. -/
theorem tokens_of_lexes {ts : List Token} (h : Lexes rest ts cs) (acc : List Token) :
    tokens acc cs = tokens (ts.reverse ++ acc) rest := by
  induction h generalizing acc with
  | blanks hblanks =>
      rw [tokens_eq, next_blanks hblanks, ← tokens_eq]
      rfl
  | @lexeme blanks lexeme cs t ts hblanks ht hends _ ih =>
      have hnext : next (blanks ++ (lexeme ++ cs)) = (.ok t, cs) :=
        (next_blanks hblanks).trans (next_of_lexeme ht hends)
      rw [tokens_of_next hnext ht.ne_endOfFile, ih]
      simp

theorem tokens_of_arises (h : e.Arises cs) (acc : List Token) : tokens acc cs = .error e := by
  have hnext : next cs = (.error e, (next cs).2) := Prod.ext (next_of_arises h) rfl
  rw [tokens_eq, hnext]

end Lexer

/-- **The lexer accepts exactly the lexical grammar**, and an error is the first one of the text. -/
theorem tokenize_spec (source : String) :
    (∀ ts, tokenize source = .ok ts ↔ Lexes [] ts source.toList) ∧
      ∀ e, tokenize source = .error e ↔ ∃ ts rest, Lexes rest ts source.toList ∧ e.Arises rest := by
  have hok : ∀ ts, Lexes [] ts source.toList → tokenize source = .ok ts := by
    intro ts hts
    rw [tokenize, Lexer.tokens_of_lexes hts, Lexer.tokens_nil, List.append_nil, List.reverse_reverse]
  have herror : ∀ e ts rest, Lexes rest ts source.toList → e.Arises rest → tokenize source = .error e := by
    intro e ts rest hts he
    rw [tokenize, Lexer.tokens_of_lexes hts, Lexer.tokens_of_arises he]
  -- the text can be split in one of the two ways, and the lexer goes by any such way
  obtain ⟨us, rest, hus, hrest⟩ := Lexer.exists_lexes source.toList
  constructor
  · refine fun ts => ⟨fun h => ?_, hok ts⟩
    rcases hrest with rfl | ⟨e, he⟩
    · cases h.symm.trans (hok us hus)
      exact hus
    · cases h.symm.trans (herror e us rest hus he)
  · refine fun e => ⟨fun h => ?_, fun ⟨ts, rest, hts, he⟩ => herror e ts rest hts he⟩
    rcases hrest with rfl | ⟨e', he⟩
    · cases h.symm.trans (hok us hus)
    · cases h.symm.trans (herror e' us rest hus he)
      exact ⟨us, rest, hus, he⟩

end ScriptLang
