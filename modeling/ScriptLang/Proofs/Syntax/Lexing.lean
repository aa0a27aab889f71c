import ScriptLang.Token.Lexer

/-!
# Steps of the lexer

What the lexer splits off the front of a text. A word or a number ends where neither a letter nor a digit
follows (`Lexer.Ends`), and a mark that could begin a longer one needs something else than `=` behind it.
-/

namespace ScriptLang

namespace Lexer

variable {acc : List Token} {cs rest : List Char} {c : Char} {token : Token}

/-! ## Steps in general

The lexer splits one token after the other off the text, until there is only the end of the file left. The
tokens that it has are kept in front, last one first. -/

/-- One round of the lexer. -/
theorem tokens_eq (acc : List Token) (cs : List Char) : tokens acc cs = match next cs with
    | (.error e, _) => .error e
    | (.ok token, rest) => if token = .endOfFile then .ok acc.reverse else tokens (token :: acc) rest := by
  rw [tokens]
  split
  · next h => simp only [h]
  · next h => simp only [h, dite_eq_ite]

/-- A token that is found joins those that are there. -/
theorem tokens_of_next (h : next cs = (.ok token, rest)) (hend : token ≠ .endOfFile) :
    tokens acc cs = tokens (token :: acc) rest := by
  rw [tokens_eq, h]
  exact if_neg hend

@[simp] theorem tokens_nil : tokens acc [] = .ok acc.reverse := by
  rw [tokens_eq]
  rfl

/-- What `next` makes of a text without blanks in front. -/
theorem next_cons {c : Char} (h : isBlank c = false) : next (c :: cs) =
    if c = '"' then quoted cs
    else if isLetter c then
      (.ok (word (c :: cs.takeWhile isLetter)), cs.dropWhile isLetter)
    else if c.isDigit then
      (number (c :: cs.takeWhile Char.isDigit), cs.dropWhile Char.isDigit)
    else ((.ok (symbol c cs).1 : Except LexError Token), (symbol c cs).2) := by
  rw [next, List.dropWhile_cons_of_neg (by simp [h])]

theorem next_blanks {blanks : List Char} (h : ∀ c ∈ blanks, isBlank c = true) :
    next (blanks ++ cs) = next cs := by
  rw [next, next, List.dropWhile_append_of_pos h]

theorem tokens_blank : tokens acc (' ' :: cs) = tokens acc cs := by
  have h : next (' ' :: cs) = next cs := next_blanks (List.forall_mem_singleton.mpr rfl)
  rw [tokens_eq, tokens_eq acc cs, h]

/-! ## Runs of characters

A word, a number and the contents of a string are the longest run of characters of one class. A run that is
followed by a character of another class is split off exactly. -/

/-- Whether a word or a number ends in front of some text. -/
def Ends (cs : List Char) : Prop := ∀ c ∈ cs.head?, isLetter c = false ∧ c.isDigit = false

/-- Where no character of the class comes next, the run is empty. -/
theorem takeWhile_of_head {p : Char → Bool} (h : ∀ c ∈ rest.head?, p c = false) :
    rest.takeWhile p = [] := by
  cases rest with
  | nil => rfl
  | cons c rest => exact List.takeWhile_cons_of_neg (by simp [h c rfl])

theorem dropWhile_of_head {p : Char → Bool} (h : ∀ c ∈ rest.head?, p c = false) :
    rest.dropWhile p = rest := by
  cases rest with
  | nil => rfl
  | cons c rest => exact List.dropWhile_cons_of_neg (by simp [h c rfl])

/-- A run ends in front of the first character of another class. -/
theorem takeWhile_run {p : Char → Bool} (hcs : ∀ c ∈ cs, p c = true)
    (h : ∀ c ∈ rest.head?, p c = false) : (cs ++ rest).takeWhile p = cs := by
  rw [List.takeWhile_append_of_pos hcs, takeWhile_of_head h, List.append_nil]

theorem dropWhile_run {p : Char → Bool} (hcs : ∀ c ∈ cs, p c = true)
    (h : ∀ c ∈ rest.head?, p c = false) : (cs ++ rest).dropWhile p = rest := by
  rw [List.dropWhile_append_of_pos hcs, dropWhile_of_head h]

/-! ## Words -/

theorem not_blank_of_isLetter {c : Char} (h : isLetter c = true) : isBlank c = false := by
  rw [Bool.eq_false_iff]
  intro hblank
  simp only [isBlank, Bool.or_eq_true, beq_iff_eq] at hblank
  rcases hblank with ((rfl | rfl) | rfl) | rfl <;> cases h

theorem word_ne_endOfFile (letters : List Char) : word letters ≠ .endOfFile := by
  unfold word
  dsimp only
  split <;> exact Token.noConfusion

/-- A word is split off in front of anything but a letter. -/
theorem next_word {letters : List Char} (hne : letters ≠ []) (hletters : ∀ c ∈ letters, isLetter c = true)
    (h : ∀ c ∈ rest.head?, isLetter c = false) : next (letters ++ rest) = (.ok (word letters), rest) := by
  obtain ⟨c, letters, rfl⟩ := List.exists_cons_of_ne_nil hne
  obtain ⟨hc, hletters⟩ := List.forall_mem_cons.mp hletters
  have hquote : c ≠ '"' := by
    rintro rfl
    cases hc
  rw [List.cons_append, next_cons (not_blank_of_isLetter hc), if_neg hquote, if_pos hc,
    takeWhile_run hletters h, dropWhile_run hletters h]

theorem tokens_word {letters : List Char} (hne : letters ≠ []) (hletters : ∀ c ∈ letters, isLetter c = true)
    (h : Ends rest) : tokens acc (letters ++ rest) = tokens (word letters :: acc) rest :=
  tokens_of_next (next_word hne hletters fun c hc => (h c hc).1) (word_ne_endOfFile _)

/-! ## Numbers -/

/-- Digits begin a number and nothing else. -/
theorem isDigit_spec {c : Char} (h : c.isDigit = true) :
    isBlank c = false ∧ isLetter c = false ∧ c ≠ '"' := by
  have hne : ∀ d : Char, d.isDigit = false → c ≠ d := by
    rintro d hd rfl
    cases h.symm.trans hd
  have halpha : c.isAlpha = false := by
    simp only [Char.isDigit] at h
    delta Char.isAlpha Char.isUpper Char.isLower
    grind
  refine ⟨?_, ?_, hne _ rfl⟩
  · simp [isBlank, hne ' ' rfl, hne '\t' rfl, hne '\n' rfl, hne '\r' rfl]
  · simp [isLetter, halpha, hne '_' rfl]

theorem decimalValue_toDigits (n : Nat) : decimalValue (Nat.toDigits 10 n) = n := by
  rw [decimalValue, ← Nat.ofDigitChars_eq_foldl]
  exact Nat.ofDigitChars_ten_toDigits

/-- A number is split off in front of anything but a digit. -/
theorem next_digits {digits : List Char} (hne : digits ≠ []) (hdigits : ∀ c ∈ digits, c.isDigit = true)
    (h : ∀ c ∈ rest.head?, c.isDigit = false) : next (digits ++ rest) = (number digits, rest) := by
  obtain ⟨c, digits, rfl⟩ := List.exists_cons_of_ne_nil hne
  obtain ⟨hc, hdigits⟩ := List.forall_mem_cons.mp hdigits
  obtain ⟨hblank, hletter, hquote⟩ := isDigit_spec hc
  rw [List.cons_append, next_cons hblank, if_neg hquote, if_neg (by simp [hletter]), if_pos hc,
    takeWhile_run hdigits h, dropWhile_run hdigits h]

/-- A number is read in front of what ends it, if it is not too large. -/
theorem tokens_digits {digits : List Char} (hne : digits ≠ []) (hdigits : ∀ c ∈ digits, c.isDigit = true)
    (hnumber : number digits = .ok token) (hend : token ≠ .endOfFile) (h : Ends rest) :
    tokens acc (digits ++ rest) = tokens (token :: acc) rest :=
  tokens_of_next ((next_digits hne hdigits fun c hc => (h c hc).2).trans (by rw [hnumber])) hend

/-- A number that is not negative is written in decimal digits alone. -/
theorem toList_toString {value : Int64} (h : 0 ≤ value.toInt) :
    (toString value.toInt).toList = Nat.toDigits 10 value.toInt.toNat := by
  rw [Int.toString_eq_repr, Int.repr_eq_if, if_pos h, Nat.repr_eq_ofList_toDigits, String.toList_ofList]

/-- A number that is written in decimal digits is read as it was. -/
theorem tokens_integer {value : Int64} (hvalue : 0 ≤ value.toInt) (h : Ends rest) :
    tokens acc ((toString value.toInt).toList ++ rest) = tokens (.integer value :: acc) rest := by
  have hbound : value.toInt.toNat < 0x8000000000000000 := by
    have hlt := value.toInt_lt
    omega
  have hofNat : Int64.ofNat value.toInt.toNat = value := by
    rw [← Int64.ofInt_eq_ofNat, Int.toNat_of_nonneg hvalue, Int64.ofInt_toInt]
  rw [toList_toString hvalue]
  refine tokens_digits Nat.toDigits_ne_nil (fun c => Nat.isDigit_of_mem_toDigits (by decide) (by decide)) ?_
    Token.noConfusion h
  rw [number, decimalValue_toDigits, if_pos hbound, hofNat]

/-! ## Strings -/

theorem bne_quote (h : '"' ∉ cs) : ∀ c ∈ cs, (c != '"') = true := by
  intro c hc
  rw [bne_iff_ne]
  rintro rfl
  exact h hc

/-- A string is read up to its closing quote. -/
theorem next_string (h : '"' ∉ cs) :
    next ('"' :: (cs ++ '"' :: rest)) = (.ok (.string (String.ofList cs)), rest) := by
  have hclose : ∀ c ∈ ('"' :: rest).head?, (c != '"') = false := by
    rintro c ⟨⟩
    rfl
  rw [next_cons rfl, if_pos rfl, quoted, takeWhile_run (bne_quote h) hclose,
    dropWhile_run (bne_quote h) hclose]

theorem tokens_string {contents : List Char} (h : ∀ c ∈ contents, c ≠ '"') :
    tokens acc ('"' :: (contents ++ '"' :: rest)) = tokens (.string (String.ofList contents) :: acc) rest :=
  tokens_of_next (next_string fun hmem => h _ hmem rfl) Token.noConfusion

/-! ## Marks

Every other character is a mark by itself, or an illegal token; only `=` and `!` may begin a mark of two
characters. -/

/-- A character of no other class is a symbol. -/
theorem next_symbol (hblank : isBlank c = false) (hletter : isLetter c = false) (hdigit : c.isDigit = false)
    (hquote : c ≠ '"') : next (c :: cs) = (.ok (symbol c cs).1, (symbol c cs).2) := by
  rw [next_cons hblank, if_neg hquote, if_neg (by simp [hletter]), if_neg (by simp [hdigit])]

/-- What a mark begins with belongs to no other class of tokens. -/
theorem mark_classes {m : Mark} (h : Mark.ofChar? c = some m) :
    isBlank c = false ∧ isLetter c = false ∧ c.isDigit = false ∧ c ≠ '"' := by
  unfold Mark.ofChar? at h
  split at h <;> first | exact ⟨rfl, rfl, rfl, by decide⟩ | cases h

/-- A character with which no mark of two begins. -/
theorem symbol_eq (h : c = '=' ∨ c = '!' → ∀ d ∈ cs.head?, d ≠ '=') :
    symbol c cs = match Mark.ofChar? c with
      | some m => (.mark m, cs)
      | none => (.illegal (String.singleton c), cs) := by
  unfold symbol
  split
  · exact absurd rfl (h (.inl rfl) '=' rfl)
  · exact absurd rfl (h (.inr rfl) '=' rfl)
  · rfl

/-- A mark of one character. -/
theorem next_mark {m : Mark} (hm : Mark.ofChar? c = some m)
    (h : c = '=' ∨ c = '!' → ∀ d ∈ rest.head?, d ≠ '=') : next (c :: rest) = (.ok (.mark m), rest) := by
  obtain ⟨hblank, hletter, hdigit, hquote⟩ := mark_classes hm
  rw [next_symbol hblank hletter hdigit hquote, symbol_eq h, hm]

/-- A mark with which no longer one begins. -/
theorem tokens_mark {c : Char} {m : Mark} (hm : Mark.ofChar? c = some m) (hc : c ≠ '=' ∧ c ≠ '!') :
    tokens acc (c :: rest) = tokens (.mark m :: acc) rest :=
  tokens_of_next (next_mark hm fun h => absurd h (not_or.mpr hc)) Token.noConfusion

/-- An exclamation mark is not the first half of `!=` if no `=` follows. -/
theorem tokens_bang (h : ∀ c ∈ rest.head?, c ≠ '=') :
    tokens acc ('!' :: rest) = tokens (.mark .bang :: acc) rest :=
  tokens_of_next (next_mark rfl fun _ => h) Token.noConfusion

/-- The sign of a definition is written with a blank behind it, so it is not half of `==`. -/
theorem tokens_assign : tokens acc ('=' :: ' ' :: rest) = tokens (.mark .assign :: acc) rest :=
  (tokens_of_next rfl Token.noConfusion).trans tokens_blank

theorem tokens_equal : tokens acc ('=' :: '=' :: rest) = tokens (.mark .equal :: acc) rest :=
  tokens_of_next rfl Token.noConfusion

theorem tokens_notEqual : tokens acc ('!' :: '=' :: rest) = tokens (.mark .notEqual :: acc) rest :=
  tokens_of_next rfl Token.noConfusion

end Lexer

end ScriptLang
