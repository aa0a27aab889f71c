import ScriptLang.Proofs.Symbols.Soundness

/-!
# The names that tables know

If no name is defined twice, then a table only ever gets new names: those that are defined in it, and those
that it captures from the tables around it. `Symbols.Adds` says so of what a part of a program does to the
tables.
-/

namespace ScriptLang

namespace Symbols

open SymbolTable

/-- Some table of a chain knows a name. -/
def Knows (ts : List SymbolTable) (name : String) : Prop :=
  ∃ t ∈ ts, ∃ symbol, t.bindings.get? name = some symbol

theorem knows_cons {t : SymbolTable} {ts : List SymbolTable} {name : String} :
    Knows (t :: ts) name ↔ (∃ symbol, t.bindings.get? name = some symbol) ∨ Knows ts name := by
  rw [Knows, Knows, List.exists_mem_cons_iff]

theorem Knows.tail {t : SymbolTable} {ts : List SymbolTable} {name : String} (h : Knows ts name) :
    Knows (t :: ts) name := knows_cons.mpr (.inr h)

/-! ## Captures

Captures make no name known: what a table captures, a table around it knows already. -/

/-- The tables of a chain have captured some names of the tables around them. -/
inductive Captured : List SymbolTable → List SymbolTable → Prop where
  | nil : Captured [] []
  | cons {t t' : SymbolTable} {ts ts' : List SymbolTable} :
      t.Extends t' →
      (∀ name symbol, t'.bindings.get? name = some symbol →
        t.bindings.get? name = some symbol ∨ symbol.place = .free ∧ Knows ts name) →
      Captured ts ts' → Captured (t :: ts) (t' :: ts')

theorem Captured.refl : ∀ ts : List SymbolTable, Captured ts ts
  | [] => .nil
  | _ :: ts => .cons (.refl _) (fun _ _ h => .inl h) (.refl ts)

/-- Tables with captures know no more names. -/
theorem Captured.knows {ts ts' : List SymbolTable} (h : Captured ts ts') {name : String}
    (hknows : Knows ts' name) : Knows ts name := by
  induction h with
  | nil => exact hknows
  | cons _ hnew _ ih =>
      rcases knows_cons.mp hknows with ⟨symbol, hget⟩ | hrest
      · rcases hnew name symbol hget with hold | ⟨-, houter⟩
        · exact knows_cons.mpr (.inl ⟨symbol, hold⟩)
        · exact houter.tail
      · exact (ih hrest).tail

theorem Captured.trans {ts₁ ts₂ ts₃ : List SymbolTable} (h₁ : Captured ts₁ ts₂)
    (h₂ : Captured ts₂ ts₃) : Captured ts₁ ts₃ := by
  induction h₁ generalizing ts₃ with
  | nil => exact h₂
  | cons hext hnew hrest ih =>
      cases h₂ with
      | cons hext' hnew' hrest' =>
          refine .cons (hext.trans hext') (fun name symbol hget => ?_) (ih hrest')
          rcases hnew' name symbol hget with hold | ⟨hplace, hknows⟩
          · exact hnew name symbol hold
          · exact .inr ⟨hplace, hrest.knows hknows⟩

/-- What is found has the name that is looked up. -/
theorem Resolves.name_eq {s s' : Symbols} {name : String} {symbol : Symbol} (h : Resolves name s symbol s')
    (hs : s.Sound) : symbol.name = name := by
  obtain ⟨hs', -, -, hbound | ⟨-, -, hbound⟩⟩ := h.spec hs
  · exact (hs'.inner _ _ hbound).1
  · exact (hs'.main _ _ hbound).1

/-- Looking a name up captures it at most. -/
theorem Resolves.captured_tables {s s' : Symbols} {name : String} {symbol : Symbol}
    (h : Resolves name s symbol s') (hs : s.Sound) : Captured s.tables s'.tables ∧ Knows s.tables name := by
  induction h with
  | @stored s symbol hget => exact ⟨.refl _, knows_cons.mpr (.inl ⟨symbol, hget⟩)⟩
  | main _ _ _ ih =>
      obtain ⟨hcaptured, hknows⟩ := ih hs.2.2
      exact ⟨.cons (.refl _) (fun _ _ hget => .inl hget) hcaptured, hknows.tail⟩
  | @captured t o o' rest rest' symbol hget hresolves _ _ ih =>
      obtain ⟨hcaptured, hknows⟩ := ih hs.2.2
      obtain rfl := hresolves.name_eq hs.2.2
      refine ⟨.cons (extends_capture hget) (fun other found hother => ?_) hcaptured, hknows.tail⟩
      -- the only new name is the one that is looked up
      by_cases heq : other = symbol.name
      · subst heq
        rw [SymbolTable.capture, SymbolTable.bind, freeSymbol, Bindings.get?_insert_self] at hother
        cases hother
        exact .inr ⟨rfl, hknows⟩
      · exact .inl ((Bindings.get?_insert_of_ne heq _ _).symm.trans hother)

/-- Only known names are found. -/
theorem knows_of_resolve? {s s' : Symbols} {name : String} {symbol : Symbol}
    (h : s.resolve? name = some (symbol, s')) (hs : s.Sound) : Knows s.tables name :=
  ((resolve?_eq_some.mp h).captured_tables hs).2

/-! ## New names

What is bound is told apart from what is captured: only a definition makes a name known to the whole chain. -/

/-- The innermost table defines the names `own`. All else that is new in the tables is captured. -/
structure Adds (s : Symbols) (own : List String) (s' : Symbols) : Prop where
  keeps : ∀ name symbol, s.inner.bindings.get? name = some symbol →
    s'.inner.bindings.get? name = some symbol
  new : ∀ name symbol, s'.inner.bindings.get? name = some symbol →
    s.inner.bindings.get? name = some symbol ∨ (name ∈ own ∧ symbol.place ≠ .function) ∨
      symbol.place = .free ∧ Knows s.outer name
  outer : Captured s.outer s'.outer

namespace Adds

variable {s s₁ s₂ : Symbols} {own own₁ own₂ : List String}

theorem refl (s : Symbols) : Adds s [] s := ⟨fun _ _ h => h, fun _ _ h => .inl h, .refl _⟩

/-- One part after another defines the names of both. -/
theorem trans (h₁ : Adds s own₁ s₁) (h₂ : Adds s₁ own₂ s₂) : Adds s (own₁ ++ own₂) s₂ where
  keeps := fun name symbol h => h₂.keeps name symbol (h₁.keeps name symbol h)
  new := by
    intro name symbol h
    rcases h₂.new name symbol h with h | ⟨hown, hplace⟩ | ⟨hplace, hknows⟩
    · rcases h₁.new name symbol h with h | ⟨hown, hplace⟩ | hfree
      · exact .inl h
      · exact .inr (.inl ⟨List.mem_append_left _ hown, hplace⟩)
      · exact .inr (.inr hfree)
    · exact .inr (.inl ⟨List.mem_append_right _ hown, hplace⟩)
    · exact .inr (.inr ⟨hplace, h₁.outer.knows hknows⟩)
  outer := h₁.outer.trans h₂.outer

theorem mono (h : Adds s own₁ s₁) (hsub : own₁ ⊆ own₂) : Adds s own₂ s₁ where
  keeps := h.keeps
  new := by
    intro name symbol hget
    rcases h.new name symbol hget with hold | ⟨hown, hplace⟩ | hfree
    · exact .inl hold
    · exact .inr (.inl ⟨hsub hown, hplace⟩)
    · exact .inr (.inr hfree)
  outer := h.outer

/-- What is known afterwards was known before, or has been defined. -/
theorem knows (h : Adds s own s₁) {name : String} (hknows : Knows s₁.tables name) :
    Knows s.tables name ∨ name ∈ own := by
  rcases knows_cons.mp hknows with ⟨symbol, hget⟩ | hrest
  · rcases h.new name symbol hget with hold | ⟨hown, -⟩ | ⟨-, houter⟩
    · exact .inl (knows_cons.mpr (.inl ⟨symbol, hold⟩))
    · exact .inr hown
    · exact .inl houter.tail
  · exact .inl (h.outer.knows hrest).tail

/-- The names of the main program stay as they are. -/
theorem main (h : Adds s own s₁) (name : String) (symbol : Symbol)
    (hget : s.main.bindings.get? name = some symbol) : s₁.main.bindings.get? name = some symbol := by
  obtain ⟨t, ts⟩ := s
  obtain ⟨t₁, ts₁⟩ := s₁
  have houter : Captured ts ts₁ := h.outer
  have hkeeps := h.keeps
  clear h
  induction houter generalizing t t₁ with
  | nil => exact hkeeps name symbol hget
  | cons hext _ _ ih =>
      rw [main_cons] at hget ⊢
      exact ih _ hget _ hext.bindings

/-- Looking a name up defines none. -/
theorem of_resolve? {name : String} {symbol : Symbol} (h : s.resolve? name = some (symbol, s₁))
    (hs : s.Sound) : Adds s [] s₁ := by
  obtain ⟨hcaptured, -⟩ := (resolve?_eq_some.mp h).captured_tables hs
  rw [tables, tables] at hcaptured
  cases hcaptured with
  | cons hext hnew hrest =>
      refine ⟨hext.bindings, fun name symbol hget => ?_, hrest⟩
      rcases hnew name symbol hget with hold | hfree
      · exact .inl hold
      · exact .inr (.inr hfree)

theorem define {name : String} (h : ¬ Knows s.tables name) : Adds s [name] (s.define name) where
  keeps := by
    intro other symbol hget
    have hne : other ≠ name := by
      rintro rfl
      exact h (knows_cons.mpr (.inl ⟨symbol, hget⟩))
    exact (Bindings.get?_insert_of_ne hne _ _).trans hget
  new := by
    intro other symbol hget
    by_cases hne : other = name
    · subst hne
      refine .inr (.inl ⟨List.mem_singleton_self _, ?_⟩)
      have hself : (s.define other).inner.bindings.get? other = some (s.definedSymbol other) :=
        Bindings.get?_insert_self _ _ _
      rw [hself] at hget
      cases hget
      show s.definitionPlace ≠ .function
      rw [definitionPlace_eq]
      cases s.nested <;> exact Place.noConfusion
    · exact .inl ((Bindings.get?_insert_of_ne hne _ _).symm.trans hget)
  outer := .refl _

/-- The tables behind a function. -/
theorem leave {name : Option String} {parameters : List String}
    (h : Adds (s.openFunction name parameters) own s₁) : Adds s [] s₁.leave := by
  obtain ⟨t₁, ts₁⟩ := s₁
  have houter := h.outer
  rw [openFunction_outer] at houter
  cases houter with
  | cons hext hnew hrest =>
      refine ⟨hext.bindings, fun name symbol hget => ?_, hrest⟩
      rcases hnew name symbol hget with hold | hfree
      · exact .inl hold
      · exact .inr (.inr hfree)

end Adds

/-! ## The names inside a function -/

/-- Defined names have the next slots, in their order, and the other names stay as they are. -/
theorem foldl_define_get? (names : List String) {s : Symbols} (h : names.Nodup) :
    (∀ k name, names[k]? = some name → (names.foldl define s).inner.bindings.get? name =
      some ⟨name, s.definitionPlace, s.inner.numDefinitions + k⟩) ∧
    ∀ name, name ∉ names →
      (names.foldl define s).inner.bindings.get? name = s.inner.bindings.get? name := by
  induction names generalizing s with
  | nil => exact ⟨fun k name hk => by simp at hk, fun _ _ => rfl⟩
  | cons first names ih =>
      rw [List.nodup_cons] at h
      obtain ⟨hin, hout⟩ := ih h.2 (s := s.define first)
      refine ⟨fun k name hk => ?_, fun name hname => ?_⟩
      · cases k with
        | zero =>
            simp only [List.getElem?_cons_zero, Option.some.injEq] at hk
            subst hk
            exact (hout first h.1).trans (Bindings.get?_insert_self _ _ _)
        | succ k =>
            have hslot : (s.define first).inner.numDefinitions + k = s.inner.numDefinitions + (k + 1) := by
              show s.inner.numDefinitions + 1 + k = _
              omega
            rw [List.foldl_cons, hin k name (by simpa using hk), hslot]
            rfl
      · rw [List.mem_cons, not_or] at hname
        exact (hout name hname.2).trans (Bindings.get?_insert_of_ne hname.1 _ _)

/-- The table of a function starts with its own name alone. -/
theorem enterNamed_get? {s : Symbols} {name : Option String} {other : String} {symbol : Symbol}
    (h : (s.enterNamed name).inner.bindings.get? other = some symbol) :
    name = some other ∧ symbol.place = .function := by
  cases name with
  | none => simp [enterNamed, enter] at h
  | some first =>
      by_cases hne : other = first
      · subst hne
        have hself : (s.enterNamed (some other)).inner.bindings.get? other =
            some ⟨other, .function, 0⟩ := Bindings.get?_insert_self _ _ _
        rw [hself] at h
        cases h
        exact ⟨rfl, rfl⟩
      · have hother : (s.enterNamed (some first)).inner.bindings.get? other = none :=
          Bindings.get?_insert_of_ne hne _ _
        rw [hother] at h
        cases h

variable {s : Symbols} {name : Option String} {parameters : List String}

/-- A parameter has the slot of its position. -/
theorem openFunction_parameter (h : parameters.Nodup) {k : Nat} {other : String}
    (hk : parameters[k]? = some other) :
    (s.openFunction name parameters).inner.bindings.get? other = some ⟨other, .local, k⟩ := by
  rw [openFunction_eq, (foldl_define_get? parameters h).1 k other hk]
  cases name with
  | none =>
      show some (Symbol.mk other .local (0 + k)) = _
      rw [Nat.zero_add]
  | some first =>
      show some (Symbol.mk other .local (0 + k)) = _
      rw [Nat.zero_add]

/-- At first a function knows its parameters and its own name. -/
theorem openFunction_get? (h : parameters.Nodup) {other : String} {symbol : Symbol}
    (hget : (s.openFunction name parameters).inner.bindings.get? other = some symbol) :
    (other ∈ parameters ∧ symbol.place = .local) ∨ (name = some other ∧ symbol.place = .function) := by
  by_cases hmem : other ∈ parameters
  · obtain ⟨k, hk⟩ := List.getElem?_of_mem hmem
    rw [openFunction_parameter h hk] at hget
    cases hget
    exact .inl ⟨hmem, rfl⟩
  · rw [openFunction_eq, (foldl_define_get? parameters h).2 other hmem] at hget
    exact .inr (enterNamed_get? hget)

/-- Inside a function its parameters, its own name and the names around it are known. -/
theorem openFunction_knows (h : parameters.Nodup) {other : String}
    (hknows : Knows (s.openFunction name parameters).tables other) :
    other ∈ parameters ∨ name = some other ∨ Knows s.tables other := by
  rcases knows_cons.mp hknows with ⟨symbol, hget⟩ | houter
  · rcases openFunction_get? h hget with ⟨hmem, -⟩ | ⟨hname, -⟩
    · exact .inl hmem
    · exact .inr (.inl hname)
  · rw [openFunction_outer] at houter
    exact .inr (.inr houter)

/-- A function knows its own name. -/
theorem openFunction_knows_name (h : parameters.Nodup) (other : String) :
    Knows (s.openFunction (some other) parameters).tables other := by
  apply knows_cons.mpr
  left
  by_cases hmem : other ∈ parameters
  · obtain ⟨k, hk⟩ := List.getElem?_of_mem hmem
    exact ⟨_, openFunction_parameter h hk⟩
  · refine ⟨⟨other, .function, 0⟩, ?_⟩
    rw [openFunction_eq, (foldl_define_get? parameters h).2 other hmem]
    exact Bindings.get?_insert_self _ _ _

/-- A function knows its parameters. -/
theorem openFunction_knows_parameter (h : parameters.Nodup) {other : String} (hmem : other ∈ parameters) :
    Knows (s.openFunction name parameters).tables other := by
  obtain ⟨k, hk⟩ := List.getElem?_of_mem hmem
  exact knows_cons.mpr (.inl ⟨_, openFunction_parameter h hk⟩)

/-! ## Names of built-in functions

Tables are clean if the names of built-in functions are bound to built-in functions only. Then a program that
gives no such name to anything else finds them from everywhere. -/

/-- No local and no function has the name of a built-in function. -/
def Clean (ts : List SymbolTable) : Prop :=
  ∀ t ∈ ts, ∀ name symbol, t.bindings.get? name = some symbol →
    symbol.place = .local ∨ symbol.place = .function → Builtin.ofName? name = none

theorem Captured.clean {ts ts' : List SymbolTable} (h : Captured ts ts') (hclean : Clean ts) :
    Clean ts' := by
  induction h with
  | nil => exact hclean
  | cons _ hnew _ ih =>
      unfold Clean at hclean ⊢
      rw [List.forall_mem_cons] at hclean ⊢
      refine ⟨fun name symbol hget hplace => ?_, ih hclean.2⟩
      rcases hnew name symbol hget with hold | ⟨hfree, -⟩
      · exact hclean.1 name symbol hold hplace
      · rw [hfree] at hplace
        rcases hplace with h | h <;> cases h

theorem Adds.clean {own : List String} {s' : Symbols} (h : Adds s own s') (hclean : Clean s.tables)
    (hown : ∀ x ∈ own, Builtin.ofName? x = none) : Clean s'.tables := by
  unfold Clean tables at hclean ⊢
  rw [List.forall_mem_cons] at hclean ⊢
  refine ⟨fun name symbol hget hplace => ?_, h.outer.clean hclean.2⟩
  rcases h.new name symbol hget with hold | ⟨hmem, -⟩ | ⟨hfree, -⟩
  · exact hclean.1 name symbol hold hplace
  · exact hown name hmem
  · rw [hfree] at hplace
    rcases hplace with h | h <;> cases h

theorem Clean.openFunction (h : parameters.Nodup) (hclean : Clean s.tables)
    (hparameters : ∀ x ∈ parameters, Builtin.ofName? x = none)
    (hname : ∀ x, name = some x → Builtin.ofName? x = none) :
    Clean (s.openFunction name parameters).tables := by
  unfold Clean tables
  rw [List.forall_mem_cons, openFunction_outer]
  refine ⟨fun other symbol hget _ => ?_, hclean⟩
  rcases openFunction_get? h hget with ⟨hmem, -⟩ | ⟨hself, -⟩
  · exact hparameters other hmem
  · exact hname other hself

/-- A name of a built-in function stands for a global or for that function, as nothing else can have been
captured under it. -/
theorem Clean.place {x : String} (hx : Builtin.ofName? x ≠ none) {ts : List SymbolTable} :
    ∀ {t : SymbolTable} {symbol : Symbol}, SoundFrom t ts → Clean (t :: ts) →
      t.bindings.get? x = some symbol → symbol.place = .global ∨ symbol.place = .builtin := by
  induction ts with
  | nil =>
      intro t symbol hs hclean hget
      have hvalid := (hs.1 x symbol hget).2
      unfold Symbol.Valid at hvalid
      cases hplace : symbol.place with
      | global => exact .inl rfl
      | builtin => exact .inr rfl
      | _ =>
          simp only [hplace] at hvalid
          simp at hvalid
  | cons o rest ih =>
      intro t symbol hs hclean hget
      obtain ⟨hsound, hlends, hrest⟩ := hs
      have hvalid := (hsound x symbol hget).2
      unfold Symbol.Valid at hvalid
      unfold Clean at hclean
      rw [List.forall_mem_cons] at hclean
      cases hplace : symbol.place with
      | global => exact .inl rfl
      | builtin => exact .inr rfl
      | «local» => exact absurd (hclean.1 x symbol hget (.inl hplace)) hx
      | function => exact absurd (hclean.1 x symbol hget (.inr hplace)) hx
      | free =>
          -- the table around it lends a symbol under the same name
          simp only [hplace] at hvalid
          obtain ⟨lent, hlent, hname⟩ := Option.map_eq_some_iff.mp hvalid.2
          obtain ⟨hbound, hglobal, hbuiltin⟩ := hlends lent (List.mem_of_getElem? hlent)
          rw [hname, (hsound x symbol hget).1] at hbound
          rcases ih hrest hclean.2 hbound with h | h
          · exact absurd h hglobal
          · exact absurd h hbuiltin

/-- What a function has captured, the tables around it know. -/
theorem Sound.knows_of_captures {s' : Symbols} (hs : s'.Sound) (hcaptured : Captured s.outer s'.outer)
    {symbol : Symbol} (h : symbol ∈ s'.inner.captures) : Knows s.outer symbol.name := by
  obtain ⟨t', ts'⟩ := s'
  cases ts' with
  | nil =>
      have hnil : t'.captures = [] := hs.2
      rw [hnil] at h
      cases h
  | cons o rest =>
      apply hcaptured.knows
      exact ⟨o, List.mem_cons_self, symbol, (hs.2.1 symbol h).1⟩

end Symbols

/-! ## The first tables -/

theorem Builtin.ofName?_name (b : Builtin) : Builtin.ofName? b.name = some b := by
  cases b <;> rfl

/-- What is bound at first are built-in functions. -/
theorem Builtin.foldl_define_get? : ∀ (bs : List Builtin) {s : Symbols} {x : String} {symbol : Symbol},
    (bs.foldl (fun s b => s.defineBuiltin b.index b.name) s).inner.bindings.get? x = some symbol →
    s.inner.bindings.get? x = some symbol ∨ symbol.place = .builtin ∧ ∃ b : Builtin, b.name = x
  | [], _, _, _, h => .inl h
  | b :: bs, s, x, symbol, h => by
      rcases foldl_define_get? bs h with hrest | hbuiltin
      · by_cases hx : x = b.name
        · subst hx
          have hself : (s.defineBuiltin b.index b.name).inner.bindings.get? b.name =
              some ⟨b.name, .builtin, b.index⟩ := Bindings.get?_insert_self _ _ _
          rw [hself] at hrest
          cases hrest
          exact .inr ⟨rfl, b, rfl⟩
        · exact .inl ((Bindings.get?_insert_of_ne hx _ _).symm.trans hrest)
      · exact .inr hbuiltin

/-- The first tables know the built-in functions and nothing else. -/
theorem Compiler.initial_get? {x : String} {symbol : Symbol}
    (h : Compiler.initial.symbols.inner.bindings.get? x = some symbol) :
    symbol.place = .builtin ∧ Builtin.ofName? x ≠ none := by
  rcases Builtin.foldl_define_get? _ h with hnone | ⟨hplace, b, rfl⟩
  · cases hnone
  · rw [b.ofName?_name]
    exact ⟨hplace, Option.some_ne_none _⟩

theorem Compiler.initial_tables : Compiler.initial.symbols.tables = [Compiler.initial.symbols.inner] := by
  have hnested := Compiler.initial_nested
  rw [Symbols.nested] at hnested
  rw [Symbols.tables]
  simpa using hnested

theorem Compiler.initial_clean : Symbols.Clean Compiler.initial.symbols.tables := by
  rw [Compiler.initial_tables]
  intro t ht x symbol hget hplace
  obtain rfl := List.mem_singleton.mp ht
  obtain ⟨hbuiltin, -⟩ := Compiler.initial_get? hget
  rw [hbuiltin] at hplace
  rcases hplace with h | h <;> cases h

theorem Compiler.initial_not_knows {x : String} (hx : Builtin.ofName? x = none) :
    ¬ Symbols.Knows Compiler.initial.symbols.tables x := by
  rw [Compiler.initial_tables]
  rintro ⟨t, ht, symbol, hget⟩
  obtain rfl := List.mem_singleton.mp ht
  exact (Compiler.initial_get? hget).2 hx

end ScriptLang
