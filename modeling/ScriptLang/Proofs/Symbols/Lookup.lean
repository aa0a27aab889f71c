import ScriptLang.Symbols

/-!
# The rules of looking a name up

`Symbols.resolve` goes through a chain of tables from the inside out and comes back with captures. What becomes of
the chain is easier to follow as a relation, `Symbols.Resolves`, with one rule for each thing that a table may
do: it stores the name, it passes on a symbol of the main program, or it captures the symbol of a function
further out. Whatever is said later about looking names up is shown by induction on these rules.

* `Symbols.resolve?_eq_some` — a name is found by the rules and in no other way;
* `Symbols.resolve?_eq_none` — a name is not found just if no table stores it;
* `Symbols.resolve_of_resolve?_none` — a name that is not found leaves all tables as they are.
-/

namespace ScriptLang

namespace Symbols

/-- All tables, innermost first. -/
def tables (s : Symbols) : List SymbolTable := s.inner :: s.outer

/-- Looking a name up in one chain finds a symbol and leaves the other chain. -/
inductive Resolves (name : String) : Symbols → Symbol → Symbols → Prop where
  /-- The innermost table stores the name. -/
  | stored {s : Symbols} {symbol : Symbol} :
      s.inner.bindings.get? name = some symbol → Resolves name s symbol s
  /-- What is found further out belongs to the main program. -/
  | main {t o o' : SymbolTable} {rest rest' : List SymbolTable} {symbol : Symbol} :
      t.bindings.get? name = none → Resolves name ⟨o, rest⟩ symbol ⟨o', rest'⟩ →
      symbol.place = .global ∨ symbol.place = .builtin →
      Resolves name ⟨t, o :: rest⟩ symbol ⟨t, o' :: rest'⟩
  /-- What is found further out belongs to a function, and it is captured. -/
  | captured {t o o' : SymbolTable} {rest rest' : List SymbolTable} {symbol : Symbol} :
      t.bindings.get? name = none → Resolves name ⟨o, rest⟩ symbol ⟨o', rest'⟩ →
      symbol.place ≠ .global → symbol.place ≠ .builtin →
      Resolves name ⟨t, o :: rest⟩ (t.freeSymbol symbol) ⟨t.capture symbol, o' :: rest'⟩

variable {name : String} {symbol : Symbol} {s s' : Symbols} {t t' : SymbolTable} {ts ts' : List SymbolTable}

theorem resolve_eq_iff {found : Option Symbol} :
    s.resolve name = (found, s') ↔ resolveFrom name s.inner s.outer = (found, s'.inner, s'.outer) := by
  rw [resolve]
  generalize resolveFrom name s.inner s.outer = result
  obtain ⟨found', inner, outer⟩ := result
  constructor <;> (intro h; cases h; rfl)

/-! ## Names that are found -/

/-- The way out ends at the first table that stores the name. -/
theorem resolveFrom_of_get? (h : t.bindings.get? name = some symbol) :
    resolveFrom name t ts = (some symbol, t, ts) := by
  cases ts <;> simp [resolveFrom, h]

/-- What the rules say is what happens. -/
theorem Resolves.resolve_eq (h : Resolves name s symbol s') : s.resolve name = (some symbol, s') := by
  induction h with
  | stored hget => exact resolve_eq_iff.mpr (resolveFrom_of_get? hget)
  | main hget _ hmain ih =>
      rw [resolve_eq_iff] at ih ⊢
      rw [resolveFrom, hget]
      rcases hmain with hplace | hplace <;> simp only [ih, hplace]
  | @captured t o o' rest rest' symbol hget _ hglobal hbuiltin ih =>
      rw [resolve_eq_iff] at ih ⊢
      rw [resolveFrom, hget]
      cases hplace : symbol.place with
      | global => exact absurd hplace hglobal
      | builtin => exact absurd hplace hbuiltin
      | _ => simp only [ih, hplace]

/-- Nothing else happens when a name is found. -/
theorem Resolves.of_resolveFrom (h : resolveFrom name t ts = (some symbol, t', ts')) :
    Resolves name ⟨t, ts⟩ symbol ⟨t', ts'⟩ := by
  -- by induction on the tables around, in the direction in which the name is looked for
  induction ts generalizing t symbol t' ts' with
  | nil =>
      simp only [resolveFrom, Prod.mk.injEq] at h
      obtain ⟨hget, rfl, rfl⟩ := h
      exact .stored hget
  | cons next rest ih =>
      cases hget : t.bindings.get? name with
      | some found =>
          rw [resolveFrom_of_get? hget] at h
          cases h
          exact .stored hget
      | none =>
          rw [resolveFrom, hget] at h
          cases hrec : resolveFrom name next rest with
          | mk found tables =>
          rw [hrec] at h
          cases found with
          | none => cases h
          | some found =>
              have hfound := ih hrec
              simp only at h
              split at h
              · next hplace =>
                  cases h
                  exact .main hget hfound (.inl hplace)
              · next hplace =>
                  cases h
                  exact .main hget hfound (.inr hplace)
              · next hglobal hbuiltin =>
                  cases h
                  exact .captured hget hfound hglobal hbuiltin

/-- **A name is found by the rules**, and in no other way. -/
theorem resolve?_eq_some : s.resolve? name = some (symbol, s') ↔ Resolves name s symbol s' := by
  constructor
  · intro h
    obtain ⟨found, hfound, heq⟩ := Option.map_eq_some_iff.mp h
    cases heq
    exact .of_resolveFrom (resolve_eq_iff.mp (Prod.ext hfound rfl))
  · intro h
    rw [resolve?, h.resolve_eq]
    rfl

theorem resolve_of_resolve?_some (h : s.resolve? name = some (symbol, s')) :
    s.resolve name = (some symbol, s') := (resolve?_eq_some.mp h).resolve_eq

/-! ## Names that are not found -/

/-- On the way out no table is changed, and so none is if the way back captures nothing. -/
theorem resolveFrom_of_not_stored (h : ∀ u ∈ t :: ts, u.bindings.get? name = none) :
    resolveFrom name t ts = (none, t, ts) := by
  induction ts generalizing t with
  | nil =>
      rw [List.forall_mem_singleton] at h
      rw [resolveFrom, h]
  | cons next rest ih =>
      rw [List.forall_mem_cons] at h
      rw [resolveFrom, h.1]
      simp only [ih h.2]

theorem resolve_of_not_stored (h : ∀ t ∈ s.tables, t.bindings.get? name = none) :
    s.resolve name = (none, s) := resolve_eq_iff.mpr (resolveFrom_of_not_stored h)

/-- A name that some table stores is found. -/
theorem exists_resolves {found : Symbol} (hmem : t ∈ s.tables) (hget : t.bindings.get? name = some found) :
    ∃ symbol s', Resolves name s symbol s' := by
  obtain ⟨u, us⟩ := s
  induction us generalizing u with
  | nil =>
      rw [tables, List.mem_singleton] at hmem
      subst hmem
      exact ⟨found, _, .stored hget⟩
  | cons next rest ih =>
      cases hinner : u.bindings.get? name with
      | some symbol => exact ⟨symbol, _, .stored hinner⟩
      | none =>
          have hbehind : t ∈ tables ⟨next, rest⟩ := by
            refine (List.mem_cons.mp hmem).resolve_left ?_
            rintro rfl
            rw [hget] at hinner
            cases hinner
          obtain ⟨symbol, s', hresolves⟩ := ih next hbehind
          by_cases hmain : symbol.place = .global ∨ symbol.place = .builtin
          · exact ⟨symbol, _, .main hinner hresolves hmain⟩
          · rw [not_or] at hmain
            exact ⟨u.freeSymbol symbol, _, .captured hinner hresolves hmain.1 hmain.2⟩

/-- **A name is not found** just if no table stores it. -/
theorem resolve?_eq_none : s.resolve? name = none ↔ ∀ t ∈ s.tables, t.bindings.get? name = none := by
  constructor
  · intro h t hmem
    cases hget : t.bindings.get? name with
    | none => rfl
    | some found =>
        obtain ⟨symbol, s', hresolves⟩ := exists_resolves hmem hget
        rw [resolve?_eq_some.mpr hresolves] at h
        cases h
  · intro h
    rw [resolve?, resolve_of_not_stored h]
    rfl

/-- **Looking an unknown name up** leaves all tables as they are. -/
theorem resolve_of_resolve?_none (h : s.resolve? name = none) : s.resolve name = (none, s) :=
  resolve_of_not_stored (resolve?_eq_none.mp h)

end Symbols

end ScriptLang
