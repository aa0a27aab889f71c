import Mathlib.Data.List.Forall2
import ScriptLang.Proofs.Symbols.Coherence

/-!
# Looking a name up

What a name stands for is decided by the innermost table that stores it. A name of the main program is used as
it is. The name of a function further out is captured once by every table in between, and each capture leads
to the table around it, the last one to the table that stores the name.

* `SymbolTable.Gains` — what a capture does to one table;
* `Symbol.follow?` — where a chain of captures leads;
* `Symbols.Lexical` — what looking a name up does to a whole chain of tables.

Main statement: `Symbols.lexical_after`.
-/

namespace ScriptLang

/-- A table has captured a symbol with a name that was new to it, and nothing else has changed. -/
structure SymbolTable.Gains (name : String) (t t' : SymbolTable) : Prop where
  captures : ∃ symbol : Symbol, symbol.name = name ∧ t'.captures = t.captures ++ [symbol]
  stored : t'.bindings.get? name = some ⟨name, .free, t.captures.length⟩
  others : ∀ other, other ≠ name → t'.bindings.get? other = t.bindings.get? other
  numDefinitions : t'.numDefinitions = t.numDefinitions

/-- Follows a symbol from table to table: a free symbol stands for the capture with its number. -/
def Symbol.follow? : List SymbolTable → Symbol → Option Symbol
  | [], symbol => some symbol
  | t :: ts, symbol =>
    match symbol.place with
    | .free => t.captures[symbol.index]?.bind (follow? ts)
    | _ => none

/-- What looking a name up does. In the fields, `t` is the innermost table that stores the name, and `within`
are the tables inside it. -/
structure Symbols.Lexical (s : Symbols) (name : String) : Prop where
  /-- Nothing is found just if no table stores the name, -/
  none_iff : s.resolve? name = none ↔ ∀ t ∈ s.tables, t.bindings.get? name = none
  /-- and then the tables stay as they are. -/
  unchanged : s.resolve? name = none → s.apply (.resolve name) = s
  /-- The symbol in `t` is found as it is if `t` is the table at hand or the symbol belongs to the main
  program. -/
  direct : ∀ within t around found, s.tables = within ++ t :: around →
    (∀ u ∈ within, u.bindings.get? name = none) → t.bindings.get? name = some found →
    within = [] ∨ found.place = .global ∨ found.place = .builtin → s.resolve? name = some (found, s)
  /-- Otherwise each table in `within` captures the name, and the captures lead to the symbol in `t`. -/
  captured : ∀ within t around found, s.tables = within ++ t :: around →
    (∀ u ∈ within, u.bindings.get? name = none) → t.bindings.get? name = some found →
    within ≠ [] → found.place ≠ .global → found.place ≠ .builtin →
    ∃ symbol s' within', s.resolve? name = some (symbol, s') ∧ symbol.place = .free ∧
      s'.tables = within' ++ t :: around ∧ List.Forall₂ (SymbolTable.Gains name) within within' ∧
      symbol.follow? within' = some found
  /-- Looking the name up again gives the same and changes nothing. -/
  again : ∀ symbol s', s.resolve? name = some (symbol, s') → s'.resolve? name = some (symbol, s')

/-! ## One table -/

namespace SymbolTable

variable {t : SymbolTable} {symbol : Symbol}

theorem gains_capture (t : SymbolTable) (symbol : Symbol) : t.Gains symbol.name (t.capture symbol) where
  captures := ⟨symbol, rfl, rfl⟩
  stored := Bindings.get?_insert_self _ _ _
  others := fun _ hne => Bindings.get?_insert_of_ne hne _ _
  numDefinitions := rfl

/-- The symbol of a new capture leads to what is captured. -/
theorem follow?_capture (t : SymbolTable) (symbol : Symbol) (ts : List SymbolTable) :
    (t.freeSymbol symbol).follow? (t.capture symbol :: ts) = symbol.follow? ts := by
  simp [Symbol.follow?, freeSymbol, capture]

end SymbolTable

namespace Symbols

open SymbolTable

variable {s s' : Symbols} {name : String} {symbol found : Symbol} {t o : SymbolTable}
  {ts within around : List SymbolTable}

/-! ## From the inside out -/

/-- A symbol of the main program is found as it is. -/
theorem resolves_of_main (hget : o.bindings.get? name = some found)
    (hmain : found.place = .global ∨ found.place = .builtin) (heq : s.tables = within ++ o :: around)
    (hnone : ∀ u ∈ within, u.bindings.get? name = none) : Resolves name s found s := by
  induction within generalizing s with
  | nil =>
      obtain ⟨t, ts⟩ := s
      cases heq
      exact .stored hget
  | cons u within ih =>
      obtain ⟨t, ts⟩ := s
      rw [tables, List.cons_append, List.cons.injEq] at heq
      obtain ⟨rfl, htail⟩ := heq
      rw [List.forall_mem_cons] at hnone
      cases ts with
      | nil => cases within <;> cases htail
      | cons next rest => exact .main hnone.1 (ih (s := ⟨next, rest⟩) htail hnone.2) hmain

/-- Any other symbol is captured on the way back. -/
theorem resolves_of_function (hget : o.bindings.get? name = some found) (hname : found.name = name)
    (hglobal : found.place ≠ .global) (hbuiltin : found.place ≠ .builtin)
    (heq : s.tables = within ++ o :: around) (hnone : ∀ u ∈ within, u.bindings.get? name = none) :
    ∃ symbol s' within', Resolves name s symbol s' ∧ symbol.name = name ∧
      (symbol.place = .free ∨ within = [] ∧ symbol = found) ∧ s'.tables = within' ++ o :: around ∧
      List.Forall₂ (Gains name) within within' ∧ symbol.follow? within' = some found := by
  -- by induction on the tables that capture the name
  induction within generalizing s with
  | nil =>
      obtain ⟨t, ts⟩ := s
      cases heq
      exact ⟨found, _, [], .stored hget, hname, .inr ⟨rfl, rfl⟩, rfl, .nil, rfl⟩
  | cons u within ih =>
      obtain ⟨t, ts⟩ := s
      rw [tables, List.cons_append, List.cons.injEq] at heq
      obtain ⟨rfl, htail⟩ := heq
      rw [List.forall_mem_cons] at hnone
      cases ts with
      | nil => cases within <;> cases htail
      | cons next rest =>
          obtain ⟨symbol, s', within', hresolves, rfl, hplace, htables, hgains, hfollow⟩ :=
            ih (s := ⟨next, rest⟩) htail hnone.2
          -- what is captured is never a symbol of the main program
          have hfunction : symbol.place ≠ .global ∧ symbol.place ≠ .builtin := by
            rcases hplace with hfree | ⟨-, rfl⟩
            · rw [hfree]
              exact ⟨Place.noConfusion, Place.noConfusion⟩
            · exact ⟨hglobal, hbuiltin⟩
          refine ⟨t.freeSymbol symbol, _, t.capture symbol :: within',
            .captured hnone.1 hresolves hfunction.1 hfunction.2, rfl, .inl rfl, ?_,
            .cons (t.gains_capture symbol) hgains, ?_⟩
          · exact congrArg (t.capture symbol :: ·) htables
          · rw [follow?_capture, hfollow]

/-! ## Whole chains -/

/-- The innermost table that stores a name. -/
theorem exists_innermost (h : ¬ ∀ t ∈ ts, t.bindings.get? name = none) :
    ∃ within t around found, ts = within ++ t :: around ∧
      (∀ u ∈ within, u.bindings.get? name = none) ∧ t.bindings.get? name = some found := by
  obtain ⟨t, hfind⟩ : ∃ t, ts.find? (fun t => (t.bindings.get? name).isSome) = some t := by
    rw [← Option.isSome_iff_exists, List.find?_isSome]
    simpa [Option.ne_none_iff_isSome] using h
  obtain ⟨hsome, within, around, heq, hnone⟩ := List.find?_eq_some_iff_append.mp hfind
  obtain ⟨found, hget⟩ := Option.isSome_iff_exists.mp hsome
  refine ⟨within, t, around, found, heq, fun u hu => ?_, hget⟩
  simpa using hnone u hu

/-- Names are looked up lexically in coherent tables. -/
theorem Coherent.lexical (h : s.Coherent) (name : String) : s.Lexical name := by
  have hdirect : ∀ within t around found, s.tables = within ++ t :: around →
      (∀ u ∈ within, u.bindings.get? name = none) → t.bindings.get? name = some found →
      within = [] ∨ found.place = .global ∨ found.place = .builtin → s.resolve? name = some (found, s) := by
    rintro within t around found heq hnone hget (rfl | hmain) <;> rw [resolve?_eq_some]
    · cases heq
      exact .stored hget
    · exact resolves_of_main hget hmain heq hnone
  have hcaptured : ∀ within t around found, s.tables = within ++ t :: around →
      (∀ u ∈ within, u.bindings.get? name = none) → t.bindings.get? name = some found →
      within ≠ [] → found.place ≠ .global → found.place ≠ .builtin →
      ∃ symbol s' within', s.resolve? name = some (symbol, s') ∧ symbol.place = .free ∧
        s'.tables = within' ++ t :: around ∧ List.Forall₂ (Gains name) within within' ∧
        symbol.follow? within' = some found := by
    intro within t around found heq hnone hget hne hglobal hbuiltin
    have ht : t ∈ s.tables := by
      rw [heq]
      exact List.mem_append_right _ List.mem_cons_self
    obtain ⟨symbol, s', within', hresolves, -, hplace, htables, hgains, hfollow⟩ :=
      resolves_of_function hget ((h.1 t ht).name_eq name found hget) hglobal hbuiltin heq hnone
    exact ⟨symbol, s', within', resolve?_eq_some.mpr hresolves,
      hplace.resolve_right fun hnil => hne hnil.1, htables, hgains, hfollow⟩
  refine ⟨resolve?_eq_none, fun hnone => ?_, hdirect, hcaptured, fun symbol s' hresolve => ?_⟩
  · rw [Symbols.apply, resolve_of_resolve?_none hnone]
  · have hstored : ¬ ∀ t ∈ s.tables, t.bindings.get? name = none := by
      rw [← resolve?_eq_none, hresolve]
      exact Option.some_ne_none _
    obtain ⟨within, t, around, found, heq, hnone, hget⟩ := exists_innermost hstored
    by_cases hmain : within = [] ∨ found.place = .global ∨ found.place = .builtin
    · have hself := hdirect within t around found heq hnone hget hmain
      rw [hself] at hresolve
      cases hresolve
      exact hself
    · -- a table that has just captured the name stores what it is captured as
      obtain ⟨hne, hglobal, hbuiltin⟩ : within ≠ [] ∧ found.place ≠ .global ∧ found.place ≠ .builtin := by
        simpa only [not_or] using hmain
      obtain ⟨symbol', s'', within', hresolve', hfree, -⟩ :=
        hcaptured within t around found heq hnone hget hne hglobal hbuiltin
      rw [hresolve'] at hresolve
      cases hresolve
      obtain ⟨-, -, -, hplace | hinner⟩ := Coherent.resolves (resolve?_eq_some.mp hresolve') h
      · rw [hfree] at hplace
        rcases hplace with hplace | hplace <;> cases hplace
      · exact resolve?_eq_some.mpr (.stored hinner)

/-- **Names are looked up lexically**, and captured once, whatever has been done to the tables. -/
theorem lexical_after (ops : List Operation) (name : String) : (after ops).Lexical name :=
  (Coherent.first.foldl ops).lexical name

/-- A parameter that is used two functions further in. -/
theorem lexical_parameter :
    let s := after [.enter, .define "x", .enter, .enter]
    ∃ symbol s' within', s.resolve? "x" = some (symbol, s') ∧ symbol.place = .free ∧
      s'.tables = within' ++ s.tables.drop 2 ∧ List.Forall₂ (Gains "x") (s.tables.take 2) within' ∧
      symbol.follow? within' = some ⟨"x", .local, 0⟩ := by
  have h := lexical_after [.enter, .define "x", .enter, .enter] "x"
  exact h.captured [{}, {}] ⟨[("x", ⟨"x", .local, 0⟩)], [], 1⟩ [{}] ⟨"x", .local, 0⟩ rfl (by decide) rfl
    (by decide) (by decide) (by decide)

end Symbols

end ScriptLang
