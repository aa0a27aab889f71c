import Mathlib.Data.List.Chain
import ScriptLang.Proofs.Symbols.Names

/-!
# Coherence of symbol tables

What holds of a chain of tables whatever has been done to it, in any order: slots are not shared, captures
are neither lost nor repeated, and each captured symbol is the one that the table around stores. Unlike
`Symbols.Sound`, this asks nothing of the built-in functions that have been defined.

* `SymbolTable.Coherent` — what holds of one table;
* `SymbolTable.Inside` — what holds of a table and the one around it.

Looking a name up is the one operation that changes tables further out. It only ever adds names there, which
keeps what the tables further in have captured. Main statement: `Symbols.after_coherent`.
-/

namespace ScriptLang

/-! ## Operations -/

/-- What can be done to a chain of tables. -/
inductive Symbols.Operation where
  | define (name : String)
  | defineBuiltin (index : Nat) (name : String)
  | defineFunctionName (name : String)
  | resolve (name : String)
  | enter
  | leave

/-- What an operation makes of a chain. Leaving the main program changes nothing. -/
def Symbols.apply (s : Symbols) : Operation → Symbols
  | .define name => s.define name
  | .defineBuiltin index name => s.defineBuiltin index name
  | .defineFunctionName name => s.defineFunctionName name
  | .resolve name => (s.resolve name).2
  | .enter => s.enter
  | .leave => s.leave?.getD s

/-- The tables after some operations. At first there is the one of the main program, which is empty. -/
def Symbols.after (ops : List Operation) : Symbols := ops.foldl Symbols.apply {}

/-! ## The invariant -/

/-- Whether a symbol has a slot of its own in the table that defines it. -/
def Symbol.HasSlot (symbol : Symbol) : Prop := symbol.place = .global ∨ symbol.place = .local

namespace SymbolTable

/-- What a table stores and what it has captured go together. -/
structure Coherent (t : SymbolTable) : Prop where
  /-- A symbol is stored under its name. -/
  name_eq : ∀ name symbol, t.bindings.get? name = some symbol → symbol.name = name
  /-- A free symbol stands for the capture with its number, which has its name. -/
  free : ∀ name symbol, t.bindings.get? name = some symbol → symbol.place = .free →
    ∃ h : symbol.index < t.captures.length, t.captures[symbol.index].name = name
  /-- No name is captured twice. -/
  nodup : (t.captures.map Symbol.name).Nodup
  /-- What has been captured has a name in the table from then on. -/
  stored : ∀ symbol ∈ t.captures, (t.bindings.get? symbol.name).isSome
  /-- Different names have different slots. -/
  slots : ∀ name name' symbol symbol', t.bindings.get? name = some symbol →
    t.bindings.get? name' = some symbol' → symbol.HasSlot → symbol'.HasSlot → name ≠ name' →
    symbol.index ≠ symbol'.index
  /-- The slots are those that definitions have taken. -/
  bounded : ∀ name symbol, t.bindings.get? name = some symbol → symbol.HasSlot →
    symbol.index < t.numDefinitions

/-- A table and the one around it. -/
structure Inside (t o : SymbolTable) : Prop where
  /-- What is captured is stored outside, and it belongs to a function. -/
  captures : ∀ symbol ∈ t.captures, (symbol.place = .local ∨ symbol.place = .free ∨ symbol.place = .function) ∧
    o.bindings.get? symbol.name = some symbol
  /-- A function has no globals. -/
  not_global : ∀ name symbol, t.bindings.get? name = some symbol → symbol.place ≠ .global

end SymbolTable

/-- All tables of a chain are coherent, and each one is inside the next. -/
def Symbols.Coherent (s : Symbols) : Prop :=
  (∀ t ∈ s.tables, t.Coherent) ∧ s.tables.IsChain SymbolTable.Inside

/-! ## One table -/

/-- A name stands for what was just bound to it, or for what it stood for. -/
theorem Bindings.get?_insert_eq_some {α : Type} {name other : String} {value found : α}
    {bindings : Bindings α} (h : get? other (bindings.insert name value) = some found) :
    other = name ∧ found = value ∨ other ≠ name ∧ get? other bindings = some found := by
  by_cases hname : other = name
  · subst hname
    rw [get?_insert_self, Option.some.injEq] at h
    exact .inl ⟨rfl, h.symm⟩
  · rw [get?_insert_of_ne hname] at h
    exact .inr ⟨hname, h⟩

namespace SymbolTable

variable {t t' o o' : SymbolTable} {symbol : Symbol}

/-- A new table has nothing that could be out of order. -/
theorem Coherent.empty : Coherent {} where
  name_eq := nofun
  free := nofun
  nodup := .nil
  stored := nofun
  slots := nofun
  bounded := nofun

/-- Storing a symbol. If it has a slot, then it is a new one. -/
theorem Coherent.store (h : t.Coherent) (symbol : Symbol)
    (hbindings : t'.bindings = t.bindings.insert symbol.name symbol)
    (hcaptures : t.captures <+: t'.captures) (hnodup : (t'.captures.map Symbol.name).Nodup)
    (hnew : ∀ captured ∈ t'.captures, captured ∈ t.captures ∨ captured.name = symbol.name)
    (hfree : symbol.place = .free → ∃ h : symbol.index < t'.captures.length,
      t'.captures[symbol.index].name = symbol.name)
    (hle : t.numDefinitions ≤ t'.numDefinitions)
    (hslot : symbol.HasSlot → t.numDefinitions ≤ symbol.index ∧ symbol.index < t'.numDefinitions) :
    t'.Coherent where
  name_eq := by
    intro name found hget
    rw [hbindings] at hget
    rcases Bindings.get?_insert_eq_some hget with ⟨rfl, rfl⟩ | ⟨-, hold⟩
    · rfl
    · exact h.name_eq name found hold
  free := by
    intro name found hget hplace
    rw [hbindings] at hget
    rcases Bindings.get?_insert_eq_some hget with ⟨rfl, rfl⟩ | ⟨-, hold⟩
    · exact hfree hplace
    · obtain ⟨hlt, hname⟩ := h.free name found hold hplace
      refine ⟨Nat.lt_of_lt_of_le hlt hcaptures.length_le, ?_⟩
      rw [← hcaptures.getElem hlt, hname]
  nodup := hnodup
  stored := by
    intro captured hmem
    rw [hbindings]
    by_cases hname : captured.name = symbol.name
    · rw [hname, Bindings.get?_insert_self]
      rfl
    · rw [Bindings.get?_insert_of_ne hname]
      exact h.stored captured ((hnew captured hmem).resolve_right hname)
  slots := by
    intro name name' found found' hget hget' hslot₁ hslot₂ hne
    rw [hbindings] at hget hget'
    rcases Bindings.get?_insert_eq_some hget with ⟨rfl, rfl⟩ | ⟨-, hold⟩ <;>
      rcases Bindings.get?_insert_eq_some hget' with ⟨rfl, rfl⟩ | ⟨-, hold'⟩
    · exact absurd rfl hne
    · have := h.bounded name' found' hold' hslot₂
      have := hslot hslot₁
      omega
    · have := h.bounded name found hold hslot₁
      have := hslot hslot₂
      omega
    · exact h.slots name name' found found' hold hold' hslot₁ hslot₂ hne
  bounded := by
    intro name found hget hfound
    rw [hbindings] at hget
    rcases Bindings.get?_insert_eq_some hget with ⟨rfl, rfl⟩ | ⟨-, hold⟩
    · exact (hslot hfound).2
    · exact Nat.lt_of_lt_of_le (h.bounded name found hold hfound) hle

/-- Capturing a symbol whose name the table does not know. -/
theorem Coherent.capture (h : t.Coherent) (hnone : t.bindings.get? symbol.name = none) :
    (t.capture symbol).Coherent := by
  refine h.store (t.freeSymbol symbol) rfl (List.prefix_append _ _) ?_ ?_ ?_ (Nat.le_refl _) ?_
  · -- a captured name would be known
    rw [SymbolTable.capture, List.map_append, List.nodup_append]
    refine ⟨h.nodup, List.pairwise_singleton _ _, ?_⟩
    rintro name hname name' hname' rfl
    obtain ⟨captured, hmem, rfl⟩ := List.mem_map.mp hname
    have hstored := h.stored captured hmem
    rw [List.map_singleton, List.mem_singleton] at hname'
    rw [hname', hnone] at hstored
    cases hstored
  · intro captured hmem
    rcases List.mem_append.mp hmem with hold | hnew
    · exact .inl hold
    · rw [List.mem_singleton.mp hnew]
      exact .inr rfl
  · intro _
    simp [SymbolTable.capture, freeSymbol]
  · rintro (hplace | hplace) <;> cases hplace

/-- Storing a symbol that captures nothing. -/
theorem Coherent.bind (h : t.Coherent) (hslot : ¬ symbol.HasSlot) (hfree : symbol.place ≠ .free) :
    (t.bind symbol).Coherent := by
  refine h.store symbol rfl (List.prefix_refl _) h.nodup ?_ ?_ (Nat.le_refl _) ?_
  · exact fun _ hmem => .inl hmem
  · exact fun hplace => absurd hplace hfree
  · exact fun h => absurd h hslot

/-! ## A table and the one around it -/

theorem Inside.empty (o : SymbolTable) : Inside {} o := ⟨nofun, nofun⟩

theorem Inside.mono (h : t.Inside o) (hext : o.Extends o') : t.Inside o' :=
  ⟨fun symbol hmem => ⟨(h.captures symbol hmem).1, hext.bindings _ _ (h.captures symbol hmem).2⟩, h.not_global⟩

/-- Storing a symbol, which may have been captured just now. -/
theorem Inside.store (h : t.Inside o) (symbol : Symbol)
    (hbindings : t'.bindings = t.bindings.insert symbol.name symbol)
    (hplace : symbol.place ≠ .global) (hcaptures : ∀ captured ∈ t'.captures, captured ∈ t.captures ∨
      (captured.place = .local ∨ captured.place = .free ∨ captured.place = .function) ∧
        o.bindings.get? captured.name = some captured) : t'.Inside o where
  captures := by
    intro captured hmem
    rcases hcaptures captured hmem with hold | hnew
    · exact h.captures captured hold
    · exact hnew
  not_global := by
    intro name found hget
    rw [hbindings] at hget
    rcases Bindings.get?_insert_eq_some hget with ⟨-, rfl⟩ | ⟨-, hold⟩
    · exact hplace
    · exact h.not_global name found hold

end SymbolTable

namespace Symbols

open SymbolTable

/-! ## Definitions -/

variable {s s' : Symbols} {name : String} {symbol : Symbol}

/-- Changing the innermost table. -/
theorem Coherent.update {t : SymbolTable} (h : s.Coherent) (ht : t.Coherent)
    (hinside : ∀ o ∈ s.outer.head?, s.inner.Inside o → t.Inside o) :
    Coherent ⟨t, s.outer⟩ := by
  obtain ⟨hall, hchain⟩ := h
  refine ⟨List.forall_mem_cons.mpr ⟨ht, (List.forall_mem_cons.mp hall).2⟩, ?_⟩
  rw [tables] at hchain ⊢
  cases houter : s.outer with
  | nil => exact List.isChain_singleton t
  | cons o rest =>
      rw [houter, List.isChain_cons_cons] at hchain
      rw [List.isChain_cons_cons]
      exact ⟨hinside o (by rw [houter]; rfl) hchain.1, hchain.2⟩

theorem Coherent.inner (h : s.Coherent) : s.inner.Coherent := h.1 s.inner List.mem_cons_self

theorem Coherent.define (h : s.Coherent) (name : String) : (s.define name).Coherent := by
  apply h.update
  · refine h.inner.store (s.definedSymbol name) rfl (List.prefix_refl _) h.inner.nodup ?_ ?_ (Nat.le_succ _) ?_
    · exact fun _ hmem => .inl hmem
    · intro hplace
      rw [definedSymbol, definitionPlace] at hplace
      split at hplace <;> cases hplace
    · exact fun _ => ⟨Nat.le_refl _, Nat.lt_succ_self _⟩
  · intro o ho hinside
    -- with a table around, what is defined is a local
    refine hinside.store (s.definedSymbol name) rfl ?_ fun _ hmem => .inl hmem
    obtain ⟨rest, hrest⟩ := List.head?_eq_some_iff.mp ho
    rw [definedSymbol, definitionPlace, hrest]
    exact Place.noConfusion

theorem Coherent.bind (h : s.Coherent) (hslot : ¬ symbol.HasSlot)
    (hfree : symbol.place ≠ .free) : Coherent { s with inner := s.inner.bind symbol } := by
  apply h.update (h.inner.bind hslot hfree)
  intro o _ hinside
  exact hinside.store symbol rfl (fun hplace => hslot (.inl hplace)) fun _ hmem => .inl hmem

theorem Coherent.enter (h : s.Coherent) : s.enter.Coherent :=
  ⟨List.forall_mem_cons.mpr ⟨.empty, h.1⟩, List.isChain_cons_cons.mpr ⟨.empty _, h.2⟩⟩

theorem Coherent.leave (h : s.Coherent) (hleave : s.leave? = some s') : s'.Coherent := by
  obtain ⟨t, ts⟩ := s
  cases ts with
  | nil => cases hleave
  | cons o rest =>
      cases hleave
      exact ⟨fun u hu => h.1 u (List.mem_cons_of_mem _ hu), (List.isChain_cons_cons.mp h.2).2⟩

/-! ## Looking a name up -/

/-- A chain with one more table inside. -/
theorem coherent_cons {t o : SymbolTable} {rest : List SymbolTable} :
    Coherent ⟨t, o :: rest⟩ ↔ t.Coherent ∧ t.Inside o ∧ Coherent ⟨o, rest⟩ := by
  simp only [Coherent, tables, List.forall_mem_cons, List.isChain_cons_cons]
  grind

/-- The rules of looking a name up keep the tables coherent. What is found has the name that is looked up. It
belongs to the main program, or else the innermost table stores it, where it may have been captured just now. -/
theorem Coherent.resolves (hresolves : Resolves name s symbol s') (h : s.Coherent) :
    s'.Coherent ∧ s.inner.Extends s'.inner ∧ symbol.name = name ∧
      ((symbol.place = .global ∨ symbol.place = .builtin) ∨ s'.inner.bindings.get? name = some symbol) := by
  induction hresolves with
  | stored hget => exact ⟨h, .refl _, h.inner.name_eq _ _ hget, .inr hget⟩
  | main _ _ hmain ih =>
      obtain ⟨ht, hinside, hnext⟩ := coherent_cons.mp h
      obtain ⟨hnext', hext, hname, -⟩ := ih hnext
      exact ⟨coherent_cons.mpr ⟨ht, hinside.mono hext, hnext'⟩, .refl _, hname, .inl hmain⟩
  | @captured t o o' rest rest' symbol hget _ hglobal hbuiltin ih =>
      obtain ⟨ht, hinside, hnext⟩ := coherent_cons.mp h
      obtain ⟨hnext', hext, rfl, hfound⟩ := ih hnext
      have hstored := hfound.resolve_left (not_or.mpr ⟨hglobal, hbuiltin⟩)
      refine ⟨coherent_cons.mpr ⟨ht.capture hget, ?_, hnext'⟩, extends_capture hget, rfl,
        .inr (Bindings.get?_insert_self _ _ _)⟩
      refine (hinside.mono hext).store (t.freeSymbol symbol) rfl Place.noConfusion fun captured hmem => ?_
      rcases List.mem_append.mp hmem with hold | hnew
      · exact .inl hold
      · rw [List.mem_singleton.mp hnew]
        refine .inr ⟨?_, hstored⟩
        cases hplace : symbol.place <;> simp_all

/-- Whether a name is found or not, the tables stay coherent. -/
theorem Coherent.resolve (h : s.Coherent) (name : String) : (s.resolve name).2.Coherent := by
  cases hresolve : s.resolve? name with
  | none =>
      rw [resolve_of_resolve?_none hresolve]
      exact h
  | some found =>
      rw [resolve_of_resolve?_some hresolve]
      exact (Coherent.resolves (resolve?_eq_some.mp hresolve) h).1

/-! ## Whole sequences of operations -/

/-- **A step** keeps the tables coherent. -/
theorem Coherent.apply (h : s.Coherent) (op : Operation) : (s.apply op).Coherent := by
  cases op with
  | define name => exact h.define name
  | defineBuiltin index name =>
      apply h.bind
      · rintro (hplace | hplace) <;> cases hplace
      · exact Place.noConfusion
  | defineFunctionName name =>
      apply h.bind
      · rintro (hplace | hplace) <;> cases hplace
      · exact Place.noConfusion
  | resolve name => exact h.resolve name
  | enter => exact h.enter
  | leave =>
      rw [Symbols.apply]
      cases hleave : s.leave? with
      | none => exact h
      | some s' => exact h.leave hleave

/-- The first table. -/
theorem Coherent.first : Coherent {} :=
  ⟨List.forall_mem_singleton.mpr .empty, List.isChain_singleton _⟩

theorem Coherent.foldl (h : s.Coherent) (ops : List Operation) : (ops.foldl Symbols.apply s).Coherent := by
  induction ops generalizing s with
  | nil => exact h
  | cons op ops ih => exact ih (h.apply op)

/-- **Symbol tables are coherent** whatever has been done to them. -/
theorem after_coherent (ops : List Operation) : (after ops).Coherent := Coherent.first.foldl ops

/-- A name that is defined again in a function stays captured by the function inside it. -/
example : (after [.enter, .define "x", .enter, .resolve "x", .define "x"]).inner.captures =
    [⟨"x", .local, 0⟩] := by decide

end Symbols

end ScriptLang
