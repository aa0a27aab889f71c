import Mathlib.Data.List.Forall2
import ScriptLang.Proofs.Compiler.Layout
import ScriptLang.Proofs.Symbols.Lookup

/-!
# Soundness of symbol tables

A table is sound if every symbol in it has the slot that it names: `Symbols.Sound` says so of a whole chain
of tables, and that each captured symbol is the one that the table around binds to that name. Main
statements:

* `Symbols.resolve?_spec` — looking a name up keeps a chain sound, changes it by captures alone, and
  yields a symbol that can be loaded;
* `Symbols.Sound.define`, `Symbols.Sound.openFunction` and `Symbols.Sound.leave` — so do the other
  operations of the compiler.
-/

namespace ScriptLang

/-! ## One table

A symbol names a slot: of the globals, of the locals of a call, of what a closure captured, or of the table of
built-in functions. The slots of a table only ever grow in number, so a symbol that was valid stays valid
(`Symbol.Valid.mono`), and a table is sound because each new symbol is valid when it is bound
(`SymbolTable.Sound.bind`). -/

/-- The slot of a symbol exists in a table. The main program has globals and built-in functions, and only
a function has the others. -/
def Symbol.Valid (symbol : Symbol) (nested : Bool) (table : SymbolTable) : Prop :=
  match symbol.place with
  | .global => nested = false ∧ symbol.index < table.numDefinitions
  | .local => nested = true ∧ symbol.index < table.numDefinitions
  | .builtin =>
    nested = false ∧ (Builtin.ofIndex? symbol.index).map Builtin.name = some symbol.name
  | .free => nested = true ∧ table.captures[symbol.index]?.map Symbol.name = some symbol.name
  | .function => nested = true

namespace SymbolTable

/-- Every name stands for a symbol of that name whose slot exists. -/
def Sound (nested : Bool) (table : SymbolTable) : Prop :=
  ∀ name symbol, table.bindings.get? name = some symbol →
    symbol.name = name ∧ symbol.Valid nested table

/-- The slots of a table are still there. -/
structure Grows (t t' : SymbolTable) : Prop where
  numDefinitions : t.numDefinitions ≤ t'.numDefinitions
  captures : t.captures <+: t'.captures

/-- A table has captured some symbols, and nothing else has changed. -/
structure Extends (t t' : SymbolTable) : Prop where
  numDefinitions : t'.numDefinitions = t.numDefinitions
  captures : t.captures <+: t'.captures
  bindings : ∀ name symbol, t.bindings.get? name = some symbol → t'.bindings.get? name = some symbol

/-- A symbol that a function captures from the table around it. -/
def Lends (table : SymbolTable) (symbol : Symbol) : Prop :=
  table.bindings.get? symbol.name = some symbol ∧
    symbol.place ≠ .global ∧ symbol.place ≠ .builtin

theorem Grows.refl (t : SymbolTable) : t.Grows t := ⟨Nat.le_refl _, List.prefix_refl _⟩

/-- A table whose slots are the same, whatever its names stand for now. -/
theorem Grows.of_eq {t t' : SymbolTable} (hn : t.numDefinitions = t'.numDefinitions)
    (hc : t.captures = t'.captures) : t.Grows t' :=
  ⟨Nat.le_of_eq hn, hc ▸ List.prefix_refl _⟩

theorem Grows.trans {t₁ t₂ t₃ : SymbolTable} (h₁ : t₁.Grows t₂) (h₂ : t₂.Grows t₃) : t₁.Grows t₃ :=
  ⟨Nat.le_trans h₁.numDefinitions h₂.numDefinitions, h₁.captures.trans h₂.captures⟩

theorem Extends.refl (t : SymbolTable) : t.Extends t := ⟨rfl, List.prefix_refl _, fun _ _ h => h⟩

theorem Extends.trans {t₁ t₂ t₃ : SymbolTable} (h₁ : t₁.Extends t₂) (h₂ : t₂.Extends t₃) :
    t₁.Extends t₃ :=
  ⟨h₂.numDefinitions.trans h₁.numDefinitions, h₁.captures.trans h₂.captures,
    fun name symbol h => h₂.bindings name symbol (h₁.bindings name symbol h)⟩

theorem Extends.grows {t t' : SymbolTable} (h : t.Extends t') : t.Grows t' :=
  ⟨Nat.le_of_eq h.numDefinitions.symm, h.captures⟩

/-- What a table lends, it still lends after it has captured symbols itself. -/
theorem Lends.mono {t t' : SymbolTable} {symbol : Symbol} (h : t.Lends symbol) (ht : t.Extends t') :
    t'.Lends symbol :=
  ⟨ht.bindings _ _ h.1, h.2⟩

end SymbolTable

/-- The slot of a valid symbol does not go away. -/
theorem Symbol.Valid.mono {symbol : Symbol} {nested : Bool} {t t' : SymbolTable}
    (h : symbol.Valid nested t) (ht : t.Grows t') : symbol.Valid nested t' := by
  rw [Valid] at h ⊢
  cases hplace : symbol.place with
  | global =>
      simp only [hplace] at h ⊢
      exact ⟨h.1, Nat.lt_of_lt_of_le h.2 ht.numDefinitions⟩
  | «local» =>
      simp only [hplace] at h ⊢
      exact ⟨h.1, Nat.lt_of_lt_of_le h.2 ht.numDefinitions⟩
  | builtin => simpa only [hplace] using h
  | free =>
      simp only [hplace] at h ⊢
      refine ⟨h.1, ?_⟩
      obtain ⟨captured, hget, hname⟩ := Option.map_eq_some_iff.mp h.2
      obtain ⟨more, hmore⟩ := ht.captures
      have hlt := (List.getElem?_eq_some_iff.mp hget).1
      rw [← hmore, List.getElem?_append_left hlt, hget]
      exact congrArg some hname
  | function => simpa only [hplace] using h

namespace SymbolTable

theorem Sound.empty (nested : Bool) : Sound nested {} := by
  intro name symbol h
  simp at h

/-- Binding a name to a valid symbol. The slots of the table may grow at the same time. -/
theorem Sound.bind {t t' : SymbolTable} {nested : Bool} (symbol : Symbol) (h : t.Sound nested)
    (hbindings : t'.bindings = t.bindings.insert symbol.name symbol) (hgrows : t.Grows t')
    (hvalid : symbol.Valid nested t') : t'.Sound nested := by
  intro name other hget
  rw [hbindings] at hget
  by_cases hname : name = symbol.name
  · rw [hname, Bindings.get?_insert_self] at hget
    cases hget
    exact ⟨hname.symm, hvalid⟩
  · rw [Bindings.get?_insert_of_ne hname] at hget
    obtain ⟨hother, hv⟩ := h _ _ hget
    exact ⟨hother, hv.mono hgrows⟩

/-- A name that is not yet bound can be captured, and every other name keeps its meaning. -/
theorem extends_capture {t : SymbolTable} {symbol : Symbol}
    (h : t.bindings.get? symbol.name = none) : t.Extends (t.capture symbol) := by
  refine ⟨rfl, List.prefix_append _ _, fun name other hget => ?_⟩
  have hname : name ≠ symbol.name := by
    rintro rfl
    rw [h] at hget
    cases hget
  exact (Bindings.get?_insert_of_ne hname _ _).trans hget

/-- A captured symbol stands for the last of the captures. -/
theorem Sound.capture {t : SymbolTable} {symbol : Symbol} (h : t.Sound true) :
    (t.capture symbol).Sound true := by
  refine Sound.bind (t.freeSymbol symbol) h rfl ⟨Nat.le_refl _, List.prefix_append _ _⟩ ?_
  refine ⟨rfl, ?_⟩
  simp [SymbolTable.capture, freeSymbol]

end SymbolTable

/-! ## Chains of tables

The tables of the functions around the code at hand form a chain that ends with the table of the main program.
Looking a name up walks outwards until it finds the name and captures it in every table on the way back,
unless it belongs to the main program. `SoundFrom` therefore ties each table to the next one: what a function
captured, the function around it binds. -/

namespace Symbols

open SymbolTable

/-- A table is sound and so are the tables around it. Each table holds what the table inside it
captured. -/
def SoundFrom : SymbolTable → List SymbolTable → Prop
  | t, [] => t.Sound false ∧ t.captures = []
  | t, o :: rest => t.Sound true ∧ (∀ symbol ∈ t.captures, o.Lends symbol) ∧ SoundFrom o rest

/-- All tables are sound. -/
def Sound (symbols : Symbols) : Prop := SoundFrom symbols.inner symbols.outer

/-- Whether the innermost table belongs to a function. -/
def nested (symbols : Symbols) : Bool := !symbols.outer.isEmpty

/-- The table of the main program. -/
def main (symbols : Symbols) : SymbolTable := symbols.outer.getLastD symbols.inner

/-- The table of the main program is the last one of the chain. -/
theorem main_cons (t o : SymbolTable) (rest : List SymbolTable) :
    main ⟨t, o :: rest⟩ = main ⟨o, rest⟩ := List.getLastD_cons

/-- Outside of all functions, the innermost table is the one of the main program. -/
theorem main_of_nested {s : Symbols} (h : s.nested = false) : s.main = s.inner := by
  have hnil : s.outer = [] := by simpa [nested] using h
  rw [main, hnil]
  rfl

/-- Leaving a function leads back to the main program as it was inside it. -/
theorem main_leave {s : Symbols} (h : s.nested = true) : s.leave.main = s.main := by
  obtain ⟨t, ts⟩ := s
  cases ts with
  | nil => cases h
  | cons o rest => exact (main_cons t o rest).symm

/-- The innermost table has more slots than before; the others have captured symbols. -/
structure Grows (s s' : Symbols) : Prop where
  inner : s.inner.Grows s'.inner
  outer : List.Forall₂ Extends s.outer s'.outer

theorem Grows.refl (s : Symbols) : s.Grows s :=
  ⟨.refl _, List.forall₂_same.mpr fun t _ => .refl t⟩

/-- Captures after captures, in each table of a chain. -/
theorem forall₂_extends_trans {ts₁ ts₂ ts₃ : List SymbolTable} (h₁ : List.Forall₂ Extends ts₁ ts₂)
    (h₂ : List.Forall₂ Extends ts₂ ts₃) : List.Forall₂ Extends ts₁ ts₃ := by
  induction h₁ generalizing ts₃ with
  | nil => exact h₂
  | cons hab _ ih =>
      cases h₂ with
      | cons hbc h₂ => exact .cons (hab.trans hbc) (ih h₂)

theorem Grows.trans {s₁ s₂ s₃ : Symbols} (h₁ : s₁.Grows s₂) (h₂ : s₂.Grows s₃) : s₁.Grows s₃ :=
  ⟨h₁.inner.trans h₂.inner, forall₂_extends_trans h₁.outer h₂.outer⟩

/-- Code of a function stays code of a function. -/
theorem Grows.nested_eq {s s' : Symbols} (h : s.Grows s') : s'.nested = s.nested := by
  have hlen := h.outer.length_eq
  rw [nested, nested]
  cases hs : s.outer <;> cases hs' : s'.outer <;> simp_all

/-- The innermost table by itself. -/
theorem SoundFrom.inner {t : SymbolTable} {ts : List SymbolTable} (h : SoundFrom t ts) :
    t.Sound (!ts.isEmpty) := by
  cases ts with
  | nil => exact h.1
  | cons o rest => exact h.1

/-- A looked up symbol can be loaded: it is bound in the innermost table, or else it belongs to the main
program. -/
def Found (name : String) (t : SymbolTable) (ts : List SymbolTable) (symbol : Symbol) : Prop :=
  t.bindings.get? name = some symbol ∨
    (t.bindings.get? name = none ∧ (symbol.place = .global ∨ symbol.place = .builtin) ∧
      (main ⟨t, ts⟩).bindings.get? name = some symbol)

/-- The table of the main program by itself. -/
theorem SoundFrom.main {t : SymbolTable} {ts : List SymbolTable} (h : SoundFrom t ts) :
    (main ⟨t, ts⟩).Sound false := by
  induction ts generalizing t with
  | nil => exact h.1
  | cons o rest ih =>
      rw [main_cons]
      exact ih h.2.2

/-- What the rules of looking a name up keep. -/
theorem Resolves.spec {name : String} {s s' : Symbols} {symbol : Symbol} (h : Resolves name s symbol s')
    (hs : s.Sound) : s'.Sound ∧ s.inner.Extends s'.inner ∧ List.Forall₂ Extends s.outer s'.outer ∧
      Found name s'.inner s'.outer symbol := by
  induction h with
  | stored hget => exact ⟨hs, .refl _, List.forall₂_same.mpr fun t _ => .refl t, .inl hget⟩
  | @main t o o' rest rest' symbol hget _ hmain ih =>
      obtain ⟨hs', hnext, hrest, hfound⟩ := ih hs.2.2
      have hlends : ∀ captured ∈ t.captures, o'.Lends captured := fun captured hc =>
        (hs.2.1 captured hc).mono hnext
      refine ⟨⟨hs.1, hlends, hs'⟩, .refl _, .cons hnext hrest, .inr ⟨hget, hmain, ?_⟩⟩
      rw [main_cons]
      rcases hfound with hbound | ⟨-, -, hbound⟩
      · -- it is bound in a table that is sound, which must be the one of the main program
        have hvalid := (hs'.inner _ _ hbound).2
        have hnil : rest' = [] := by
          rw [Symbol.Valid] at hvalid
          rcases hmain with hplace | hplace <;> simp only [hplace] at hvalid <;> simpa using hvalid.1
        subst hnil
        exact hbound
      · exact hbound
  | @captured t o o' rest rest' symbol hget _ hglobal hbuiltin ih =>
      obtain ⟨hs', hnext, hrest, hfound⟩ := ih hs.2.2
      have hbound : o'.bindings.get? name = some symbol :=
        hfound.resolve_right fun hmain => hmain.2.1.elim hglobal hbuiltin
      obtain rfl : symbol.name = name := (hs'.inner _ _ hbound).1
      refine ⟨⟨hs.1.capture, fun captured hc => ?_, hs'⟩, extends_capture hget, .cons hnext hrest,
        .inl (Bindings.get?_insert_self _ _ _)⟩
      rcases List.mem_append.mp hc with hold | hnew
      · exact (hs.2.1 captured hold).mono hnext
      · rw [List.mem_singleton.mp hnew]
        exact ⟨hbound, hglobal, hbuiltin⟩

/-- **Looking a name up** keeps the tables sound and changes them by captures alone. -/
theorem resolve?_spec {s s' : Symbols} {name : String} {symbol : Symbol}
    (h : s.resolve? name = some (symbol, s')) (hs : s.Sound) :
    s'.Sound ∧ s.inner.Extends s'.inner ∧ s.Grows s' ∧ Found name s'.inner s'.outer symbol := by
  obtain ⟨hs', hinner, houter, hfound⟩ := (resolve?_eq_some.mp h).spec hs
  exact ⟨hs', hinner, ⟨hinner.grows, houter⟩, hfound⟩

/-! ## Definitions and functions

The other operations of a compilation each change one table: definitions bind a name in the innermost one, a
function puts a new table in front, and leaving it takes that table away. -/

/-- Where the innermost table keeps what is defined in it. -/
theorem definitionPlace_eq (s : Symbols) :
    s.definitionPlace = if s.nested then .local else .global := by
  rw [definitionPlace, nested]
  cases s.outer <;> rfl

theorem grows_define (s : Symbols) (name : String) : s.Grows (s.define name) :=
  ⟨⟨Nat.le_succ _, List.prefix_refl _⟩, List.forall₂_same.mpr fun t _ => .refl t⟩

/-- The slot of a definition is the one that it adds. -/
theorem definedSymbol_valid (s : Symbols) (name : String) :
    (s.definedSymbol name).Valid s.nested (s.define name).inner := by
  rw [Symbol.Valid, definedSymbol, definitionPlace_eq]
  cases s.nested
  · exact ⟨rfl, Nat.lt_succ_self _⟩
  · exact ⟨rfl, Nat.lt_succ_self _⟩

/-- Changing the bindings and slots of the innermost table. -/
theorem SoundFrom.update {t t' : SymbolTable} {ts : List SymbolTable} (h : SoundFrom t ts)
    (hs : t'.Sound (!ts.isEmpty)) (hcaptures : t'.captures = t.captures) : SoundFrom t' ts := by
  cases ts with
  | nil => exact ⟨hs, hcaptures.trans h.2⟩
  | cons o rest => exact ⟨hs, hcaptures ▸ h.2.1, h.2.2⟩

theorem Sound.define {s : Symbols} (h : s.Sound) (name : String) : (s.define name).Sound :=
  SoundFrom.update h
    (SymbolTable.Sound.bind (s.definedSymbol name) h.inner rfl (grows_define s name).inner
      (definedSymbol_valid s name)) rfl

theorem Sound.defineFunctionName {s : Symbols} (h : s.Sound) (hn : s.nested = true)
    (name : String) : (s.defineFunctionName name).Sound :=
  SoundFrom.update h
    (SymbolTable.Sound.bind ⟨name, .function, 0⟩ h.inner rfl (.of_eq rfl rfl) hn) rfl

theorem Sound.defineBuiltin {s : Symbols} (h : s.Sound) (hn : s.nested = false)
    (b : Builtin) : (s.defineBuiltin b.index b.name).Sound := by
  refine SoundFrom.update h
    (SymbolTable.Sound.bind ⟨b.name, .builtin, b.index⟩ h.inner rfl (.of_eq rfl rfl) ?_) rfl
  refine ⟨hn, ?_⟩
  cases b <;> rfl

theorem Sound.enter {s : Symbols} (h : s.Sound) : s.enter.Sound :=
  ⟨.empty _, List.forall_mem_nil _, h⟩

section foldl

variable {s : Symbols}

/-- Several definitions in a row, such as the parameters of a function. -/
theorem Sound.foldl_define (names : List String) (h : s.Sound) : (names.foldl Symbols.define s).Sound := by
  induction names generalizing s with
  | nil => exact h
  | cons name names ih => exact ih (h.define name)

theorem foldl_define_outer (names : List String) : (names.foldl Symbols.define s).outer = s.outer := by
  induction names generalizing s with
  | nil => rfl
  | cons name names ih => exact ih

/-- Definitions capture nothing. -/
theorem foldl_define_captures (names : List String) :
    (names.foldl Symbols.define s).inner.captures = s.inner.captures := by
  induction names generalizing s with
  | nil => rfl
  | cons name names ih => exact ih

/-- Each definition takes a slot, also if its name was there before. -/
theorem foldl_define_numDefinitions (names : List String) :
    (names.foldl Symbols.define s).inner.numDefinitions = s.inner.numDefinitions + names.length := by
  induction names generalizing s with
  | nil => rfl
  | cons name names ih =>
      refine ih.trans ?_
      show s.inner.numDefinitions + 1 + names.length = _
      rw [List.length_cons]
      omega

end foldl

/-- The tables of a function before its parameters are defined. -/
def enterNamed (s : Symbols) (name : Option String) : Symbols :=
  match name with
  | some name => s.enter.defineFunctionName name
  | none => s.enter

/-- The parameters of a function are defined behind its own name. -/
theorem openFunction_eq (s : Symbols) (name : Option String) (parameters : List String) :
    s.openFunction name parameters = parameters.foldl Symbols.define (s.enterNamed name) := by
  cases name <;> rfl

/-- The table of a function, with its name if it has one, before its parameters. -/
theorem Sound.enterNamed {s : Symbols} (h : s.Sound) (name : Option String) :
    (s.enterNamed name).Sound := by
  cases name with
  | none => exact h.enter
  | some name => exact h.enter.defineFunctionName rfl name

/-- **Opening a function** keeps the tables sound. -/
theorem Sound.openFunction {s : Symbols} (h : s.Sound) (name : Option String)
    (parameters : List String) : (s.openFunction name parameters).Sound := by
  rw [openFunction_eq]
  exact (h.enterNamed name).foldl_define parameters

@[simp] theorem openFunction_outer (s : Symbols) (name : Option String) (parameters : List String) :
    (s.openFunction name parameters).outer = s.inner :: s.outer := by
  rw [openFunction_eq, foldl_define_outer]
  cases name <;> rfl

@[simp] theorem openFunction_nested (s : Symbols) (name : Option String) (parameters : List String) :
    (s.openFunction name parameters).nested = true := by
  rw [nested, openFunction_outer]
  rfl

@[simp] theorem openFunction_captures (s : Symbols) (name : Option String)
    (parameters : List String) : (s.openFunction name parameters).inner.captures = [] := by
  rw [openFunction_eq, foldl_define_captures]
  cases name <;> rfl

/-- The parameters have the first slots of the call; the name of the function takes none. -/
@[simp] theorem openFunction_numDefinitions (s : Symbols) (name : Option String)
    (parameters : List String) :
    (s.openFunction name parameters).inner.numDefinitions = parameters.length := by
  rw [openFunction_eq, foldl_define_numDefinitions]
  cases name <;> exact Nat.zero_add _

/-- **Leaving a function.** Its table lends nothing any more, and the table around it holds what was
captured. -/
theorem Sound.leave {s s' : Symbols} {name : Option String} {parameters : List String}
    (hs : s'.Sound) (hgrows : (s.openFunction name parameters).Grows s') :
    s'.leave.Sound ∧ s.inner.Extends s'.leave.inner ∧ s.Grows s'.leave ∧
      ∀ symbol ∈ s'.inner.captures, s'.leave.inner.Lends symbol := by
  obtain ⟨t', ts'⟩ := s'
  have houter := hgrows.outer
  rw [openFunction_outer] at houter
  cases houter with
  | cons hnext hrest => exact ⟨hs.2.2, hnext, ⟨hnext.grows, hrest⟩, hs.2.1⟩

end Symbols

/-! ## The first tables

A compiler starts with one table, which binds the built-in functions. -/

/-- Any number of built-in functions may be defined in the main program. -/
theorem Builtin.foldl_define_sound : ∀ (bs : List Builtin) {s : Symbols}, s.Sound → s.nested = false →
    (bs.foldl (fun s b => s.defineBuiltin b.index b.name) s).Sound
  | [], _, h, _ => h
  | b :: bs, _, h, hn => foldl_define_sound bs (h.defineBuiltin hn b) hn

theorem Builtin.foldl_define_nested : ∀ (bs : List Builtin) (s : Symbols),
    (bs.foldl (fun s b => s.defineBuiltin b.index b.name) s).outer = s.outer
  | [], _ => rfl
  | _ :: bs, _ => foldl_define_nested bs _

/-- **The first tables** know the built-in functions, and they are sound. -/
theorem Compiler.initial_sound : Compiler.initial.symbols.Sound :=
  Builtin.foldl_define_sound _ ⟨.empty _, rfl⟩ rfl

theorem Compiler.initial_nested : Compiler.initial.symbols.nested = false := by
  rw [Symbols.nested, Compiler.initial, Builtin.foldl_define_nested]
  rfl

end ScriptLang
