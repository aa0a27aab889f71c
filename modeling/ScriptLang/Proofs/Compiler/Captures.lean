import ScriptLang.Proofs.Compiler.Uses
import ScriptLang.Proofs.Compiler.WellFormed

/-!
# What a function captures

A closure takes along the values of the names that its function looks up and does not bind, as far as they
belong to a function around it. `Assembly.Visited` are the states in which a compilation can be when it comes
to a function literal. Main statement: `Assembly.Visited.function_captures` — the names that the function
captures follow from its text and from the names that are bound around it, and the values that go into the
closure are loaded as the identifiers would be.
-/

namespace ScriptLang

/-! ## The states of a compilation -/

namespace Assembly

/-- The states that a compilation gets to, with the names that are bound so far in the functions that are
open, innermost first. -/
inductive Visited : Assembly → List (List String) → Prop where
  /-- A program is about to be compiled. -/
  | start {c : Compiler} : c.Reachable → Visited (resume c) []
  | expr {a a' : Assembly} {scopes : List (List String)} {e : Expr} :
      Visited a scopes → e.compile a = .ok () a' → Visited a' (scopes.modifyHead (Use.bound · e.uses))
  | stmt {a a' : Assembly} {scopes : List (List String)} {s : Stmt} :
      Visited a scopes → s.compile a = .ok () a' → Visited a' (scopes.modifyHead (Use.bound · s.uses))
  /-- Something is written, overwritten or taken back in the code of the function at hand. -/
  | code {a : Assembly} {scopes : List (List String)} (emitter : Emitter) :
      Visited a scopes → Visited { a with emitter } scopes
  /-- The body of a function is about to be compiled. -/
  | function {a a' : Assembly} {scopes : List (List String)} {name : Option String}
      {parameters : List String} : Visited a scopes →
      CompileM.beginFunction name parameters a = .ok () a' →
      Visited a' ((name.toList ++ parameters) :: scopes)

variable {a a' a₁ : Assembly} {scopes : List (List String)} {name : Option String}
  {parameters : List String} {body : List Stmt}

theorem Visited.scoped (h : a.Visited scopes) : a.symbols.Sound ∧ a.symbols.Scoped scopes := by
  induction h with
  | @start c hc =>
      refine ⟨hc.sound.symbols, ?_⟩
      have hmain : c.symbols.outer = [] := by simpa [Symbols.nested] using hc.nested_eq
      show Symbols.ScopedFrom c.symbols.inner c.symbols.outer []
      rw [hmain]
      exact .main _
  | expr _ hcompile ih =>
      obtain ⟨is, hemits, -⟩ := Expr.compile_writes _ hcompile
      exact ⟨(hemits.grows ih.1).1, hemits.scoped ih.1 ih.2⟩
  | stmt _ hcompile ih =>
      obtain ⟨is, hemits, -⟩ := (Stmt.compile_writes _ hcompile).writes
      exact ⟨(hemits.grows ih.1).1, hemits.scoped ih.1 ih.2⟩
  | code emitter _ ih => exact ih
  | @function a a' scopes name parameters _ hbegin ih =>
      cases CompileM.modify_eq_ok.mp hbegin
      exact ⟨ih.1.openFunction name parameters, ih.2.openFunction name parameters⟩

end Assembly

/-! ## Function literals -/

namespace CompileM

variable {a a' a₁ : Assembly} {name : Option String} {parameters : List String} {body : List Stmt}

/-- Compiles the body of a function, and goes on in the code around it. Gives the code of the function and its
symbols. -/
def functionBody (name : Option String) (parameters : List String) (body : List Stmt) :
    CompileM (Code × SymbolTable) := do
  beginFunction name parameters
  Stmt.compileAll body
  endBody
  endFunction

/-- A compilation that has a result is successful. -/
theorem exists_of_run' {α : Type} {x : CompileM α} {v : α} (h : x.run' a = some v) :
    ∃ a', x a = .ok v a' := by
  delta EStateM.run' at h
  cases hx : x.run a with
  | ok w a' =>
      rw [hx] at h
      cases h
      exact ⟨a', hx⟩
  | error e a' =>
      rw [hx] at h
      cases h

theorem compile_function_eq_ok :
    (Expr.function name parameters body).compile a = .ok () a' ↔ ∃ code table a₁,
      functionBody name parameters body a = .ok (code, table) a₁ ∧
        loadFunction code table parameters.length a₁ = .ok () a' := by
  simp only [Expr.compile, functionBody, bind_eq_ok]
  constructor
  · rintro ⟨_, a₁, h₁, _, a₂, h₂, _, a₃, h₃, ⟨code, table⟩, a₄, h₄, h⟩
    exact ⟨code, table, a₄, ⟨(), a₁, h₁, (), a₂, h₂, (), a₃, h₃, h₄⟩, h⟩
  · rintro ⟨code, table, a₄, ⟨_, a₁, h₁, _, a₂, h₂, _, a₃, h₃, h₄⟩, h⟩
    exact ⟨(), a₁, h₁, (), a₂, h₂, (), a₃, h₃, (code, table), a₄, h₄, h⟩

/-- The table of a function is what its body makes of the one that is opened for it. -/
theorem functionBody_emits {code : Code} {table : SymbolTable}
    (h : functionBody name parameters body a = .ok (code, table) a₁) :
    ∃ c' is, Emits (.body body)
        { a.compiler with symbols := a.symbols.openFunction name parameters } 0 is c' ∧
      table = c'.symbols.inner ∧ a₁.symbols = c'.symbols.leave ∧ a₁.emitter = a.emitter := by
  simp only [functionBody, bind_eq_ok, beginFunction, modify_eq_ok] at h
  obtain ⟨_, _, h₁, _, a₂, h₂, _, a₃, h₃, h⟩ := h
  cases h₁
  obtain ⟨is, hemits, hw⟩ := Stmt.body_writes body (.inl ⟨rfl, rfl⟩) h₂ h₃
  obtain ⟨-, rfl, rfl⟩ := endFunction_eq_ok hw.around h
  exact ⟨a₃.compiler, is, hemits, rfl, rfl, rfl⟩

/-- A name that the table at hand stores is compiled to the instruction that loads its symbol. -/
theorem compile_identifier {symbol : Symbol} (hget : a.symbols.inner.bindings.get? symbol.name = some symbol)
    (hfits : symbol.loadInstruction.Fits) :
    (Expr.identifier symbol.name).compile a =
      .ok () { a with emitter := a.emitter.append symbol.loadInstruction } := by
  have hresolve : a.symbols.resolve? symbol.name = some (symbol, a.symbols) :=
    Symbols.resolve?_eq_some.mpr (.stored hget)
  rw [Expr.compile, loadName_of_some hresolve, load_eq_emit]
  exact emit_eq_ok.mpr ⟨hfits, rfl⟩

end CompileM

namespace Assembly

open CompileM

variable {a a' : Assembly} {scopes : List (List String)} {name : Option String}
  {parameters : List String} {body : List Stmt}

/-- **Captures**: a function literal that is compiled captures the names that are looked up in its body, or in a
function literal there, where neither it nor a function in between binds them, and that a function around it
binds; each of them once, in the order in which they are looked up first. Between the end of its body and the
instruction that makes the closure stands the code that these names would be compiled to at that point. -/
theorem Visited.function_captures (ha : a.Visited scopes)
    (h : (Expr.function name parameters body).compile a = .ok () a') :
    ∃ code table a₁ parts, functionBody name parameters body a = .ok (code, table) a₁ ∧
      a₁.emitter = a.emitter ∧
      table.captures.map Symbol.name = ((Use.unbound (name.toList ++ parameters)
        (Stmt.usesAll body)).filter (Symbols.Around scopes)).eraseDups ∧
      List.Forall₂ (fun captured bytes => ∃ a₂, (Expr.identifier captured).compile a₁ = .ok () a₂ ∧
          a₂.emitter.code.toList = a₁.emitter.code.toList ++ bytes)
        (table.captures.map Symbol.name) parts ∧
      a'.emitter.code.toList = a₁.emitter.code.toList ++ parts.flatten ++
        (Instruction.closure a₁.constants.size table.captures.length).encode := by
  obtain ⟨code, table, a₁, hbody, hload⟩ := compile_function_eq_ok.mp h
  obtain ⟨hs, hscoped⟩ := ha.scoped
  obtain ⟨c', is, hemits, rfl, hsymbols, hemitter⟩ := functionBody_emits hbody
  have hopen := hs.openFunction name parameters
  have huses := hemits.uses hopen (hscoped.openFunction name parameters)
  obtain ⟨hs', hgrows⟩ := hemits.grows hopen
  obtain ⟨-, -, -, hlends⟩ := hs'.leave hgrows.symbols
  obtain ⟨hw, -⟩ := loadFunction_wrote hload
  refine ⟨code, c'.symbols.inner, a₁, c'.symbols.inner.captures.map (·.loadInstruction.encode), hbody,
    hemitter, ?_, ?_, ?_⟩
  · rw [huses]
    exact (Symbols.usesIn_openFunction hs hscoped name parameters _).2
  · rw [List.forall₂_map_left_iff, List.forall₂_map_right_iff, List.forall₂_same]
    intro symbol hmem
    have hget : a₁.symbols.inner.bindings.get? symbol.name = some symbol := by
      rw [hsymbols]
      exact (hlends symbol hmem).1
    have hfits := hw.fits _ (List.mem_append_left _ (List.mem_map_of_mem hmem))
    exact ⟨_, compile_identifier hget hfits, Emitter.toList_append _ _⟩
  · rw [hw.code]
    simp [Instructions.encode, List.flatMap_def, Function.comp_def]

/-- The body of a function that binds `c` and has a function inside it, which looks up this name, one of a
function further out, and a built-in function. -/
def capturingBody : List Stmt :=
  [.let "c" (.identifier "b"), .expr (.function none []
    [.expr (.array [.identifier "c", .identifier "a", .identifier "len", .identifier "a"])])]

theorem capturingBody_captures : ∃ a a' code table a₁ parts,
    beginFunction (some "f") ["a"] (resume .initial) = .ok () a ∧
      (Expr.function none ["b"] capturingBody).compile a = .ok () a' ∧
      functionBody none ["b"] capturingBody a = .ok (code, table) a₁ ∧ a₁.emitter = a.emitter ∧
      table.captures.map Symbol.name = ["a"] ∧
      List.Forall₂ (fun captured bytes => ∃ a₂, (Expr.identifier captured).compile a₁ = .ok () a₂ ∧
          a₂.emitter.code.toList = a₁.emitter.code.toList ++ bytes)
        (table.captures.map Symbol.name) parts ∧
      a'.emitter.code.toList = a₁.emitter.code.toList ++ parts.flatten ++
        (Instruction.closure a₁.constants.size table.captures.length).encode := by
  have hok : (EStateM.run' (do beginFunction (some "f") ["a"]; (Expr.function none ["b"] capturingBody).compile)
      (resume .initial)).isSome = true := by decide +kernel
  obtain ⟨v, hsome⟩ := Option.isSome_iff_exists.mp hok
  obtain ⟨a', hrun⟩ := exists_of_run' hsome
  obtain ⟨_, a, hbegin, h⟩ := bind_eq_ok.mp hrun
  obtain ⟨code, table, a₁, parts, hbody, hemitter, hnames, hparts, hcode⟩ :=
    (Visited.start .initial).function hbegin |>.function_captures h
  refine ⟨a, a', code, table, a₁, parts, hbegin, h, hbody, hemitter, ?_, hparts, hcode⟩
  rw [hnames]
  decide +kernel

end Assembly

end ScriptLang
