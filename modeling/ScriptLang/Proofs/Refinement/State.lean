import ScriptLang.Proofs.Evaluator.Scopes
import ScriptLang.Proofs.Machine.Moves
import ScriptLang.Proofs.Refinement.Correspondence
import ScriptLang.Proofs.Refinement.Tame

/-!
# States that agree

How a state of the evaluator and a state of the machine are related while both are at the same place of a
program.

* `Births`: every function that has been made, with what its closure captured. A captured name that is
  bound around the function stands for the captured value, and nothing that is still to be bound can change
  that.
* `Values`: globals and output.
* `Active`: the running call, whose scope has its names in the slots that the tables say.

The output is compared only if the engines do everything in the same order (`Plan.ordered`). If they do not,
the program is tame, and every name that the compiler knows stands for something.

Main statement: `Active.load` — an instruction that loads a symbol pushes what its name stands for.
-/

namespace ScriptLang

open Symbols (Knows Adds Found Clean)

/-! ## Programs -/

/-- What is known of a compiled program as a whole. -/
structure Plan where
  /-- The names that the main program binds. -/
  globals : List String
  /-- The table of the main program at its end. -/
  table : SymbolTable
  constants : Array Value
  /-- Whether the operands of every `<` are plain, so that both engines do everything in the same order. If
  not, the program is tame. -/
  ordered : Bool

namespace Plan

/-- A state of the compiler is on the way to the end of the program. -/
structure Covers (p : Plan) (c : Compiler) : Prop where
  table : ∀ x symbol, c.symbols.main.bindings.get? x = some symbol →
    p.table.bindings.get? x = some symbol
  constants : c.constants.toList <+: p.constants.toList

/-- The globals are what the main program binds, and none has the name of a built-in function. -/
structure Valid (p : Plan) : Prop where
  globals : ∀ x symbol, p.table.bindings.get? x = some symbol → symbol.place = .global →
    x ∈ p.globals
  builtins : ∀ x ∈ p.globals, Builtin.ofName? x = none

/-- What covers a state covers the ones before it. -/
theorem Covers.anti {p : Plan} {c c' : Compiler} {own : List String} (h : p.Covers c')
    (hadds : Adds c.symbols own c'.symbols) (hgrows : c.Grows c') : p.Covers c :=
  ⟨fun x symbol hget => h.table x symbol (hadds.main x symbol hget),
    hgrows.constants.trans h.constants⟩

end Plan

/-! ## Names

The evaluator finds a name through a chain of scopes, and a built-in function only if there is no such name.
What follows keeps the two apart, so that the compiler and the evaluator mean the same by a name. -/

/-- The names that a scope binds are not those of built-in functions, and the globals are bound by the main
program only. -/
def Plan.Tidy (p : Plan) (scopes : Array Scope) (l : Nat) : Prop :=
  ∀ x v, bound? scopes l x = some v → Builtin.ofName? x = none ∧ (l ≠ 0 → x ∉ p.globals)

/-- A name stands for something in some scopes, if only for a built-in function. -/
def Known (scopes : Array Scope) (levels : List Nat) (x : String) : Prop :=
  valueAt scopes levels x ≠ none ∨ Builtin.ofName? x ≠ none

section

variable {p : Plan} {scopes scopes' : Array Scope} {levels : List Nat} {l : Nat} {x : String}

theorem Plan.Tidy.congr (h : p.Tidy scopes l) (hbound : ∀ x, bound? scopes' l x = bound? scopes l x) :
    p.Tidy scopes' l := fun x v hx => h x v ((hbound x).symm.trans hx)

theorem Known.congr (h : Known scopes levels x) (hvalue : valueAt scopes' levels x = valueAt scopes levels x) :
    Known scopes' levels x := h.imp_left fun hx => hvalue ▸ hx

theorem Known.cons (h : Known scopes levels x) : Known scopes (l :: levels) x := by
  refine h.imp_left fun hx => ?_
  cases hbound : bound? scopes l x with
  | some v =>
      rw [valueAt_cons_of_some hbound]
      exact Option.some_ne_none v
  | none =>
      rw [valueAt_cons_of_none hbound]
      exact hx

theorem Known.of_bound {v : Value} (h : bound? scopes l x = some v) : Known scopes (l :: levels) x := by
  left
  rw [valueAt_cons_of_some h]
  exact Option.some_ne_none v

end

/-! ## Functions that have been made

A closure of the machine and a function of the evaluator are made at the same place of a program. `Birth`
records that place, with the tables there and the values that were captured. What is known of it
(`Birth.Alive`) must last as long as the function can be called, that is, to the end of the program. -/

namespace Birth

/-- The names that a function literal binds. -/
def names (b : Birth) : List String := b.parameters ++ Stmt.bindersAll true b.body

/-- The code of a closure is that of the body of its literal. -/
structure Compiled (p : Plan) (b : Birth) : Prop where
  emits : Emits (.body b.body) b.opened 0 b.code b.closed
  fits : ∀ i ∈ b.code, i.Fits
  sound : b.opened.symbols.Sound
  opened : ∃ around : Symbols, b.opened.symbols = around.openFunction b.name b.parameters
  parameters : b.parameters.Nodup
  unknown : Unknown (Stmt.bindersAll true b.body) b.opened.symbols
  tabled : Clean b.opened.symbols.tables
  clean : ∀ x ∈ b.names, Builtin.ofName? x = none ∧ x ∉ p.globals
  allowed : (Part.body b.body).isAllowed p.ordered = true
  named : Stmt.areNamed b.body = true
  covers : p.Covers b.closed

/-- What holds of a function as long as it can be called. What its closure captured is what the names
stand for, if they stand for anything, and the names are not bound any more. -/
structure Alive (p : Plan) (W : World) (agenda : Agenda) (scopes : Array Scope) (b : Birth) : Prop where
  chained : Chained scopes b.scope b.outer
  settled : Settled b.levels agenda b.opened.symbols b.body
  apart : Untouched scopes b.levels b.names
  captured : ∀ (k : Nat) (symbol : Symbol), b.closed.symbols.inner.captures[k]? = some symbol →
    ∃ w, b.free[k]? = some w ∧
      ∀ v, valueAt scopes b.levels symbol.name = some v → Value.Matches W v w
  self : ∀ x, b.name = some x → ∀ v, valueAt scopes b.levels x = some v → v = b.function
  tidy : ∀ l ∈ b.levels, p.Tidy scopes l
  known : p.ordered = false → ∀ x, Knows b.opened.symbols.tables x →
    x ∈ b.parameters ∨ Known scopes b.levels x

namespace Compiled

variable {p : Plan} {b : Birth}

theorem grows (h : b.Compiled p) : b.closed.symbols.Sound ∧ b.opened.Grows b.closed :=
  h.emits.grows h.sound

theorem adds (h : b.Compiled p) :
    Adds b.opened.symbols (Stmt.bindersAll false b.body) b.closed.symbols :=
  h.emits.adds_unnamed h.sound h.unknown h.named

theorem nested (h : b.Compiled p) : b.opened.symbols.nested = true := by
  obtain ⟨around, hopened⟩ := h.opened
  rw [hopened]
  exact Symbols.openFunction_nested _ _ _

/-- The tables inside a function know what it captures. -/
theorem knows_captured (h : b.Compiled p) {k : Nat} {symbol : Symbol}
    (hk : b.closed.symbols.inner.captures[k]? = some symbol) :
    Knows b.opened.symbols.tables symbol.name :=
  (h.grows.1.knows_of_captures h.adds.outer (List.mem_of_getElem? hk)).tail

theorem knows_name (h : b.Compiled p) {x : String} (hx : b.name = some x) :
    Knows b.opened.symbols.tables x := by
  obtain ⟨around, hopened⟩ := h.opened
  rw [hopened, hx]
  exact Symbols.openFunction_knows_name h.parameters x

theorem knows_parameter (h : b.Compiled p) {x : String} (hx : x ∈ b.parameters) :
    Knows b.opened.symbols.tables x := by
  obtain ⟨around, hopened⟩ := h.opened
  rw [hopened]
  exact Symbols.openFunction_knows_parameter h.parameters hx

/-- The machine has room for the arguments of a call. -/
theorem routine (h : b.Compiled p) : b.parameters.length ≤ b.compiled.numLocals ∧
    b.compiled.numLocals ≤ max b.parameters.length 256 := by
  obtain ⟨around, hopened⟩ := h.opened
  have hparameters : b.opened.symbols.inner.numDefinitions = b.parameters.length := by
    rw [hopened]
    exact Symbols.openFunction_numDefinitions _ _ _
  rw [← hparameters]
  exact ⟨h.grows.2.symbols.inner.numDefinitions, h.emits.byteSlots h.sound h.fits h.nested⟩

end Compiled

namespace Alive

variable {p : Plan} {W W' : World} {agenda agenda' : Agenda} {scopes scopes' : Array Scope} {b : Birth}

theorem mono (h : b.Alive p W agenda scopes) (hW : W ⊆ W') : b.Alive p W' agenda scopes where
  chained := h.chained
  settled := h.settled
  apart := h.apart
  captured := by
    intro k symbol hk
    obtain ⟨w, hw, hmatch⟩ := h.captured k symbol hk
    exact ⟨w, hw, fun v hv => (hmatch v hv).mono hW⟩
  self := h.self
  tidy := h.tidy
  known := h.known

theorem anti (h : b.Alive p W agenda scopes) (hle : ∀ l x, agenda' l x → agenda l x) :
    b.Alive p W agenda' scopes :=
  ⟨h.chained, h.settled.anti hle, h.apart, h.captured, h.self, h.tidy, h.known⟩

theorem lt_size (h : b.Alive p W agenda scopes) {l : Nat} (hl : l ∈ b.levels) : l < scopes.size :=
  h.chained.mem_lt_size hl

/-- The scopes around a function have stayed as they were. -/
theorem transfer (h : b.Alive p W agenda scopes) (hscopes : ∀ l ∈ b.levels, scopes'[l]? = scopes[l]?)
    (hagenda : ∀ l ∈ b.levels, ∀ x, agenda' l x → agenda l x) : b.Alive p W agenda' scopes' := by
  have hbound : ∀ l ∈ b.levels, ∀ x, bound? scopes' l x = bound? scopes l x := by
    intro l hl x
    rw [bound?, bound?, hscopes l hl]
  have hvalue : ∀ x, valueAt scopes' b.levels x = valueAt scopes b.levels x := fun x =>
    valueAt_congr fun l hl => hbound l hl x
  refine ⟨?_, ?_, ?_, ?_, ?_, ?_, ?_⟩
  · exact h.chained.congr fun l hl => by rw [hscopes l hl]
  · exact fun l hl x hx => h.settled l hl x (hagenda l hl x hx)
  · exact fun l hl x hx => (hbound l hl x).trans (h.apart l hl x hx)
  · intro k symbol hk
    obtain ⟨w, hw, hmatch⟩ := h.captured k symbol hk
    exact ⟨w, hw, fun v hv => hmatch v ((hvalue symbol.name).symm.trans hv)⟩
  · exact fun x hx v hv => h.self x hx v ((hvalue x).symm.trans hv)
  · exact fun l hl => (h.tidy l hl).congr (hbound l hl)
  · exact fun hordered x hx => (h.known hordered x hx).imp_right fun hknown => hknown.congr (hvalue x)

/-- Binding a name that was still to be bound changes nothing for a function that has been made. -/
theorem bind {st : Evaluator} {scope : Nat} {y : String} {v : Value} (hb : b.Compiled p)
    (h : b.Alive p W agenda st.scopes) (hy : agenda scope y)
    (htidy : Builtin.ofName? y = none ∧ (scope ≠ 0 → y ∉ p.globals)) :
    b.Alive p W agenda (st.bind y v scope).scopes := by
  have hbound : ∀ x, Knows b.opened.symbols.tables x ∨ x ∈ Stmt.bindersAll true b.body →
      ∀ l ∈ b.levels, bound? (st.bind y v scope).scopes l x = bound? st.scopes l x := by
    intro x hx l hl
    apply bound?_bind_of_ne
    rintro rfl rfl
    obtain ⟨hknows, hbinders⟩ := h.settled l hl x hy
    exact hx.elim hknows hbinders
  have hvalue : ∀ x, Knows b.opened.symbols.tables x →
      valueAt (st.bind y v scope).scopes b.levels x = valueAt st.scopes b.levels x := fun x hx =>
    valueAt_congr fun l hl => hbound x (.inl hx) l hl
  refine ⟨(Evaluator.Frame.bind y v).chained h.chained, h.settled, ?_, ?_, ?_, ?_, ?_⟩
  · intro l hl x hx
    refine (hbound x ?_ l hl).trans (h.apart l hl x hx)
    exact (List.mem_append.mp hx).imp hb.knows_parameter id
  · intro k symbol hk
    obtain ⟨w, hw, hmatch⟩ := h.captured k symbol hk
    exact ⟨w, hw, fun u hu => hmatch u ((hvalue _ (hb.knows_captured hk)).symm.trans hu)⟩
  · exact fun x hx u hu => h.self x hx u ((hvalue x (hb.knows_name hx)).symm.trans hu)
  · intro l hl x u hx
    by_cases hnew : l = scope ∧ x = y
    · obtain ⟨rfl, rfl⟩ := hnew
      exact htidy
    · rw [bound?_bind_of_ne fun hl hx => hnew ⟨hl, hx⟩] at hx
      exact h.tidy l hl x u hx
  · exact fun hordered x hx => (h.known hordered x hx).imp_right fun hknown => hknown.congr (hvalue x hx)

end Alive

end Birth

/-! ## Invariants -/

/-- All functions that have been made, and the scopes that they were made in. -/
structure Births (p : Plan) (W : World) (agenda : Agenda) (scopes : Array Scope) : Prop where
  compiled : ∀ b ∈ W, b.Compiled p
  alive : ∀ b ∈ W, b.Alive p W agenda scopes
  oneToOne : W.OneToOne
  pending_lt : ∀ l x, agenda l x → l < scopes.size

/-- The values that both engines keep outside of calls. -/
structure Values (p : Plan) (W : World) (st : Evaluator) (m : Machine) : Prop where
  globals : ∀ x v, bound? st.scopes 0 x = some v →
    ∃ symbol, p.table.bindings.get? x = some symbol ∧ symbol.place = .global ∧
      Value.Matches W v (m.globals[symbol.index]?.getD .null)
  output : p.ordered = true → Builtin.OutputMatches W st.output m.output
  closures : ∀ b ∈ W, b.closureId < m.nextIdentity
  constants : m.bytecode.constants = p.constants

/-- The value of a symbol that has been defined. -/
def Machine.variable (m : Machine) (symbol : Symbol) : Value :=
  match symbol.place with
  | .global => m.globals[symbol.index]?.getD .null
  | _ => m.slot (m.frame.base + symbol.index)

/-- What is running: the main program, or a call of a function. -/
inductive Role (W : World) (c : Compiler) (scope : Nat) (outer : List Nat) (m : Machine) :
    Option Birth → Prop where
  | main : c.symbols.nested = false → scope = 0 → outer = [] → m.frame.closure? = none →
      m.frame.base = 0 → m.callers = [] → Role W c scope outer m none
  | call {b : Birth} : c.symbols.nested = true → scope ≠ 0 → outer = b.levels →
      m.frame.closure? = some b.closure → 1 ≤ m.frame.base → m.callers ≠ [] → b ∈ W →
      (∀ x symbol, c.symbols.inner.bindings.get? x = some symbol → symbol.place = .function →
        b.name = some x) →
      Role W c scope outer m (some b)

/-- The running call at a place of its code, where the compiler is in the state `c`. Each name of its scope
has its value in the slot that the table gives it. -/
structure Active (W : World) (running : Option Birth) (c : Compiler) (scope : Nat) (outer : List Nat)
    (st : Evaluator) (m : Machine) : Prop where
  sound : c.symbols.Sound
  chained : Chained st.scopes scope outer
  locals : ∀ x v, bound? st.scopes scope x = some v →
    ∃ symbol, c.symbols.inner.bindings.get? x = some symbol ∧
      (symbol.place = .local ∨ symbol.place = .global) ∧ Value.Matches W v (m.variable symbol)
  foreign : ∀ x symbol, c.symbols.inner.bindings.get? x = some symbol → symbol.place = .local →
    ∀ l ∈ outer, bound? st.scopes l x = none
  role : Role W c scope outer m running
  room : m.frame.base + m.frame.numLocals ≤ m.top
  top_le : m.top ≤ stackSize
  depth : m.callers.length = st.depth

/-- The state of the compiler is on the way to the end of the running code. -/
structure Bounded (p : Plan) (running : Option Birth) (c : Compiler) : Prop where
  covers : p.Covers c
  slots : ∀ b, running = some b → c.symbols.inner.Grows b.closed.symbols.inner

/-- What bounds a state of the compiler bounds those before it. -/
theorem Bounded.anti {p : Plan} {running : Option Birth} {c c' : Compiler} {own : List String}
    (h : Bounded p running c') (hadds : Adds c.symbols own c'.symbols) (hgrows : c.Grows c') :
    Bounded p running c :=
  ⟨h.covers.anti hadds hgrows, fun b hb => hgrows.symbols.inner.trans (h.slots b hb)⟩

namespace Births

variable {p : Plan} {W : World} {agenda agenda' : Agenda} {scopes scopes' : Array Scope}

/-- Names may be taken off the agenda of all functions at once. -/
theorem anti (h : Births p W agenda scopes) (hle : ∀ l x, agenda' l x → agenda l x) :
    Births p W agenda' scopes :=
  ⟨h.compiled, fun b hb => (h.alive b hb).anti hle, h.oneToOne,
    fun l x hx => h.pending_lt l x (hle l x hx)⟩

end Births

namespace Active

variable {p : Plan} {W W' : World} {running : Option Birth} {c c' : Compiler} {scope h ip : Nat}
  {outer : List Nat} {st st' : Evaluator} {m m' : Machine}

/-- The frame of a call has the locals of its function. -/
theorem frame_numLocals {b : Birth} (hclosure : m.frame.closure? = some b.closure) :
    m.frame.numLocals = b.closed.symbols.inner.numDefinitions := by
  rw [Frame.numLocals, Frame.numLocals?, hclosure]
  rfl

/-- The slots of a symbol that has been defined exist. -/
theorem index_lt (hactive : Active W running c scope outer st m) (hbounded : Bounded p running c)
    {x : String} {symbol : Symbol} (hget : c.symbols.inner.bindings.get? x = some symbol)
    (hplace : symbol.place = .local) : symbol.index < m.frame.numLocals := by
  have hvalid := (hactive.sound.inner x symbol hget).2
  simp only [Symbol.Valid, hplace] at hvalid
  cases hactive.role with
  | main hnested =>
      rw [Symbols.nested] at hnested
      rw [hnested] at hvalid
      exact absurd hvalid.1 Bool.false_ne_true
  | call _ _ _ hclosure =>
      rw [frame_numLocals hclosure]
      exact Nat.lt_of_lt_of_le hvalid.2 (hbounded.slots _ rfl).numDefinitions

/-- The compiler goes on while nothing is executed. -/
theorem compile {own : List String} (hactive : Active W running c scope outer st m)
    (hadds : Adds c.symbols own c'.symbols) (hsound : c'.symbols.Sound)
    (hnested : c'.symbols.nested = c.symbols.nested)
    (hown : ∀ x ∈ own, ∀ l ∈ outer, bound? st.scopes l x = none)
    (houter : ∀ x symbol, c'.symbols.inner.bindings.get? x = some symbol → symbol.place = .local →
      c.symbols.inner.bindings.get? x = some symbol ∨ x ∈ own) :
    Active W running c' scope outer st m where
  sound := hsound
  chained := hactive.chained
  locals := by
    intro x v hx
    obtain ⟨symbol, hget, hplace, hmatch⟩ := hactive.locals x v hx
    exact ⟨symbol, hadds.keeps x symbol hget, hplace, hmatch⟩
  foreign := by
    intro x symbol hget hplace
    rcases houter x symbol hget hplace with hold | hnew
    · exact hactive.foreign x symbol hold hplace
    · exact hown x hnew
  role := by
    cases hactive.role with
    | main hn hscope houter hclosure hbase hcallers =>
        exact .main (hnested.trans hn) hscope houter hclosure hbase hcallers
    | call hn hscope houter hclosure hbase hcallers hmem hself =>
        refine .call (hnested.trans hn) hscope houter hclosure hbase hcallers hmem ?_
        intro x symbol hget hplace
        rcases hadds.new x symbol hget with hold | ⟨-, hnot⟩ | ⟨hfree, -⟩
        · exact hself x symbol hold hplace
        · exact absurd hplace hnot
        · rw [hfree] at hplace
          cases hplace
  room := hactive.room
  top_le := hactive.top_le
  depth := hactive.depth

end Active

/-! ## Loading

One lemma for each place that a symbol can have. In each case the name is found in the scopes of the
evaluator, and the value in that place of the machine matches it. -/

/-- A symbol of the main program is found in its table. -/
theorem Symbols.Found.main {x : String} {t : SymbolTable} {ts : List SymbolTable} {symbol : Symbol}
    (h : Found x t ts symbol) (hs : SoundFrom t ts)
    (hplace : symbol.place = .global ∨ symbol.place = .builtin) :
    (Symbols.main ⟨t, ts⟩).bindings.get? x = some symbol := by
  rcases h with hinner | ⟨-, -, hmain⟩
  · have hvalid := (hs.inner x symbol hinner).2
    have hnil : ts = [] := by
      unfold Symbol.Valid at hvalid
      rcases hplace with hp | hp <;> simp only [hp] at hvalid <;> simpa using hvalid.1
    subst hnil
    exact hinner
  · exact hmain

/-- What an instruction finds under a symbol is what the name of the symbol stands for, if it stands for
anything. -/
structure Loads [StringHash] (W : World) (scopes : Array Scope) (levels : List Nat) (m : Machine) (x : String)
    (symbol : Symbol) (w : Value) : Prop where
  result : symbol.loadInstruction.result? m [] = some (.ok w)
  bound : ∀ v, valueAt scopes levels x = some v → Value.Matches W v w
  builtin : valueAt scopes levels x = none → ∀ b, Builtin.ofName? x = some b →
    Value.Matches W (.builtin b) w

namespace Active

variable {p : Plan} {W : World} {agenda : Agenda} {running : Option Birth} {c : Compiler}
  {scope : Nat} {outer : List Nat} {st : Evaluator} {m : Machine} {x : String} {symbol : Symbol}
  {v : Value}

/-- The scopes of the running call are tidy if the innermost one is. -/
theorem tidy (hbirths : Births p W agenda st.scopes) (hactive : Active W running c scope outer st m)
    (htidy : p.Tidy st.scopes scope) : ∀ l ∈ scope :: outer, p.Tidy st.scopes l := by
  refine List.forall_mem_cons.mpr ⟨htidy, fun l hl => ?_⟩
  cases hactive.role with
  | main _ _ houter =>
      rw [houter] at hl
      cases hl
  | call _ _ houter _ _ _ hmem =>
      rw [houter] at hl
      exact (hbirths.alive _ hmem).tidy l hl

variable [StringHash]

/-- Globals are bound in the scope of the main program. -/
theorem load_global (hp : p.Valid) (htidy : ∀ l ∈ scope :: outer, p.Tidy st.scopes l)
    (hvalues : Values p W st m) (hcovers : p.Covers c) (hmain : c.symbols.main.bindings.get? x = some symbol)
    (hplace : symbol.place = .global) :
    ∃ w, Loads W st.scopes (scope :: outer) m x symbol w := by
  have htable := hcovers.table x symbol hmain
  have hglobal := hp.globals x symbol htable hplace
  refine ⟨m.globals[symbol.index]?.getD .null, ?_, fun v hv => ?_, fun _ b hb => ?_⟩
  · simp only [Symbol.loadInstruction, hplace, Instruction.result?]
  · obtain ⟨l, hl, hbound⟩ := exists_bound_of_valueAt hv
    -- only the main program binds the name
    have hzero : l = 0 := by
      by_contra hne
      exact (htidy l hl x v hbound).2 hne hglobal
    subst hzero
    obtain ⟨symbol', hget, -, hmatch⟩ := hvalues.globals x v hbound
    rw [htable] at hget
    cases hget
    exact hmatch
  · rw [hp.builtins x hglobal] at hb
    cases hb

/-- Built-in functions are bound in no scope. -/
theorem load_builtin (htidy : ∀ l ∈ scope :: outer, p.Tidy st.scopes l) (hsound : c.symbols.Sound)
    (hmain : c.symbols.main.bindings.get? x = some symbol) (hplace : symbol.place = .builtin) :
    ∃ w, Loads W st.scopes (scope :: outer) m x symbol w := by
  obtain ⟨hname, hvalid⟩ := Symbols.SoundFrom.main hsound x symbol hmain
  simp only [Symbol.Valid, hplace] at hvalid
  obtain ⟨b, hb, hbname⟩ := Option.map_eq_some_iff.mp hvalid.2
  have hof : Builtin.ofName? x = some b := by
    rw [← hname, ← hbname]
    exact b.ofName?_name
  refine ⟨.builtin b, ?_, fun v hv => ?_, fun _ b' hb' => ?_⟩
  · simp only [Symbol.loadInstruction, hplace, Instruction.result?, hb, Option.map_some]
  · obtain ⟨l, hl, hbound⟩ := exists_bound_of_valueAt hv
    rw [(htidy l hl x v hbound).1] at hof
    cases hof
  · rw [hof] at hb'
    cases hb'
    exact .builtin b

omit [StringHash] in
/-- What is bound in the scope of the running call has a slot. -/
theorem of_bound (hactive : Active W running c scope outer st m)
    (hget : c.symbols.inner.bindings.get? x = some symbol)
    (hbound : bound? st.scopes scope x = some v) :
    (symbol.place = .local ∨ symbol.place = .global) ∧ Value.Matches W v (m.variable symbol) := by
  obtain ⟨symbol', hget', hplace, hmatch⟩ := hactive.locals x v hbound
  rw [hget] at hget'
  cases hget'
  exact ⟨hplace, hmatch⟩

/-- Locals are bound in the scope of the running call. -/
theorem load_local (hactive : Active W running c scope outer st m) (hbounded : Bounded p running c)
    (hclean : Clean c.symbols.tables) (hget : c.symbols.inner.bindings.get? x = some symbol)
    (hplace : symbol.place = .local) :
    ∃ w, Loads W st.scopes (scope :: outer) m x symbol w := by
  have hindex := hactive.index_lt hbounded hget hplace
  have hroom := hactive.room
  have htop := hactive.top_le
  have hslot : m.stack[m.frame.base + symbol.index]? = some (m.variable symbol) := by
    simp only [Machine.variable, hplace, Machine.slot]
    rw [Vector.getElem?_eq_getElem (by omega)]
    rfl
  refine ⟨m.variable symbol, ?_, fun v hv => ?_, fun _ b hb => ?_⟩
  · simp only [Symbol.loadInstruction, hplace, Instruction.result?, hslot, Option.map_some]
  · cases hbound : bound? st.scopes scope x with
    | some w =>
        rw [valueAt_cons_of_some hbound] at hv
        cases hv
        exact (hactive.of_bound hget hbound).2
    | none =>
        rw [valueAt_cons_of_none hbound] at hv
        obtain ⟨l, hl, hbound'⟩ := exists_bound_of_valueAt hv
        rw [hactive.foreign x symbol hget hplace l hl] at hbound'
        cases hbound'
  · have hnone := (List.forall_mem_cons.mp hclean).1 x symbol hget (.inl hplace)
    rw [hnone] at hb
    cases hb

omit [StringHash] in
/-- A name that is captured, or that the running function has, is looked up around the function. -/
theorem valueAt_outer (hactive : Active W running c scope outer st m)
    (hget : c.symbols.inner.bindings.get? x = some symbol)
    (hplace : symbol.place = .free ∨ symbol.place = .function) :
    valueAt st.scopes (scope :: outer) x = valueAt st.scopes outer x := by
  apply valueAt_cons_of_none
  cases hbound : bound? st.scopes scope x with
  | none => rfl
  | some v =>
      obtain ⟨hlocal, -⟩ := hactive.of_bound hget hbound
      rcases hplace with hp | hp <;> rw [hp] at hlocal <;> rcases hlocal with h | h <;> cases h

/-- Captured values are those that the names stood for when the closure was made, and the running closure is one
of them. -/
theorem load_captured (hbirths : Births p W agenda st.scopes)
    (hactive : Active W running c scope outer st m) (hbounded : Bounded p running c)
    (hclean : Clean c.symbols.tables) (hget : c.symbols.inner.bindings.get? x = some symbol)
    (hplace : symbol.place = .free ∨ symbol.place = .function) :
    ∃ w, Loads W st.scopes (scope :: outer) m x symbol w := by
  have houter := hactive.valueAt_outer hget hplace
  obtain ⟨hname, hvalid⟩ := hactive.sound.inner x symbol hget
  have hnobuiltin : Builtin.ofName? x = none := by
    by_contra hx
    rcases Clean.place hx hactive.sound hclean hget with h | h <;>
      rcases hplace with hp | hp <;> rw [hp] at h <;> cases h
  have hnested : c.symbols.nested = true := by
    unfold Symbol.Valid at hvalid
    rcases hplace with hp | hp <;> simp only [hp] at hvalid
    · exact hvalid.1
    · exact hvalid
  cases hactive.role with
  | main hmain =>
      rw [hnested] at hmain
      cases hmain
  | @call b _ _ hlevels hclosure _ _ hmem hself =>
      have halive := hbirths.alive b hmem
      rcases hplace with hp | hp
      · -- the symbol is one of those that the closure captured
        simp only [Symbol.Valid, hp] at hvalid
        obtain ⟨captured, hcaptured, hcname⟩ := Option.map_eq_some_iff.mp hvalid.2
        obtain ⟨more, hmore⟩ := (hbounded.slots b rfl).captures
        have hk : b.closed.symbols.inner.captures[symbol.index]? = some captured := by
          rw [← hmore, List.getElem?_append_left (List.getElem?_eq_some_iff.mp hcaptured).1, hcaptured]
        obtain ⟨w, hw, hmatch⟩ := halive.captured symbol.index captured hk
        refine ⟨w, ?_, fun v hv => ?_, fun _ b' hb' => ?_⟩
        · have hfree : b.closure.free[symbol.index]? = some w := hw
          simp only [Symbol.loadInstruction, hp, Instruction.result?, hclosure, Option.bind_some, hfree,
            Option.map_some]
        · apply hmatch
          rw [hcname, hname, ← hlevels, ← houter, hv]
        · rw [hnobuiltin] at hb'
          cases hb'
      · refine ⟨b.closure.toValue, ?_, fun v hv => ?_, fun _ b' hb' => ?_⟩
        · simp only [Symbol.loadInstruction, hp, Instruction.result?, hclosure, Option.map_some]
        · rw [houter, hlevels] at hv
          rw [halive.self x (hself x symbol hget hp) v hv]
          exact .function hmem
        · rw [hnobuiltin] at hb'
          cases hb'

/-- **Loading**: an instruction that loads a symbol pushes what its name stands for. -/
theorem load (hp : p.Valid) (hbirths : Births p W agenda st.scopes) (hvalues : Values p W st m)
    (hactive : Active W running c scope outer st m) (htidy : p.Tidy st.scopes scope)
    (hbounded : Bounded p running c) (hclean : Clean c.symbols.tables)
    (hfound : Found x c.symbols.inner c.symbols.outer symbol) :
    ∃ w, Loads W st.scopes (scope :: outer) m x symbol w := by
  have htidies := hactive.tidy hbirths htidy
  by_cases hglobal : symbol.place = .global
  · exact load_global hp htidies hvalues hbounded.covers
      (hfound.main hactive.sound (.inl hglobal)) hglobal
  · by_cases hbuiltin : symbol.place = .builtin
    · exact load_builtin htidies hactive.sound (hfound.main hactive.sound (.inr hbuiltin)) hbuiltin
    · have hget : c.symbols.inner.bindings.get? x = some symbol := by
        rcases hfound with hget | ⟨-, hplace, -⟩
        · exact hget
        · rcases hplace with h | h
          · exact absurd h hglobal
          · exact absurd h hbuiltin
      cases hplace : symbol.place with
      | global => exact absurd hplace hglobal
      | builtin => exact absurd hplace hbuiltin
      | «local» => exact hactive.load_local hbounded hclean hget hplace
      | free => exact hactive.load_captured hbirths hbounded hclean hget (.inl hplace)
      | function => exact hactive.load_captured hbirths hbounded hclean hget (.inr hplace)

end Active

end ScriptLang
