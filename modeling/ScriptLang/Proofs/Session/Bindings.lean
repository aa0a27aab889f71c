import ScriptLang.Proofs.Machine.Confinement
import ScriptLang.Proofs.Session

/-!
# Names over the lines of a session

A line leaves alone what the names stand for that it does not bind itself, however its run ends. A name that
it does bind has a new global from the moment on when the line is compiled, and it stands for `null` until
the `let` of that global is executed, whatever it stood for before. Main statements:

* `Session.Reachable.valueOf?_run` — a name that a line does not bind stands for what it stood for;
* `Session.Reachable.valueOf?_run_of_mem` — a name that a line binds stands for what the run has stored in
  its new global, or for `null`;
* `Session.Reachable.run_name` — a line that consists of a name gives what the name stands for.
-/

namespace ScriptLang

/-! ## Globals that a run stores in -/

namespace Machine

variable {m m' : Machine} {i : Instruction} {k : Nat}

/-- The next instruction stores in a global. -/
def StoresGlobal (m : Machine) (k : Nat) : Prop :=
  ∃ next, decode m.code m.frame.ip = .instruction (.setGlobal k) next

variable [StringHash]

theorem Executed.getElem?_globals (h : m.Executed i m') (hi : i ≠ .setGlobal k) :
    m'.globals[k]? = m.globals[k]? := by
  cases h with
  | @setGlobal j htop =>
      apply Vector.getElem?_setIfInBounds_ne
      rintro rfl
      exact hi rfl
  | jumpNotTruthy htop => split <;> rfl
  | _ => rfl

/-- A global changes only where an instruction stores in it. -/
theorem Safe.getElem?_globals_of_steps {n : Nat} (h : m.Safe) (hsteps : Steps n m m')
    (hk : ∀ m₁, m.Reaches m₁ → ¬ m₁.StoresGlobal k) : m'.globals[k]? = m.globals[k]? := by
  induction hsteps with
  | refl => rfl
  | @head n m m₁ m' hstep hsteps ih =>
      have hm₁ := (h.steps (.one hstep)).1
      have hrest := ih hm₁ fun m₂ hreach => hk m₂ ((Reaches.step hstep).trans hreach)
      have hcases := h.step_cases
      rw [hstep] at hcases
      cases hcases with
      | executed _ hdecode hexecuted =>
          apply hrest.trans
          apply hexecuted.getElem?_globals
          rintro rfl
          exact hk m (.refl m) ⟨_, hdecode⟩

/-- An instruction that fails stores nothing. -/
theorem Safe.globals_of_stops {e : Ending} (h : m.Safe) (hstops : m.Stops e m') :
    m'.globals = m.globals := by
  have hcases := h.step_cases
  cases hstops with
  | finished hstep => rfl
  | failed hstep =>
      rw [hstep] at hcases
      cases hcases
      rfl
  | malformed hstep =>
      rw [hstep] at hcases
      cases hcases

/-- **Globals of a run**: however a run ends, it leaves a global alone in which nothing is stored. -/
theorem Safe.getElem?_globals_run (h : m.Safe) (hfresh : m.Fresh)
    (hk : ∀ m₁, m.Reaches m₁ → ¬ m₁.StoresGlobal k) : m.run.2.globals[k]? = m.globals[k]? := by
  obtain ⟨m₁, ⟨n, hsteps⟩, hstops⟩ := h.run_stops hfresh
  rw [(h.steps hsteps).1.globals_of_stops hstops]
  exact h.getElem?_globals_of_steps hsteps hk

end Machine

/-- Only the main program stores in globals, and only in those that are in its code. -/
theorem Machine.Safe.mem_of_storesGlobal {m : Machine} {is : Instructions} {k : Nat} (h : m.Safe)
    (hdecodes : m.bytecode.code.Decodes is) (hk : m.StoresGlobal k) : .setGlobal k ∈ is := by
  obtain ⟨next, hdecode⟩ := hk
  rcases h.control with ⟨height, hrunning⟩ | hhalted
  · cases hclosure : m.frame.closure? with
    | none =>
        obtain ⟨post, hat⟩ := hrunning.at_main hdecodes hclosure
        obtain ⟨rest, rfl⟩ := next_of_decode hat hdecode
        exact hat.mem
    | some closure =>
        exact absurd hdecode (hrunning.decode_ne_setGlobal h.data hclosure)
  · rw [Code.decode_of_size_le hhalted.finished] at hdecode
    cases hdecode

/-! ## Lines that consist of a name -/

/-- In the main program a name is looked up in one table. -/
theorem Symbols.resolve?_of_main {s : Symbols} (hn : s.nested = false) (name : String) :
    s.resolve? name = (s.main.bindings.get? name).map fun symbol => (symbol, s) := by
  rw [main_of_nested hn]
  cases hget : s.inner.bindings.get? name with
  | some symbol => exact resolve?_eq_some.mpr (.stored hget)
  | none =>
      have houter : s.outer = [] := by simpa [nested] using hn
      rw [Option.map_none, resolve?_eq_none, tables, houter, List.forall_mem_singleton]
      exact hget

namespace Compiler

open CompileM

variable {c : Compiler} {name : String}

/-- A line that consists of a name is compiled to two instructions. -/
theorem compile_name {symbol : Symbol} (hn : c.symbols.nested = false)
    (hget : c.symbols.main.bindings.get? name = some symbol) (hfits : symbol.loadInstruction.Fits) :
    c.compile [.expr (.identifier name)] =
      (.ok ⟨Instructions.toCode [symbol.loadInstruction, .pop], c.constants⟩, c) := by
  have hresolve := Symbols.resolve?_of_main hn name
  rw [hget, Option.map_some] at hresolve
  let emitter := Emitter.append {} symbol.loadInstruction
  have hload : loadName name (Assembly.resume c) = .ok () { Assembly.resume c with emitter } := by
    rw [loadName_of_some (a := Assembly.resume c) hresolve, load_eq_emit]
    exact emit_eq_ok.mpr ⟨hfits, rfl⟩
  have hline : Stmt.compileAll [.expr (.identifier name)] (Assembly.resume c) =
      .ok () { Assembly.resume c with emitter := emitter.append .pop } := by
    simp only [Stmt.compileAll, Stmt.compile, Expr.compile, bind_eq_ok, emit_eq_ok]
    exact ⟨(), _, ⟨(), _, hload, rfl, rfl⟩, pure_eq_ok.mpr rfl⟩
  have hcode : (emitter.append .pop).code = Instructions.toCode [symbol.loadInstruction, .pop] := by
    apply Array.toList_inj.mp
    simp [emitter, Emitter.toList_append, Instructions.toCode]
  rw [compile, Assembly.compile, hline, ← hcode]
  rfl

/-- A line that consists of an unknown name is not compiled. -/
theorem compile_name_of_none (hn : c.symbols.nested = false)
    (hget : c.symbols.main.bindings.get? name = none) :
    c.compile [.expr (.identifier name)] = (.error (.undefinedVariable name), c) := by
  have hresolve := Symbols.resolve?_of_main hn name
  rw [hget, Option.map_none] at hresolve
  have hload : loadName name (Assembly.resume c) =
      .error (.undefinedVariable name) (Assembly.resume c) := loadName_of_none hresolve
  have hline : Stmt.compileAll [.expr (.identifier name)] (Assembly.resume c) =
      .error (.undefinedVariable name) (Assembly.resume c) := by
    simp only [Stmt.compileAll, Stmt.compile, Expr.compile, bind_apply, hload]
  rw [compile, Assembly.compile, hline]
  simp [Assembly.compiler, Assembly.resume]

end Compiler

namespace Machine

/-- The machine of a line that loads a value and takes it off the stack again. -/
theorem Safe.run_of_load_pop [StringHash] {m : Machine} {i : Instruction} {v : Value} (hm : m.Safe)
    (hfresh : m.Fresh) (htop : m.top = 0) (hpops : i.pops = 0)
    (hcode : m.bytecode.code = Instructions.toCode [i, .pop]) (hfits : ∀ j ∈ [i, .pop], j.Fits)
    (hresult : ∀ m' : Machine, m'.globals = m.globals → ∀ vs, i.result? m' vs = some (.ok v)) :
    m.run.1 = .finished ∧ m.run.2.lastPopped = v ∧ m.run.2.globals = m.globals ∧
      m.run.2.nextIdentity = m.nextIdentity + i.closuresMade := by
  have hframe : m.code = Instructions.toCode [i, .pop] := by
    rw [code_eq, Frame.code, hfresh.frame]
    exact hcode
  have hholds : m.code.Holds m.frame.ip [i, .pop] := by
    rw [hframe, hfresh.frame]
    exact Code.holds_toCode hfits
  -- the load, the `pop` and the end of the code
  let m₁ := (m.jumped (m.frame.ip + i.size)).replaced i v
  let m₂ := (m₁.jumped (m₁.frame.ip + Instruction.pop.size)).dropped 1
  have hroom : m.top - i.pops < stackSize := by
    rw [htop, hpops]
    decide
  have hload : m.Reaches m₁ := reaches_of_execute hholds
    (Executed.result (m := m.jumped (m.frame.ip + i.size)) (hresult _ rfl _)
      (by rw [hpops]; exact Nat.zero_le _) hroom).execute_eq
  have hpop : m₁.Reaches m₂ := reaches_of_execute (m := m₁) hholds.tail
    (Executed.pop (Nat.le_add_left 1 _)).execute_eq
  have hend : m₂.Stops .finished m₂ := by
    refine .finished (MachineM.step_finished (Code.decode_of_size_le ?_))
    show m.code.size ≤ m.frame.ip + i.size + Instruction.pop.size
    rw [hframe, Instructions.size_toCode, Instructions.size_cons, Instructions.size_cons,
      Instructions.size_nil]
    omega
  obtain ⟨_, hsteps⟩ := hload.trans hpop
  obtain ⟨m', ⟨_, hsteps'⟩, hstops⟩ := hm.run_stops hfresh
  obtain ⟨hending, hmachine⟩ := hsteps.unique hend hsteps' hstops
  rw [← hending, ← hmachine]
  refine ⟨rfl, ?_, rfl, rfl⟩
  show (m.stack.setIfInBounds (m.top - i.pops) v)[m.top - i.pops + 1 - 1]?.getD .null = v
  rw [Nat.add_sub_cancel]
  exact slot_setIfInBounds_self v hroom

end Machine

/-! ## Values of names -/

namespace Session

variable {s s' : Session} {line : Program} {m : Machine} {name : String}

/-- The value of a symbol of the main program: what is in its global, or a built-in function. -/
def symbolValue? (s : Session) (symbol : Symbol) : Option Value :=
  match symbol.place with
  | .global => s.globals[symbol.index]?
  | .builtin => (Builtin.ofIndex? symbol.index).map .builtin
  | _ => none

/-- What a name of the main program stands for. -/
def valueOf? (s : Session) (name : String) : Option Value :=
  (s.compiler.symbols.main.bindings.get? name).bind s.symbolValue?

theorem valueOf?_of_get? {symbol : Symbol}
    (h : s.compiler.symbols.main.bindings.get? name = some symbol) :
    s.valueOf? name = s.symbolValue? symbol := by
  rw [valueOf?, h, Option.bind_some]

/-- What a line is compiled to. -/
theorem Safe.defines (h : s.Safe) (hload : s.load line = (.ok m, s')) :
    ∃ is, m.bytecode.code.Decodes is ∧ (∀ i ∈ is, i.Fits) ∧ m.globals = s.globals ∧
      Defines (Stmt.bindersAll false line) is s.compiler.symbols s'.compiler.symbols := by
  obtain ⟨b, c', hcompile, rfl, rfl⟩ := load_eq_ok hload
  obtain ⟨is, hemits, hfits, rfl⟩ := Compiler.compile_emits hcompile
  exact ⟨is, Code.decodes_toCode hfits, hfits, rfl, hemits.defines h.compiler.sound.symbols⟩

/-- A run stores only in the globals that its line defines. -/
theorem Safe.storesGlobal [StringHash] (h : s.Safe) (hload : s.load line = (.ok m, s')) {m₁ : Machine} {k : Nat}
    (hreach : m.Reaches m₁) (hk : m₁.StoresGlobal k) :
    s.compiler.symbols.main.numDefinitions ≤ k ∧ k < s'.compiler.symbols.main.numDefinitions := by
  obtain ⟨is, hdecodes, -, -, hdefines⟩ := h.defines hload
  obtain ⟨hm, -⟩ := h.machine hload
  obtain ⟨n, hsteps⟩ := hreach
  obtain ⟨hm₁, hb⟩ := hm.steps hsteps
  rw [← hb] at hdecodes
  exact (hdefines.stores k (hm₁.mem_of_storesGlobal hdecodes hk)).2

end Session

/-- The globals of a compiler exist in every machine. -/
theorem Compiler.Reachable.index_lt {c : Compiler} (h : c.Reachable) {name : String} {symbol : Symbol}
    (hget : c.symbols.main.bindings.get? name = some symbol) (hplace : symbol.place = .global) :
    symbol.index < numGlobals := by
  induction h with
  | initial =>
      -- at first there are no definitions
      have hvalid := (Compiler.initial_sound.main name symbol hget).2
      rw [Symbol.Valid, hplace] at hvalid
      exact absurd hvalid.2 (Nat.not_lt_zero _)
  | @compile c program hc ih =>
      rcases hcompile : c.compile program with ⟨result, c'⟩
      rw [hcompile] at hget
      cases result with
      | error e =>
          rw [Compiler.compile_error hcompile] at hget
          exact ih hget
      | ok b =>
          obtain ⟨is, hemits, hfits, -⟩ := Compiler.compile_emits hcompile
          have hdefines := hemits.defines hc.sound.symbols
          by_cases hmem : name ∈ Stmt.bindersAll false program
          · obtain ⟨k, hk, hstore⟩ := hdefines.own hc.nested_eq name hmem
            rw [hk] at hget
            cases hget
            exact setGlobal_fits (hfits _ hstore)
          · rw [hdefines.others name (.inr hmem)] at hget
            exact ih hget

theorem Compiler.Reachable.numDefinitions_le {c : Compiler} (h : c.Reachable) (program : Program) :
    c.symbols.main.numDefinitions ≤ (c.compile program).2.symbols.main.numDefinitions := by
  rcases hcompile : c.compile program with ⟨result, c'⟩
  cases result with
  | error e =>
      rw [Compiler.compile_error hcompile]
  | ok b =>
      obtain ⟨is, hemits, -, -⟩ := Compiler.compile_emits hcompile
      exact (hemits.defines h.sound.symbols).grows

namespace Session

variable [StringHash] {s s' : Session} {line : Program} {m : Machine} {name : String}

/-- However a run ends, it leaves a global alone in which nothing is stored. -/
theorem Safe.getElem?_globals_run (h : s.Safe) (hload : s.load line = (.ok m, s')) {k : Nat}
    (hk : ∀ m₁, m.Reaches m₁ → ¬ m₁.StoresGlobal k) :
    (s.run line).2.globals[k]? = s.globals[k]? := by
  obtain ⟨hm, hfresh, -⟩ := h.machine hload
  obtain ⟨is, -, -, hglobals, -⟩ := h.defines hload
  rw [run_of_load_ok hload, keep_globals, hm.getElem?_globals_run hfresh hk, hglobals]

/-- Behind the globals that a session has defined there are others that no program has stored in. -/
theorem Reachable.getElem?_globals (hs : s.Reachable) {k : Nat}
    (hk : s.compiler.symbols.main.numDefinitions ≤ k) (hlt : k < numGlobals) :
    s.globals[k]? = some .null := by
  induction hs with
  | start => exact Vector.getElem?_replicate_of_lt hlt
  | @load s line hs ih =>
      rw [load_snd] at hk ⊢
      exact ih (Nat.le_trans (hs.safe.compiler.numDefinitions_le line) hk)
  | @run s line hs ih =>
      rcases hload : s.load line with ⟨result, s'⟩
      cases result with
      | error e =>
          rw [run_of_load_error hload, load_eq_error hload] at hk ⊢
          exact ih hk
      | ok m =>
          rw [run_of_load_ok hload, keep_compiler] at hk
          have hnew : ∀ m₁, m.Reaches m₁ → ¬ m₁.StoresGlobal k := by
            intro m₁ hreach hstores
            exact Nat.not_lt.mpr hk (hs.safe.storesGlobal hload hreach hstores).2
          rw [hs.safe.getElem?_globals_run hload hnew]
          obtain ⟨b, c', hcompile, -, rfl⟩ := load_eq_ok hload
          have hgrows := hs.safe.compiler.numDefinitions_le line
          rw [hcompile] at hgrows
          exact ih (Nat.le_trans hgrows hk)

/-- What the load of a name puts on the stack. -/
theorem symbolValue?_result {symbol : Symbol} {v : Value} (h : s.symbolValue? symbol = some v) :
    symbol.loadInstruction.Fits ∧ symbol.loadInstruction.pops = 0 ∧
      symbol.loadInstruction.closuresMade = 0 ∧
      ∀ m : Machine, m.globals = s.globals → ∀ vs, symbol.loadInstruction.result? m vs = some (.ok v) := by
  rw [symbolValue?] at h
  rw [Symbol.loadInstruction]
  cases hplace : symbol.place with
  | global =>
      simp only [hplace] at h ⊢
      have hlt : symbol.index < numGlobals := by
        by_contra hle
        rw [Vector.getElem?_eq_none (Nat.not_lt.mp hle)] at h
        cases h
      refine ⟨.of_operand_lt ?_, rfl, rfl, fun m hglobals vs => ?_⟩
      · intro p hp
        rw [List.mem_singleton.mp hp]
        exact hlt
      · simp only [Instruction.result?, hglobals, h, Option.getD_some]
  | builtin =>
      simp only [hplace] at h ⊢
      obtain ⟨b, hb, rfl⟩ := Option.map_eq_some_iff.mp h
      have hlt : symbol.index < Builtin.all.length := (List.getElem?_eq_some_iff.mp hb).1
      refine ⟨.of_operand_lt ?_, rfl, rfl, fun m _ vs => ?_⟩
      · intro p hp
        rw [List.mem_singleton.mp hp]
        have hfew : Builtin.all.length < 256 := by decide
        exact Nat.lt_trans hlt hfew
      · simp only [Instruction.result?, hb, Option.map_some]
  | _ => simp only [hplace] at h; cases h

/-! ## Main statements -/

/-- **Names that a line does not bind**: whatever comes of a line, whether it cannot be compiled, fails or
runs through, a name that it does not bind in the main program stands for what it stood for before. -/
theorem Reachable.valueOf?_run (hs : s.Reachable) (hname : name ∉ Stmt.bindersAll false line) :
    (s.run line).2.valueOf? name = s.valueOf? name := by
  rcases hload : s.load line with ⟨result, s'⟩
  cases result with
  | error e => rw [run_of_load_error hload, load_eq_error hload]
  | ok m =>
      obtain ⟨is, -, -, -, hdefines⟩ := hs.safe.defines hload
      have hrun := run_of_load_ok hload
      have hget := hdefines.others name (.inr hname)
      have hkept : ∀ k < s.compiler.symbols.main.numDefinitions,
          (s.run line).2.globals[k]? = s.globals[k]? := by
        intro k hk
        apply hs.safe.getElem?_globals_run hload
        intro m₁ hreach hstores
        exact Nat.not_lt.mpr (hs.safe.storesGlobal hload hreach hstores).1 hk
      have hcompiler : (s.run line).2.compiler = s'.compiler := by rw [hrun, keep_compiler]
      cases hsymbol : s.compiler.symbols.main.bindings.get? name with
      | none => rw [valueOf?, valueOf?, hcompiler, hget, hsymbol, Option.bind_none, Option.bind_none]
      | some symbol =>
          rw [valueOf?_of_get? hsymbol, valueOf?_of_get? (hcompiler ▸ hget.trans hsymbol)]
          cases hplace : symbol.place with
          | global =>
              have hvalid := (hs.safe.compiler.sound.symbols.main name symbol hsymbol).2
              rw [Symbol.Valid, hplace] at hvalid
              simp only [symbolValue?, hplace]
              exact hkept _ hvalid.2
          | _ => simp only [symbolValue?, hplace]

/-- **Names that a line binds**: such a name has a new global, and it stands for what the run has stored
there. Until that happens it stands for `null`, whatever it stood for before. -/
theorem Reachable.valueOf?_run_of_mem (hs : s.Reachable) (hload : s.load line = (.ok m, s'))
    (hname : name ∈ Stmt.bindersAll false line) :
    ∃ k, s.compiler.symbols.main.numDefinitions ≤ k ∧
      (s.run line).2.valueOf? name = m.run.2.globals[k]? ∧
      ((∀ m₁, m.Reaches m₁ → ¬ m₁.StoresGlobal k) → (s.run line).2.valueOf? name = some .null) := by
  obtain ⟨is, -, hfits, -, hdefines⟩ := hs.safe.defines hload
  obtain ⟨k, hget, hstore⟩ := hdefines.own hs.safe.compiler.nested_eq name hname
  have hnew := (hdefines.stores k hstore).2.1
  have hlt := setGlobal_fits (hfits _ hstore)
  have hrun := run_of_load_ok hload
  have hcompiler : (s.run line).2.compiler = s'.compiler := by rw [hrun, keep_compiler]
  have hvalue : (s.run line).2.valueOf? name = (s.run line).2.globals[k]? := by
    rw [valueOf?_of_get? (hcompiler ▸ hget), symbolValue?]
  refine ⟨k, hnew, ?_, fun hk => ?_⟩
  · rw [hvalue, hrun, keep_globals]
  · rw [hvalue, hs.safe.getElem?_globals_run hload hk, hs.getElem?_globals hnew hlt]

/-- **A line that consists of a name** gives what the name stands for, and leaves the session as it is. -/
theorem Reachable.run_name (hs : s.Reachable) {v : Value} (hvalue : s.valueOf? name = some v) :
    ∃ m, s.load [.expr (.identifier name)] = (.ok m, s) ∧ m.run.1 = .finished ∧
      m.run.2.lastPopped = v ∧ (s.run [.expr (.identifier name)]).2 = s := by
  rw [valueOf?] at hvalue
  obtain ⟨symbol, hget, hsymbol⟩ := Option.bind_eq_some_iff.mp hvalue
  obtain ⟨hfits, hpops, hmade, hresult⟩ := symbolValue?_result hsymbol
  have hload := load_of_compile (Compiler.compile_name hs.safe.compiler.nested_eq hget hfits)
  obtain ⟨hm, hfresh, -⟩ := hs.safe.machine hload
  have hfits' : ∀ i ∈ [symbol.loadInstruction, .pop], i.Fits := by
    intro i hi
    rcases List.mem_cons.mp hi with rfl | hi
    · exact hfits
    · rw [List.mem_singleton.mp hi]
      rfl
  obtain ⟨hfinished, hlast, hglobals, hidentity⟩ :=
    hm.run_of_load_pop hfresh rfl hpops rfl hfits' hresult
  refine ⟨_, hload, hfinished, hlast, ?_⟩
  rw [run_of_load_ok hload, keep, hglobals, hidentity, hmade]
  rfl

/-- A line that consists of a name that stands for nothing is not compiled. -/
theorem Reachable.load_name_of_none (hs : s.Reachable) (hvalue : s.valueOf? name = none) :
    s.load [.expr (.identifier name)] = (.error (.undefinedVariable name), s) := by
  have hn := hs.safe.compiler.nested_eq
  cases hget : s.compiler.symbols.main.bindings.get? name with
  | none => rw [Session.load, Compiler.compile_name_of_none hn hget]
  | some symbol =>
      -- a symbol of the main program always has a value
      rw [valueOf?_of_get? hget, symbolValue?] at hvalue
      have hvalid := (hs.safe.compiler.sound.symbols.main name symbol hget).2
      rw [Symbol.Valid] at hvalid
      cases hplace : symbol.place with
      | global =>
          simp only [hplace] at hvalue
          have hlt := hs.safe.compiler.index_lt hget hplace
          rw [Vector.getElem?_eq_getElem hlt] at hvalue
          cases hvalue
      | builtin =>
          simp only [hplace] at hvalue hvalid
          rw [Option.map_eq_none_iff.mp hvalue] at hvalid
          cases hvalid.2
      | _ =>
          simp only [hplace] at hvalid
          simp at hvalid

end Session

end ScriptLang
