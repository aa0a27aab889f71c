import Mathlib.Data.List.Perm.Subperm
import ScriptLang.Proofs.Refinement.Simulation
import ScriptLang.Proofs.Session
import ScriptLang.Proofs.Syntax.Parser
import ScriptLang.Value.SipHash

/-!
# Programs on both engines

The two engines agree on every program whose names are unique and whose comparisons have plain operands:
what the evaluator computes, the machine computes from the compiled code. Main statement:
`Program.Comparable.run_corresponds`.
-/

namespace ScriptLang

open Machine (Moves Works Returns)
open Symbols (Knows Adds Found Clean)

/-! ## Programs that can be compared -/

/-- Names are unique, none is that of a built-in function, comparisons have plain operands, and function
literals record the names that a `let` gives them. -/
structure Program.Comparable (program : Program) : Prop where
  unique : (Stmt.bindersAll true program).Nodup
  clean : ∀ x ∈ Stmt.bindersAll true program, Builtin.ofName? x = none
  plain : Stmt.arePlain false program = true
  named : Stmt.areNamed program = true

/-- What the two ways have in common in which programs are compared: names are unique, none is that of a
built-in function, and function literals record the names that a `let` gives them. -/
structure Program.Admissible (ordered : Bool) (program : Program) : Prop where
  unique : (Stmt.bindersAll true program).Nodup
  clean : ∀ x ∈ Stmt.bindersAll true program, Builtin.ofName? x = none
  allowed : (Part.stmts program).isAllowed ordered = true
  named : Stmt.areNamed program = true

theorem Program.Comparable.admissible {program : Program} (h : program.Comparable) :
    program.Admissible true := ⟨h.unique, h.clean, h.plain, h.named⟩

/-- What the parser yields can be compared if its names are unique and its comparisons are plain. -/
theorem Program.Comparable.of_ofTokens {tokens : List Token} {program : Program}
    (hparsed : Program.ofTokens tokens = .ok program) (hunique : (Stmt.bindersAll true program).Nodup)
    (hclean : ∀ x ∈ Stmt.bindersAll true program, Builtin.ofName? x = none)
    (hplain : Stmt.arePlain false program = true) : program.Comparable :=
  ⟨hunique, hclean, hplain, Program.areNamed_of_ofTokens hparsed⟩

/-- A `return` of the program itself is executed. -/
def Evaluator.Returns [StringHash] (program : Program) (st : Evaluator) : Prop :=
  ∃ v st', EvalM.evalBlock (EvalM.callFunction (maxCallDepth + 1)) 0 .null program st =
    .error (.return v) st'

/-! ## The beginning -/

section

variable {program : Program} {c' : Compiler} {is : Instructions} {ordered : Bool}

/-- What is known of a program that has been compiled. -/
def Plan.of (program : Program) (c' : Compiler) (ordered : Bool) : Plan where
  globals := Stmt.bindersAll false program
  table := c'.symbols.main
  constants := c'.constants
  ordered := ordered

/-- At the beginning the names of the main program are still to be bound. -/
def Agenda.start (program : Program) : Agenda := fun l x => l = 0 ∧ x ∈ Stmt.bindersAll false program

theorem Program.Admissible.unknown (h : program.Admissible ordered) :
    Unknown (Stmt.bindersAll true program) Compiler.initial.symbols :=
  ⟨h.unique, fun x hx => Compiler.initial_not_knows (h.clean x hx)⟩

theorem Program.Admissible.adds (h : program.Admissible ordered)
    (hemits : Emits (.stmts program) .initial 0 is c') :
    Adds Compiler.initial.symbols (Stmt.bindersAll false program) c'.symbols :=
  hemits.adds_unnamed Compiler.initial_sound h.unknown h.named

theorem Program.Admissible.valid (h : program.Admissible ordered)
    (hemits : Emits (.stmts program) .initial 0 is c') : (Plan.of program c' ordered).Valid where
  globals := by
    intro x symbol hget hplace
    have hadds := h.adds hemits
    have hnested : c'.symbols.nested = false :=
      (hemits.grows Compiler.initial_sound).2.symbols.nested_eq.trans Compiler.initial_nested
    have hget' : c'.symbols.inner.bindings.get? x = some symbol := by
      rw [← Symbols.main_of_nested hnested]
      exact hget
    rcases hadds.new x symbol hget' with hold | ⟨hown, -⟩ | ⟨hfree, -⟩
    · rw [(Compiler.initial_get? hold).1] at hplace
      cases hplace
    · exact hown
    · rw [hfree] at hplace
      cases hplace
  builtins := fun x hx => h.clean x ((Stmt.ownAll_sublist program).subset hx)

/-- The whole program is what there is to execute. -/
theorem Program.Admissible.task (h : program.Admissible ordered)
    (hemits : Emits (.stmts program) .initial 0 is c') (hfits : ∀ i ∈ is, i.Fits) :
    Task (Plan.of program c' ordered) none 0 [] (Instructions.toCode is) (.stmts program) (.start program)
      .initial 0 is c' where
  sound := Compiler.initial_sound
  bounded := ⟨⟨fun _ _ hget => hget, List.prefix_refl _⟩, nofun⟩
  fresh := by
    have hsub := (Stmt.ownAll_sublist program).subset
    refine ⟨h.unknown, Compiler.initial_clean, hsub, fun x hx => ⟨rfl, hx⟩, ?_, nofun,
      fun x _ hx => hx.2, ?_⟩
    · exact fun x hx => h.unknown.unknown x (hsub hx.2)
    · exact fun x hx => ⟨h.clean x hx, fun hmem => ⟨rfl, hmem⟩⟩
  within := nofun
  emits := hemits
  holds := Code.holds_toCode hfits
  allowed := h.allowed
  named := h.named

/-- Nothing is bound at the beginning. -/
theorem bound?_start (l : Nat) (x : String) : bound? ({} : Evaluator).scopes l x = none := by
  cases l with
  | zero => rfl
  | succ l => rfl

theorem Agree.start (program : Program) (c' : Compiler) (ordered : Bool) (code : Code) :
    Agree (Plan.of program c' ordered) [] (.start program) none .initial 0 [] {}
      { bytecode := ⟨code, c'.constants⟩ } where
  births := by
    refine ⟨nofun, nofun, ⟨List.nodup_nil, List.nodup_nil⟩, ?_⟩
    rintro l x ⟨rfl, -⟩
    exact Nat.zero_lt_one
  values := by
    refine ⟨?_, fun _ => .nil, nofun, rfl⟩
    intro x v hbound
    rw [bound?_start] at hbound
    cases hbound
  active := by
    refine ⟨Compiler.initial_sound, ?_, ?_, nofun, ?_, Nat.le_refl _, Nat.zero_le _, rfl⟩
    · exact ⟨rfl, rfl⟩
    · intro x v hbound
      rw [bound?_start] at hbound
      cases hbound
    · exact .main Compiler.initial_nested rfl rfl rfl rfl rfl
  tidy := by
    intro x v hbound
    rw [bound?_start] at hbound
    cases hbound
  known := by
    rintro - x hx
    right
    rw [Compiler.initial_tables] at hx
    obtain ⟨t, ht, symbol, hget⟩ := hx
    obtain rfl := List.mem_singleton.mp ht
    exact (Compiler.initial_get? hget).2

/-! ## The end -/

/-- All functions of a run and all its closures have been made together, two by two, by evaluations of the
same literals: the code of a closure is that of the body of its function, and what it captured is what the
function finds in the scopes around it. What has been put out corresponds. -/
structure World.Corresponds (W : World) (st : Evaluator) (m : Machine) : Prop where
  functions : (W.map Birth.functionId).Perm (List.range st.functionsMade)
  closures : (W.map Birth.closureId).Perm (List.range m.nextIdentity)
  literals : ∀ b ∈ W, ∃ around : Symbols, b.opened.symbols = around.openFunction b.name b.parameters ∧
    Emits (.body b.body) b.opened 0 b.code b.closed
  captured : ∀ b ∈ W, ∀ (k : Nat) (symbol : Symbol), b.closed.symbols.inner.captures[k]? = some symbol →
    ∃ w, b.free[k]? = some w ∧
      ∀ v, valueAt st.scopes b.levels symbol.name = some v → Value.Matches W v w
  output : Builtin.OutputMatches W st.output m.output

/-- Different numbers that are all below their count are all numbers below it. -/
theorem perm_range_of_lt {ks : List Nat} {n : Nat} (hnodup : ks.Nodup) (hlt : ∀ k ∈ ks, k < n)
    (hlength : ks.length = n) : ks.Perm (List.range n) := by
  apply (List.subperm_of_subset hnodup fun k hk => List.mem_range.mpr (hlt k hk)).perm_of_length_le
  exact Nat.le_of_eq (by rw [List.length_range, hlength])

theorem Births.corresponds {p : Plan} {W : World} {agenda : Agenda} {st : Evaluator} {m₀ m : Machine}
    (hordered : p.ordered = true) (hbirths : Births p W agenda st.scopes) (hvalues : Values p W st m)
    (hgrown : World.Grown [] W {} st m₀ m) (hstart : m₀.nextIdentity = 0) : W.Corresponds st m where
  functions := by
    refine perm_range_of_lt hbirths.oneToOne.functions ?_ ?_
    · intro k hk
      obtain ⟨b, hb, rfl⟩ := List.mem_map.mp hk
      rcases hgrown.made b hb with hold | ⟨-, hlt⟩
      · exact absurd hold List.not_mem_nil
      · exact hlt
    · obtain ⟨new, rfl, hmade, -⟩ := hgrown
      rw [List.length_map, List.append_nil, hmade]
      exact (Nat.zero_add _).symm
  closures := by
    refine perm_range_of_lt hbirths.oneToOne.closures ?_ ?_
    · intro k hk
      obtain ⟨b, hb, rfl⟩ := List.mem_map.mp hk
      exact hvalues.closures b hb
    · obtain ⟨new, rfl, -, hidentity, -⟩ := hgrown
      rw [List.length_map, List.append_nil, hidentity, hstart, Nat.zero_add]
  literals := by
    intro b hb
    have hcompiled := hbirths.compiled b hb
    obtain ⟨around, hopened⟩ := hcompiled.opened
    exact ⟨around, hopened, hcompiled.emits⟩
  captured := fun b hb => (hbirths.alive b hb).captured
  output := hvalues.output hordered

theorem World.Corresponds.oneToOne {W : World} {st : Evaluator} {m : Machine} (h : W.Corresponds st m) :
    W.OneToOne :=
  ⟨h.functions.nodup_iff.mpr List.nodup_range, h.closures.nodup_iff.mpr List.nodup_range⟩

variable [StringHash]

/-- A machine at the end of its code stops there. -/
theorem Machine.stops_of_size_le {m : Machine} (h : m.code.size ≤ m.frame.ip) : m.Stops .finished m :=
  .finished (MachineM.step_finished (Code.decode_of_size_le h))

/-- The machine follows the evaluator to the end of a program. -/
theorem Program.Comparable.follows {program : Program} {is : Instructions} {c' : Compiler} {o : Outcome}
    {st : Evaluator} (hprogram : program.Comparable) (heval : Evaluates (.stmts program) 0 {} o st)
    (hemits : Emits (.stmts program) .initial 0 is c') (hfits : ∀ i ∈ is, i.Fits) :
    Machine.Overflows { bytecode := ⟨Instructions.toCode is, c'.constants⟩ } ∨
      ∃ W m, Machine.Reaches { bytecode := ⟨Instructions.toCode is, c'.constants⟩ } m ∧
        m.Stops .finished m ∧ W.Corresponds st m ∧
        match o with
        | .values vs => ∀ v, vs = [v] → Value.Matches W v m.lastPopped
        | .returned v => Value.Matches W v m.lastPopped := by
  have hcode : Machine.code { bytecode := ⟨Instructions.toCode is, c'.constants⟩ } =
      Instructions.toCode is := rfl
  have hsize := Instructions.size_toCode is
  have hadmissible := hprogram.admissible
  have hfollows := heval.simulates (hadmissible.valid hemits) Nat.zero_lt_one (hadmissible.task hemits hfits)
    (fun _ hb => absurd hb List.not_mem_nil) (Agree.start program c' true (Instructions.toCode is))
  rcases hfollows with hover | hfollows
  · exact .inl hover
  cases o with
  | values vs =>
      obtain ⟨W, m, hcont⟩ := hfollows
      refine .inr ⟨W, m, hcont.reaches, ?_, ?_, ?_⟩
      · apply Machine.stops_of_size_le
        rw [hcont.code_eq, hcode, hcont.moves.ip_eq, hsize]
        exact Nat.le_of_eq (Nat.zero_add _).symm
      · exact hcont.agree.births.corresponds rfl hcont.agree.values hcont.grown rfl
      · rintro v rfl
        have hvalues := hcont.values
        rcases hvalues with _ | ⟨hmatch, _⟩
        -- the value is still in the slot above the stack, where the last `pop` has left it
        rw [Machine.lastPopped, hcont.top]
        exact hmatch
  | returned v =>
      obtain ⟨W, m, hleaves⟩ := hfollows
      obtain ⟨w, hreturns, hmatch⟩ := hleaves.returns
      obtain ⟨hcallers, hframe, hlast⟩ := hreturns.ended rfl
      refine .inr ⟨W, m, hreturns.reaches, ?_, ?_, ?_⟩
      · apply Machine.stops_of_size_le
        rw [Machine.code, hframe, hreturns.bytecode]
        exact Nat.le_refl _
      · exact hleaves.births.corresponds rfl hleaves.values hleaves.grown rfl
      · rw [hlast]
        exact hmatch

/-- An evaluation of a program without an error. -/
theorem Evaluator.evaluate_cases {program : Program} {st st' : Evaluator} {v : Value}
    (h : evaluate program st = (v, st')) (hv : v.isError = false) :
    (∃ vs, Evaluates (.stmts program) 0 st (.values vs) st' ∧
        (Stmt.endsWithExpr program = true → vs = [v]) ∧ ¬ Returns program st) ∨
      Evaluates (.stmts program) 0 st (.returned v) st' := by
  have hyields := run_evaluates program st
  have hreturns : Returns program st ↔ ∃ v st', EvalM.evalBlock (EvalM.callFunction (maxCallDepth + 1)) 0
    .null program st = .error (.return v) st' := Iff.rfl
  rw [evaluate, run] at h
  rw [hreturns]
  cases hr : EvalM.evalBlock (EvalM.callFunction (maxCallDepth + 1)) 0 .null program st with
  | ok v₁ st₁ =>
      rw [hr] at hyields h
      cases h
      obtain ⟨vs, hvs, heval⟩ := hyields
      refine .inl ⟨vs, heval, hvs, ?_⟩
      rintro ⟨v₂, st₂, heq⟩
      cases heq
  | error signal st₁ =>
      rw [hr] at hyields h
      cases signal with
      | «return» v₁ =>
          cases h
          exact .inr hyields
      | error e =>
          cases h
          cases hv

/-- The machine of a program that is run on its own. -/
theorem Compiler.compile_safe {program : Program} {b : Bytecode} {c' : Compiler}
    (h : Compiler.initial.compile program = (.ok b, c')) :
    Machine.Safe { bytecode := b } ∧ Machine.Fresh { bytecode := b } := by
  obtain ⟨hsafe, hfresh, -⟩ := Session.Safe.machine Session.Reachable.start.safe
    (Session.load_of_compile (s := {}) h)
  exact ⟨hsafe, hfresh⟩

/-! ## Main statement -/

/-- **Compilation preserves meaning**: if the evaluator has a value for a program, and the machine has
stack enough, then the machine runs the compiled program to its end. The functions and closures that have
been made correspond one to one, and equality of them is the same. What has been put out corresponds, and
if the program ends with an expression or returns, so does the value. -/
theorem Program.Comparable.run_corresponds {program : Program} {v : Value} {st : Evaluator} {b : Bytecode}
    {c' : Compiler} (hprogram : program.Comparable) (heval : Evaluator.evaluate program {} = (v, st))
    (hv : v.isError = false) (hcompile : Compiler.initial.compile program = (.ok b, c'))
    (hstack : (Machine.run { bytecode := b }).1 ≠ .failed .stackOverflow) :
    ∃ m W, Machine.run { bytecode := b } = (.finished, m) ∧ World.Corresponds W st m ∧
      (∀ v₁ w₁ v₂ w₂, Value.Matches W v₁ w₁ → Value.Matches W v₂ w₂ →
        Value.same v₁ v₂ = Value.same w₁ w₂) ∧
      (Stmt.endsWithExpr program = true ∨ Evaluator.Returns program {} →
        Value.Matches W v m.lastPopped) := by
  obtain ⟨hsafe, hfresh⟩ := Compiler.compile_safe hcompile
  obtain ⟨m₁, ⟨_, hsteps⟩, hstops⟩ := hsafe.run_stops hfresh
  obtain ⟨is, hemits, hfits, rfl⟩ := Compiler.compile_emits hcompile
  have hoverflows : ¬ Machine.Overflows { bytecode := ⟨Instructions.toCode is, c'.constants⟩ } := by
    rintro ⟨m₂, m₃, ⟨_, hsteps₂⟩, hstops₂⟩
    exact hstack (hsteps.unique hstops hsteps₂ hstops₂).1
  have hend : ∃ W m, Machine.Reaches { bytecode := ⟨Instructions.toCode is, c'.constants⟩ } m ∧
      m.Stops .finished m ∧ World.Corresponds W st m ∧
      (Stmt.endsWithExpr program = true ∨ Evaluator.Returns program {} →
        Value.Matches W v m.lastPopped) := by
    rcases Evaluator.evaluate_cases heval hv with ⟨vs, heval, hvs, hnot⟩ | heval
    · obtain ⟨W, m, hreaches, hstops, hcorresponds, hlast⟩ :=
        (hprogram.follows heval hemits hfits).resolve_left hoverflows
      refine ⟨W, m, hreaches, hstops, hcorresponds, ?_⟩
      rintro (hends | hreturns)
      · exact hlast v (hvs hends)
      · exact absurd hreturns hnot
    · obtain ⟨W, m, hreaches, hstops, hcorresponds, hlast⟩ :=
        (hprogram.follows heval hemits hfits).resolve_left hoverflows
      exact ⟨W, m, hreaches, hstops, hcorresponds, fun _ => hlast⟩
  obtain ⟨W, m, ⟨_, hsteps₂⟩, hstops₂, hcorresponds, hlast⟩ := hend
  obtain ⟨hending, hmachine⟩ := hsteps.unique hstops hsteps₂ hstops₂
  exact ⟨m, W, Prod.ext hending hmachine, hcorresponds,
    fun _ _ _ _ h₁ h₂ => h₁.same_eq hcorresponds.oneToOne h₂, hlast⟩

end

/-- A program that makes a closure in a call, prints what that one returns, and branches. -/
def adderProgram : Program :=
  [.expr (.call (.identifier "puts") [.call
     (.function none ["start"]
       [.let "add" (.function (some "add") ["step"]
          [.expr (.binary (.identifier "start") .plus (.identifier "step"))]),
        .expr (.call (.identifier "add") [.integer 2])])
     [.integer 40]]),
   .expr (.if (.binary (.integer 1) .lessThan (.integer 2)) [.expr (.string "less")]
     (some [.let "more" (.integer 0), .expr (.identifier "more")]))]

theorem adderProgram_run_corresponds : ∃ v st b c', adderProgram.Comparable ∧
    Evaluator.evaluate adderProgram {} = (v, st) ∧ v.isError = false ∧
    Compiler.initial.compile adderProgram = (.ok b, c') ∧
    (Machine.run { bytecode := b }).1 ≠ .failed .stackOverflow ∧
    ∃ m W, Machine.run { bytecode := b } = (.finished, m) ∧ World.Corresponds W st m ∧
      (∀ v₁ w₁ v₂ w₂, Value.Matches W v₁ w₁ → Value.Matches W v₂ w₂ →
        Value.same v₁ v₂ = Value.same w₁ w₂) ∧
      (Stmt.endsWithExpr adderProgram = true ∨ Evaluator.Returns adderProgram {} →
        Value.Matches W v m.lastPopped) := by
  have hprogram : adderProgram.Comparable :=
    ⟨by decide +kernel, by decide +kernel, by decide +kernel, by decide +kernel⟩
  have hv : (Evaluator.evaluate adderProgram {}).1.isError = false := by decide +kernel
  have hok : (Compiler.initial.compile adderProgram).1.isOk = true := by decide +kernel
  have hends : (Compiler.initial.compile adderProgram).1.toOption.any
      (fun b => Machine.endsWithin 5 { bytecode := b }) = true := by decide +kernel
  obtain ⟨b, c', hcompile⟩ := Compiler.exists_of_isOk hok
  rw [hcompile] at hends
  obtain ⟨hsafe, hfresh⟩ := Compiler.compile_safe hcompile
  have hstack : (Machine.run { bytecode := b }).1 ≠ .failed .stackOverflow := by
    rw [hsafe.run_fst_of_endsWithin hfresh hends]
    exact Ending.noConfusion
  exact ⟨_, _, b, c', hprogram, rfl, hv, hcompile, hstack,
    hprogram.run_corresponds rfl hv hcompile hstack⟩

end ScriptLang
