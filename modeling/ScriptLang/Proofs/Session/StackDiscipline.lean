import ScriptLang.Proofs.Compiler.Captures
import ScriptLang.Proofs.Compiler.Locals
import ScriptLang.Proofs.Machine.Activations
import ScriptLang.Proofs.Session.Splitting
import ScriptLang.Value.SipHash

/-!
# Stack discipline

The code of an expression leaves one value on the stack, and the code of a statement none, wherever it stands
in a program. `Machine.Traverses a a' m m'` says that the machine executes the code that a compilation has
written between two of its states. Main statement: `Session.Reachable.stack_discipline`.
-/

namespace ScriptLang

/-! ## The code of a part -/

/-- The machine gets from the first byte of the code that a compilation has written between two states to its
end, and the call in which it does so executes no `return` on the way. -/
structure Machine.Traverses [StringHash] (a a' : Assembly) (m m' : Machine) : Prop where
  start : m.frame.ip = a.emitter.position
  code : ∃ bytes, a'.emitter.code.toList = a.emitter.code.toList ++ bytes ∧
    bytes <+: m.code.toList.drop m.frame.ip
  stays : Machine.Stays m.callers.length m m'
  callers : m'.callers.length = m.callers.length
  finish : m'.frame.ip = a'.emitter.position

namespace Machine

variable [StringHash] {m m' : Machine} {a a' : Assembly} {is : Instructions}

/-- The instructions that were written are those that the machine executes. -/
theorem Traverses.holds (h : Traverses a a' m m') (hw : Wrote a is a') (hne : is ≠ []) :
    m.code.Holds m.frame.ip is := by
  obtain ⟨bytes, hbytes, rest, hrest⟩ := h.code
  rw [hw.code, List.append_cancel_left_eq] at hbytes
  subst hbytes
  have hle : m.frame.ip ≤ m.code.toList.length := by
    by_contra hlt
    rw [List.drop_eq_nil_of_le (by omega)] at hrest
    obtain ⟨hnil, -⟩ := List.append_eq_nil_iff.mp hrest
    exact hne (Instructions.eq_nil_of_size (by rw [Instructions.size, hnil]; rfl))
  refine ⟨⟨m.code.toList.take m.frame.ip, rest, ?_, ?_⟩, hw.fits⟩
  · rw [List.append_assoc, hrest, List.take_append_drop]
  · rw [List.length_take, Nat.min_eq_left hle]

/-- **Parts**: what a part of a program leaves whose code is executed to its end. -/
theorem Safe.leaves_part {P : Part} (hm : m.Safe) (hs : a.symbols.Sound)
    (hemits : Emits P a.compiler a.emitter.position is a'.compiler) (hw : Wrote a is a') (hne : is ≠ [])
    (h : Traverses a a' m m') :
    m.Leaves P.height (a.symbols.NextLocal (P.binders false).length) m' := by
  have hbalanced := hemits.balanced 0
  rw [← h.start] at hbalanced
  have hfinish : m'.frame.ip = m.frame.ip + Instructions.size is := by
    rw [h.finish, hw.position, h.start]
  have hleaves := hm.leaves (h.holds hw hne) hne hbalanced.1 (hemits.allots hs).stores h.stays h.callers
    hfinish
  rwa [hbalanced.2, Nat.zero_add] at hleaves

end Machine

theorem Emits.expr_ne_nil {c c' : Compiler} {offset : Nat} {e : Expr} {is : Instructions}
    (h : Emits (.expr e) c offset is c') : is ≠ [] := by
  rintro rfl
  have hheight : 0 = 1 := (h.balanced 0).2
  omega

namespace Session

open Machine

section

variable [StringHash] {s s' : Session} {program : Program} {m₀ : Machine}

/-- A program that runs to its end, and does not return before, leaves nothing on the stack. -/
theorem Reachable.top_of_finished (hs : s.Reachable) (h : s.load program = (.ok m₀, s'))
    (hfinished : m₀.run.1 = .finished) (hmain : ∀ m₁, m₀.Reaches m₁ → ¬ m₁.ReturnsFromMain) :
    m₀.run.2.top = 0 ∧ m₀.run.2.callers = [] := by
  obtain ⟨hm, hfresh, -⟩ := hs.safe.machine h
  obtain ⟨b, c', hb, hmeq, -⟩ := load_eq_ok h
  obtain ⟨is, hemits, hfits, hbeq⟩ := Compiler.compile_emits hb
  obtain ⟨m₁, ⟨n, hsteps⟩, hstops⟩ := hm.run_stops hfresh
  obtain ⟨hm₁, hb₁⟩ := hm.steps hsteps
  have hdecodes : m₁.bytecode.code.Decodes is := by
    rw [hb₁, hmeq, hbeq]
    exact Code.decodes_toCode hfits
  obtain ⟨height, hrunning⟩ := hm.running_of_steps ⟨0, hs.safe.running h⟩ hmain hsteps
  rw [hfinished] at hstops
  cases hstops with
  | finished hstep =>
      have hcases := hm₁.step_cases
      rw [hstep] at hcases
      cases hcases with
      | finished hend hcallers hclosure =>
          obtain ⟨htop, -⟩ := hrunning.top_of_finished hdecodes hclosure hcallers hend
          exact ⟨htop.trans (hemits.balanced 0).2, hcallers⟩

/-- **Stack discipline**: let a call in a run of a program get from the first byte of the code of an
expression to its end, without having returned. Then there is one value more on the stack, the calls are the
same, and of the slots below only those have changed that belong to names which the expression binds in the
function at hand. The code of a statement leaves the stack as high as it was. A program that runs to its end,
and does not return before, has left all calls and nothing on the stack. -/
theorem Reachable.stack_discipline (hs : s.Reachable) (h : s.load program = (.ok m₀, s')) :
    (∀ (e : Expr) (a a' : Assembly) (scopes : List (List String)) (m m' : Machine),
      a.Visited scopes → e.compile a = .ok () a' → m₀.Reaches m → Traverses a a' m m' →
        m.Leaves 1 (a.symbols.NextLocal (e.binders false).length) m') ∧
    (∀ (stmt : Stmt) (a a' : Assembly) (scopes : List (List String)) (m m' : Machine),
      a.Visited scopes → stmt.compile a = .ok () a' → m₀.Reaches m → Traverses a a' m m' →
        m.Leaves 0 (a.symbols.NextLocal (stmt.binders false).length) m') ∧
    (m₀.run.1 = .finished → (∀ m₁, m₀.Reaches m₁ → ¬ m₁.ReturnsFromMain) →
      m₀.run.2.stackTop? = none ∧ m₀.run.2.callers = []) := by
  have hm := (hs.safe.machine h).1
  refine ⟨?_, ?_, ?_⟩
  · rintro e a a' scopes m m' ha hcompile ⟨n, hsteps⟩ htraverses
    obtain ⟨is, hemits, hw⟩ := Expr.compile_writes e hcompile
    exact (hm.steps hsteps).1.leaves_part ha.scoped.1 hemits hw hemits.expr_ne_nil htraverses
  · rintro stmt a a' scopes m m' ha hcompile ⟨n, hsteps⟩ htraverses
    obtain ⟨is, hemits, hw⟩ := (Stmt.compile_writes stmt hcompile).writes
    exact (hm.steps hsteps).1.leaves_part ha.scoped.1 hemits hw hemits.stmt_ne_nil htraverses
  · intro hfinished hmain
    obtain ⟨htop, hcallers⟩ := hs.top_of_finished h hfinished hmain
    exact ⟨if_pos htop, hcallers⟩

end

/-- An expression that binds a name and returns on one of its ways. -/
def returningBranch : Expr :=
  .if (.identifier "x") [.let "y" (.identifier "x"), .expr (.identifier "y")] (some [.return none])

/-- Its code, if another value is computed before. -/
def returningBranchCode : Instructions :=
  [.getLocal 0, .jumpNotTruthy 17, .getLocal 0, .setLocal 1, .getLocal 1, .jump 19, .return, .null]

/-- A program that calls a function with this expression. -/
def returningBranchProgram : Program :=
  [.expr (.call (.function none ["x"] [.expr (.array [.integer 1, returningBranch])]) [.boolean true])]

open CompileM in
theorem returningBranch_compile : ∃ a a' : Assembly, a.Visited [["x"]] ∧
    returningBranch.compile a = .ok () a' ∧
    a.emitter.code.toList = Instructions.encode [.constant 0] ∧
    a'.emitter.code.toList = Instructions.encode [.constant 0] ++ Instructions.encode returningBranchCode := by
  have hcode : (do
      beginFunction none ["x"]
      (Expr.integer 1).compile
      let a ← get
      returningBranch.compile
      let a' ← get
      return (a.emitter.code.toList, a'.emitter.code.toList) : CompileM _).run' (Assembly.resume .initial) =
        some (Instructions.encode [.constant 0],
          Instructions.encode [.constant 0] ++ Instructions.encode returningBranchCode) := by
    decide +kernel
  obtain ⟨_, hrun⟩ := exists_of_run' hcode
  obtain ⟨_, _, hbegin, hrun⟩ := bind_eq_ok.mp hrun
  obtain ⟨_, a, hfirst, hrun⟩ := bind_eq_ok.mp hrun
  obtain ⟨_, _, hget, hrun⟩ := bind_eq_ok.mp hrun
  cases get_eq_ok.mp hget
  obtain ⟨_, a', hcompile, hrun⟩ := bind_eq_ok.mp hrun
  obtain ⟨_, _, hget, hrun⟩ := bind_eq_ok.mp hrun
  cases get_eq_ok.mp hget
  obtain ⟨ha, ha'⟩ := Prod.mk.inj (Prod.mk.inj (pure_eq_ok.mp hrun)).1
  exact ⟨a, a', ((Assembly.Visited.start .initial).function hbegin).expr hfirst, hcompile, ha, ha'⟩

theorem returningBranchProgram_discipline : ∃ m₀ s' a a' m m',
    load {} returningBranchProgram = (.ok m₀, s') ∧ a.Visited [["x"]] ∧
      returningBranch.compile a = .ok () a' ∧ m₀.Reaches m ∧ Traverses a a' m m' ∧
      m.Leaves 1 (a.symbols.NextLocal 1) m' ∧
      m₀.run.1 = .finished ∧ (∀ m₁, m₀.Reaches m₁ → ¬ m₁.ReturnsFromMain) ∧
      m₀.run.2.stackTop? = none ∧ m₀.run.2.callers = [] := by
  have hok : (load {} returningBranchProgram).1.isOk = true := by decide +kernel
  obtain ⟨m₀, s', h⟩ := exists_of_isOk hok
  obtain ⟨hexpr, -, hprogram⟩ := Reachable.stack_discipline .start h
  obtain ⟨a, a', hvisited, hcompile, ha, ha'⟩ := returningBranch_compile
  -- the machine is at the expression after four steps, and at its end after six more
  have hsteps : ((load {} returningBranchProgram).1.toOption.bind (stay? 0 4)).bind (fun m =>
      (stay? 1 6 m).map fun m' =>
        ((Instructions.encode returningBranchCode).isPrefixOf (m.code.toList.drop m.frame.ip),
          m.frame.ip, m.callers.length, m'.frame.ip, m'.callers.length)) =
      some (true, 3, 1, 19, 1) := by
    decide +kernel
  rw [h] at hsteps
  obtain ⟨m, hm, hsteps⟩ := Option.bind_eq_some_iff.mp hsteps
  obtain ⟨m', hm', hends⟩ := Option.map_eq_some_iff.mp hsteps
  simp only [Prod.mk.injEq] at hends
  obtain ⟨hcode, hip, hcallers, hip', hcallers'⟩ := hends
  have hreach : m₀.Reaches m := (stays_of_stay? hm).reaches
  have htraverses : Traverses a a' m m' := by
    refine ⟨?_, ⟨_, ha'.trans (congrArg (· ++ _) ha.symm), List.isPrefixOf_iff_prefix.mp hcode⟩, ?_, ?_, ?_⟩
    · rw [hip, Emitter.position, ← Array.length_toList, ha]
      rfl
    · rw [hcallers]
      exact stays_of_stay? hm'
    · rw [hcallers, hcallers']
    · rw [hip', Emitter.position, ← Array.length_toList, ha']
      rfl
  have hends : (load {} returningBranchProgram).1.toOption.any (endsWithin 4) = true := by decide +kernel
  have hfinished : m₀.run.1 = .finished := by
    rw [h] at hends
    obtain ⟨hm, hfresh, -⟩ := Reachable.start.safe.machine h
    exact hm.run_fst_of_endsWithin hfresh hends
  have hdecodes : m₀.bytecode.code.Decodes [.closure 1 0, .true, .call 1, .pop] := by
    have hmain : (load {} returningBranchProgram).1.toOption.map (·.bytecode.code) =
        some (Instructions.toCode [.closure 1 0, .true, .call 1, .pop]) := by
      decide +kernel
    rw [h] at hmain
    have hcode := Option.some.inj hmain
    rw [show m₀.bytecode.code = _ from hcode]
    exact Code.decodes_toCode (by simp only [Instruction.Fits]; decide)
  have hmain : ∀ m₁, m₀.Reaches m₁ → ¬ m₁.ReturnsFromMain := fun m₁ =>
    (Reachable.start.safe.machine h).1.not_returnsFromMain hdecodes (by decide)
  obtain ⟨hstack, hframes⟩ := hprogram hfinished hmain
  exact ⟨m₀, s', a, a', m, m', h, hvisited, hcompile, hreach, htraverses,
    hexpr _ _ _ _ _ _ hvisited hcompile hreach htraverses, hfinished, hmain, hstack, hframes⟩

end Session

end ScriptLang
