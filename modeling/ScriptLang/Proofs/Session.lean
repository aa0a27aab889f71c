import ScriptLang.Session
import ScriptLang.Proofs.Machine.Recursion
import ScriptLang.Proofs.Machine.Termination
import ScriptLang.Value.SipHash

/-!
# Sessions of compiled programs

What holds of every program that a session runs, whatever programs came before it: those that could not be
compiled, those that failed, and those that left closures in the globals. Main statements:

* `Session.Reachable.run_safe` — compiled code never goes wrong;
* `Session.Reachable.run_terminates` — it always comes to an end.
-/

namespace ScriptLang

/-! ## Reachable sessions

A session keeps the compiler, the globals and the number of closures from line to line. Whatever a line comes
to, the next one starts from a compiler that is sound and from globals that are safe. -/

namespace Session

/-- The sessions that some programs lead to. A program may also be compiled without being run. -/
inductive Reachable [StringHash] : Session → Prop where
  | start : Reachable {}
  | load {s : Session} (program : Program) : Reachable s → Reachable (s.load program).2
  | run {s : Session} (program : Program) : Reachable s → Reachable (s.run program).2

@[simp] theorem keep_compiler (s : Session) (m : Machine) : (s.keep m).compiler = s.compiler := rfl

@[simp] theorem keep_globals (s : Session) (m : Machine) : (s.keep m).globals = m.globals := rfl

@[simp] theorem keep_nextIdentity (s : Session) (m : Machine) :
    (s.keep m).nextIdentity = m.nextIdentity := rfl

/-- Loading a program changes the compiler alone. -/
theorem load_snd (s : Session) (program : Program) :
    (s.load program).2 = { s with compiler := (s.compiler.compile program).2 } := by
  rw [load]
  rcases s.compiler.compile program with ⟨result, compiler⟩
  cases result <;> rfl

/-- What a session that has compiled a program runs. -/
theorem load_eq_ok {s s' : Session} {program : Program} {m : Machine}
    (h : s.load program = (.ok m, s')) :
    ∃ b c', s.compiler.compile program = (.ok b, c') ∧
      m = { bytecode := b, globals := s.globals, nextIdentity := s.nextIdentity } ∧
      s' = { s with compiler := c' } := by
  rw [load] at h
  rcases hcompile : s.compiler.compile program with ⟨result, compiler⟩
  cases result with
  | error e => simp [hcompile] at h
  | ok b =>
      simp only [hcompile, Prod.mk.injEq, Except.ok.injEq] at h
      exact ⟨b, compiler, rfl, h.1.symm, h.2.symm⟩

/-- A program that cannot be compiled leaves nothing. -/
theorem load_eq_error {s s' : Session} {program : Program} {e : CompileError}
    (h : s.load program = (.error e, s')) : s' = s := by
  rw [load] at h
  rcases hcompile : s.compiler.compile program with ⟨result, compiler⟩
  cases result with
  | ok b => simp [hcompile] at h
  | error e' =>
      simp only [hcompile, Prod.mk.injEq] at h
      rw [← h.2, Compiler.compile_error hcompile]

/-- A program that compiles is loaded into a new machine, with the globals of the session. -/
theorem load_of_compile {s : Session} {program : Program} {b : Bytecode} {c' : Compiler}
    (h : s.compiler.compile program = (.ok b, c')) :
    s.load program = (.ok { bytecode := b, globals := s.globals, nextIdentity := s.nextIdentity },
      { s with compiler := c' }) := by
  rw [load, h]

/-- What is left in the globals of a session is made of functions that its compiler knows. -/
structure Safe (s : Session) : Prop where
  compiler : s.compiler.Reachable
  globals : SafeSlots s.compiler.constants s.globals

/-- Constants are only added. -/
theorem compile_constants {c : Compiler} (hc : c.Reachable) (program : Program) :
    c.constants.toList <+: (c.compile program).2.constants.toList := by
  rcases h : c.compile program with ⟨result, c'⟩
  cases result with
  | error e =>
      have hc' := Compiler.compile_error h
      subst hc'
      exact List.prefix_refl _
  | ok b =>
      obtain ⟨is, hemits, -, -⟩ := Compiler.compile_emits h
      exact (hemits.grows hc.sound.symbols).2.constants

/-- Loading keeps a session safe, whether or not the program compiles. -/
theorem Safe.load {s : Session} (h : s.Safe) (program : Program) : (s.load program).2.Safe := by
  rw [load_snd]
  exact ⟨.compile program h.compiler, h.globals.mono (compile_constants h.compiler program)⟩

/-- A machine that has been loaded is at the first instruction of its program. -/
theorem Safe.running {s s' : Session} {program : Program} {m : Machine} (h : s.Safe)
    (hload : s.load program = (.ok m, s')) : m.Running 0 := by
  obtain ⟨b, c', hcompile, rfl, rfl⟩ := load_eq_ok hload
  obtain ⟨is, hemits, hfits, rfl⟩ := Compiler.compile_emits hcompile
  have hroutine := hemits.routine h.compiler.sound.symbols h.compiler.nested_eq hfits
  refine ⟨⟨is, is, hroutine, ⟨[], rfl, rfl, rfl⟩, ?_, ?_⟩, rfl, Nat.zero_le _, ⟨rfl, rfl⟩, ?_⟩
  · intro hsome
    cases hsome
  · intro closure hclosure
    cases hclosure
  · show 0 + 1 ≤ maxFrames
    decide

/-- **Loading** a program makes a safe machine. -/
theorem Safe.machine {s s' : Session} {program : Program} {m : Machine} (h : s.Safe)
    (hload : s.load program = (.ok m, s')) :
    m.Safe ∧ m.Fresh ∧ s'.Safe ∧ m.bytecode.constants = s'.compiler.constants := by
  have hs' := h.load program
  rw [hload] at hs'
  have hrunning := h.running hload
  obtain ⟨b, c', hcompile, rfl, rfl⟩ := load_eq_ok hload
  obtain ⟨is, hemits, -, rfl⟩ := Compiler.compile_emits hcompile
  have hc' := h.compiler.sound.emits hemits
  exact ⟨⟨⟨.replicate _ _, hs'.globals, hc'.pool⟩, .inl ⟨0, hrunning⟩⟩, ⟨rfl, rfl⟩, hs', rfl⟩

section

variable [StringHash]

/-- A line that compiles is run, and the session keeps what the machine leaves. -/
theorem run_of_load_ok {s s' : Session} {program : Program} {m : Machine}
    (h : s.load program = (.ok m, s')) : s.run program = (.ok m.run, s'.keep m.run.2) := by
  simp only [run, h]

theorem run_of_load_error {s s' : Session} {program : Program} {e : CompileError}
    (h : s.load program = (.error e, s')) : s.run program = (.error e, s') := by
  simp only [run, h]

theorem Safe.run {s : Session} (h : s.Safe) (program : Program) : (s.run program).2.Safe := by
  have hs' := h.load program
  rcases hload : s.load program with ⟨result, s'⟩
  rw [hload] at hs'
  cases result with
  | error e =>
      rw [run_of_load_error hload]
      exact hs'
  | ok m =>
      obtain ⟨hm, hfresh, -, hconstants⟩ := h.machine hload
      obtain ⟨m₁, ⟨n, hsteps⟩, hstops⟩ := hm.run_stops hfresh
      obtain ⟨hm₁, hb⟩ := hm.steps hsteps
      rw [run_of_load_ok hload]
      generalize m.run = ended at hstops
      have hglobals := (hm₁.stops hstops).2
      rw [hb, hconstants] at hglobals
      exact ⟨hs'.compiler, hglobals⟩

theorem Reachable.safe {s : Session} (h : s.Reachable) : s.Safe := by
  induction h with
  | start => exact ⟨.initial, .replicate _ _⟩
  | load program _ ih => exact ih.load program
  | run program _ ih => exact ih.run program

/-! ## Main statements -/

/-- **Safety**: a program that a session has compiled runs to its end, or it fails with an error that the
language has a meaning for. No state of the run refers to what does not exist: the stack stays within its
bounds, below the frame of a call there is the slot of its closure, and such a frame always finds another
instruction. -/
theorem Reachable.run_safe {s s' : Session} {program : Program} {m : Machine} (hs : s.Reachable)
    (h : s.load program = (.ok m, s')) :
    (m.run.1 = .finished ∨ ∃ e, m.run.1 = .failed e ∧ e.isLegitimate = true) ∧
      ∀ m', m.Reaches m' → m'.top ≤ stackSize ∧
        (m'.frame.closure?.isSome = true → 1 ≤ m'.frame.base ∧
          ∃ i, decode m'.code m'.frame.ip = .instruction i (m'.frame.ip + i.size)) := by
  obtain ⟨hm, hfresh, -⟩ := hs.safe.machine h
  constructor
  · obtain ⟨m₁, ⟨n, hsteps⟩, hstops⟩ := hm.run_stops hfresh
    exact ((hm.steps hsteps).1.stops hstops).1
  · rintro m' ⟨n, hsteps⟩
    have hm' := (hm.steps hsteps).1
    exact ⟨hm'.top_le, fun hclosure => ⟨hm'.base_pos hclosure, hm'.decode_ne_finished hclosure⟩⟩

end

/-- A program that compiles has been loaded. -/
theorem exists_of_isOk {s : Session} {program : Program} (h : (s.load program).1.isOk = true) :
    ∃ m s', s.load program = (.ok m, s') := by
  rcases hload : s.load program with ⟨result, s'⟩
  cases result with
  | error e =>
      rw [hload] at h
      cases h
  | ok m => exact ⟨m, s', rfl⟩

theorem branchingProgram_safe : ∃ m s', load {} branchingProgram = (.ok m, s') ∧
    ((m.run.1 = .finished ∨ ∃ e, m.run.1 = .failed e ∧ e.isLegitimate = true) ∧
      ∀ m', m.Reaches m' → m'.top ≤ stackSize ∧
        (m'.frame.closure?.isSome = true → 1 ≤ m'.frame.base ∧
          ∃ i, decode m'.code m'.frame.ip = .instruction i (m'.frame.ip + i.size))) := by
  have hok : (load {} branchingProgram).1.isOk = true := by decide +kernel
  obtain ⟨m, s', h⟩ := exists_of_isOk hok
  exact ⟨m, s', h, Reachable.run_safe .start h⟩

/-- **Termination**: a run of a program that a session has compiled stops after finitely many
instructions, and the budget of the machine is never used up. Every step goes forward in the running
call, enters a call or leaves one, so that a call that is active executes each of its instructions at most
once, and no more than `maxFrames` calls are active at a time. -/
theorem Reachable.run_terminates [StringHash] {s s' : Session} {program : Program} {m : Machine} (hs : s.Reachable)
    (h : s.load program = (.ok m, s')) :
    (∃ n m₁, Machine.Steps n m m₁ ∧ m₁.Stops m.run.1 m.run.2) ∧ m.run.1 ≠ .unfinished ∧
      (∀ m₁ m₂, m.Reaches m₁ → MachineM.step m₁ = .ok true m₂ → m₁.Goes m₂) ∧
      (∀ m₁ m₂ m₃, m.Reaches m₁ → MachineM.step m₁ = .ok true m₂ →
        Machine.StaysAbove m₁.callers.length m₂ m₃ → m₃.callers.length = m₁.callers.length →
        m₁.frame.ip < m₃.frame.ip) ∧
      ∀ m₁, m.Reaches m₁ → m₁.callers.length + 1 ≤ maxFrames := by
  obtain ⟨hm, hfresh, -⟩ := hs.safe.machine h
  obtain ⟨m₁, ⟨n, hsteps⟩, hstops⟩ := hm.run_stops hfresh
  refine ⟨⟨n, m₁, hsteps, hstops⟩, ?_, ?_, ?_, ?_⟩
  · intro hunfinished
    rw [hunfinished] at hstops
    cases hstops
  · rintro m₂ m₃ ⟨k, hk⟩ hstep
    exact (hm.steps hk).1.goes hstep
  · rintro m₂ m₃ m₄ ⟨k, hk⟩ hstep hstays hdepth
    exact (hm.steps hk).1.ip_lt_of_staysAbove hstep hstays hdepth
  · rintro m₂ ⟨k, hk⟩
    exact (hm.steps hk).1.depth_le

/-- A function that calls itself without end. -/
def endlessProgram : Program :=
  [.let "f" (.function (some "f") ["n"] [.expr (.call (.identifier "f") [.identifier "n"])]),
   .expr (.call (.identifier "f") [.integer 1])]

/-- Its calls use up the frames. -/
theorem endlessProgram_overflows {m : Machine} {s' : Session} (h : load {} endlessProgram = (.ok m, s')) :
    ∃ m₁ m₂, m.Reaches m₁ ∧ m₁.Stops (.failed .frameOverflow) m₂ := by
  obtain ⟨b, c', hcompile, rfl, -⟩ := load_eq_ok h
  have hb : b = ⟨storeAndCall.toCode, #[.compiledFunction selfCalling, .integer 1]⟩ := by
    have hresult : (Compiler.initial.compile endlessProgram).1 =
        .ok ⟨storeAndCall.toCode, #[.compiledFunction selfCalling, .integer 1]⟩ := by rfl
    rw [show Compiler.initial.compile endlessProgram = _ from hcompile] at hresult
    exact Except.ok.inj hresult
  subst hb
  exact Machine.frameOverflow_of_storeAndCall rfl rfl rfl rfl rfl

theorem endlessProgram_terminates : ∃ m s', load {} endlessProgram = (.ok m, s') ∧
    m.run.1 = .failed .frameOverflow ∧
    ((∃ n m₁, Machine.Steps n m m₁ ∧ m₁.Stops m.run.1 m.run.2) ∧ m.run.1 ≠ .unfinished ∧
      (∀ m₁ m₂, m.Reaches m₁ → MachineM.step m₁ = .ok true m₂ → m₁.Goes m₂) ∧
      (∀ m₁ m₂ m₃, m.Reaches m₁ → MachineM.step m₁ = .ok true m₂ →
        Machine.StaysAbove m₁.callers.length m₂ m₃ → m₃.callers.length = m₁.callers.length →
        m₁.frame.ip < m₃.frame.ip) ∧
      ∀ m₁, m.Reaches m₁ → m₁.callers.length + 1 ≤ maxFrames) := by
  have hok : (load {} endlessProgram).1.isOk = true := by decide +kernel
  obtain ⟨m, s', h⟩ := exists_of_isOk hok
  have hends := Reachable.run_terminates .start h
  obtain ⟨m₁, m₂, ⟨k, hfirst⟩, hoverflows⟩ := endlessProgram_overflows h
  obtain ⟨n, m₃, hsteps, hstops⟩ := hends.1
  exact ⟨m, s', h, (hsteps.unique hstops hfirst hoverflows).1, hends⟩

end Session

end ScriptLang
