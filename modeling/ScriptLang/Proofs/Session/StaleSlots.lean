import ScriptLang.Proofs.Session.Splitting
import ScriptLang.Value.SipHash

/-!
# Slots that are not in use

Values that have been popped stay on the stack, and so do the locals and the temporaries of calls that are
over. None of them is ever read again: whatever the slots of a machine hold at the start of a program, the
run is the same. A machine with other slots is embedded in the machine that starts with empty ones, and both
do the same from step to step, also when they fail. Main statement: `Session.Reachable.run_withStack`.
-/

namespace ScriptLang

namespace Machine

variable [StringHash] {m m' l l' : Machine} {n h : Nat} {before : Output}

/-! ## Ends -/

/-- Both machines hold the same values in use when they stop. -/
theorem Embedded.stops_slots (hm : m.Safe) (he : m.Embedded n h before l)
    (hsize : l.bytecode.code.size = m.bytecode.code.size + n) {ending : Ending}
    (hstops : m.Stops ending m') (hstops' : l.Stops ending l') :
    l'.top = m'.top ∧ ∀ k < m'.top, l'.slot k = m'.slot k := by
  obtain ⟨l'', hl'', -, -, -, hfinished⟩ := he.stops hm hsize hstops
  obtain ⟨-, rfl⟩ := hl''.unique hstops'
  have hcases := hm.step_cases
  generalize hstep : MachineM.step m = r at hcases
  cases hcases with
  | finished =>
      obtain ⟨rfl, rfl⟩ := hstops.unique (.finished hstep)
      obtain ⟨rfl, -⟩ := hfinished rfl
      exact ⟨he.top, fun k hk => he.slot_eq hk⟩
  | executed => exact absurd hstep hstops.not_step
  | @failed height i error k hfetched hdecode hfailed =>
      obtain ⟨rfl, -⟩ := hstops.unique (.failed hstep)
      obtain ⟨hfailed', htarget⟩ := (he.fetched i).failed hfailed fun k hi => local_lt hfetched (.inl hi)
      have htop : m.top ≤ stackSize := hm.top_le
      have hstep₁ := MachineM.step_of_decode hdecode
      rw [hfailed.execute_drops htop] at hstep₁
      have hstep₂ := MachineM.step_of_decode (he.decode hfetched.running hdecode)
      rw [Instruction.shift_of_target? htarget] at hstep₂ hfailed'
      rw [hfailed'.execute_drops (show l.top ≤ stackSize by rwa [he.top])] at hstep₂
      obtain ⟨-, rfl⟩ := hstops.unique (.failed hstep₁)
      obtain ⟨-, rfl⟩ := hstops'.unique (.failed hstep₂)
      refine ⟨congrArg (· - i.drops) he.top, fun k hk => ?_⟩
      exact he.slot_eq (Nat.lt_of_lt_of_le hk (Nat.sub_le _ _))

/-! ## Whole runs -/

/-- Behind its end a machine does not go on. -/
theorem Steps.le_of_stops {k n : Nat} {m m₁ m₂ : Machine} {ending : Ending} (h : Steps k m m₁)
    (hstops : m₁.Stops ending m') (hsteps : Steps n m m₂) : n ≤ k := by
  induction h generalizing n with
  | refl =>
      cases hsteps with
      | refl => exact Nat.le_refl 0
      | head hstep _ => exact absurd hstep hstops.not_step
  | head hstep _ ih =>
      cases hsteps with
      | refl => exact Nat.zero_le _
      | head hstep₂ hrest =>
          rw [hstep] at hstep₂
          cases hstep₂
          exact Nat.succ_le_succ (ih hstops hrest)

/-- A machine that stops before its budget is used up stops there when it is run. -/
theorem run_of_steps {k : Nat} {m m₁ : Machine} {ending : Ending} (h : Steps k m m₁)
    (hstops : m₁.Stops ending m') (hk : k < 2 ^ m.budget) : m.run = (ending, m') := by
  rcases run_spec m with ⟨m₂, hsteps⟩ | ⟨m₂, ⟨_, hsteps⟩, hstops₂⟩
  · exact absurd (h.le_of_stops hstops hsteps) (Nat.not_le.mpr hk)
  · obtain ⟨hending, hmachine⟩ := h.unique hstops hsteps hstops₂
    exact Prod.ext hending.symm hmachine.symm

/-- The same machine with other values in its slots. -/
def withStack (m : Machine) (stack : Vector Value stackSize) : Machine := { m with stack }

/-- A run does not depend on slots that are not in use. -/
structure SameRun (m l : Machine) : Prop where
  ending : l.run.1 = m.run.1
  output : l.run.2.output = m.run.2.output
  globals : l.run.2.globals = m.run.2.globals
  top : l.run.2.top = m.run.2.top
  slots : ∀ k < m.run.2.top, l.run.2.slot k = m.run.2.slot k

end Machine

namespace Session

open Machine

section

variable [StringHash] {s s' : Session} {program : Program} {m : Machine}

/-- **Slots that are not in use** are never read: a program that a session has compiled runs in the same way
on a machine whose slots hold any values at first. If there is a statement and the program runs to its end,
also the value that is left is the same. -/
theorem Reachable.run_withStack (hs : s.Reachable) (h : s.load program = (.ok m, s'))
    (stack : Vector Value stackSize) :
    m.SameRun (m.withStack stack) ∧ (program ≠ [] → m.run.1 = .finished →
      (m.withStack stack).run.2.lastPopped = m.run.2.lastPopped) := by
  obtain ⟨hm, hfresh, -⟩ := hs.safe.machine h
  have hrunning := hs.safe.running h
  obtain ⟨b, c', hb, hmeq, -⟩ := load_eq_ok h
  obtain ⟨is, hemits, hfits, hbeq⟩ := Compiler.compile_emits hb
  have hcode : m.bytecode.code = Instructions.toCode is := by rw [hmeq, hbeq]
  have hdecodes : m.bytecode.code.Decodes is := by
    rw [hcode]
    exact Code.decodes_toCode hfits
  have hembedded : m.Embedded 0 0 #[] (m.withStack stack) := by
    have hholds : (m.withStack stack).bytecode.code.Holds 0 (Instructions.shift 0 is) := by
      rw [Instructions.shift_zero, show (m.withStack stack).bytecode = m.bytecode from rfl, hcode]
      exact Code.holds_toCode hfits
    subst hmeq
    exact Embedded.start hdecodes hholds (List.prefix_refl _) rfl rfl rfl
  obtain ⟨m₁, ⟨k, hsteps⟩, hstops⟩ := hm.run_stops hfresh
  have hm₁ := (hm.steps hsteps).1
  -- the other machine takes the same steps, within the same budget
  obtain ⟨l₁, h', hsteps', hb', -, -, hembedded₁, -⟩ :=
    Embedded.steps hsteps hm hembedded (fun _ _ _ => rfl) (.inl ⟨0, hrunning⟩)
  have hsize : l₁.bytecode.code.size = m₁.bytecode.code.size + 0 := by
    rw [hb', (hm.steps hsteps).2]
    rfl
  obtain ⟨l', hstops', hglobals, -, houtput, -⟩ := hembedded₁.stops hm₁ hsize hstops
  have hk : k < 2 ^ (m.withStack stack).budget := by
    have hle := hm.steps_le_work hsteps
    have hlt := hfresh.work_lt
    rw [show (m.withStack stack).budget = m.budget from rfl]
    omega
  have hrun := run_of_steps hsteps' hstops' hk
  obtain ⟨htop, hslots⟩ := hembedded₁.stops_slots hm₁ hsize hstops hstops'
  refine ⟨⟨?_, ?_, ?_, ?_, ?_⟩, fun hne hfinished => ?_⟩
  · rw [hrun]
  · rw [hrun, houtput, Array.empty_append]
  · rw [hrun, hglobals]
  · rw [hrun, htop]
  · rwa [hrun]
  · have hpos : m.run.1 = .finished → k ≠ 0 := by
      rintro - rfl
      cases hsteps with
      | refl =>
          obtain ⟨i, is', rfl⟩ := List.exists_cons_of_ne_nil (hemits.stmts_ne_nil hne)
          have hholds : m.code.Holds m.frame.ip (i :: is') := by
            subst hmeq
            subst hbeq
            exact Code.holds_toCode hfits
          exact hstops.ne_finished hholds hfinished
    obtain ⟨l₂, l'', ⟨_, hsteps''⟩, hstops'', -, -, -, hlast⟩ := Embedded.run hm ⟨0, hrunning⟩ hembedded rfl
      hdecodes (hemits.balanced 0).2 hsteps hstops hpos
    obtain ⟨-, rfl⟩ := hsteps'.unique hstops' hsteps'' hstops''
    rw [hrun]
    exact hlast hfinished

end

/-- A function that reads a local before anything is stored there. -/
def unsetLocalProgram : Program :=
  [.expr (.call (.function none ["x"]
    [.expr (.if (.identifier "x") [.let "y" (.identifier "x")] none), .expr (.identifier "y")])
    [.boolean false])]

theorem unsetLocalProgram_withStack : ∃ m s', load {} unsetLocalProgram = (.ok m, s') ∧
    m.run.1 = .finished ∧ m.SameRun (m.withStack (Vector.replicate _ (.integer 7))) ∧
      (m.withStack (Vector.replicate _ (.integer 7))).run.2.lastPopped = m.run.2.lastPopped := by
  have hok : (load {} unsetLocalProgram).1.isOk = true := by decide +kernel
  obtain ⟨m, s', h⟩ := exists_of_isOk hok
  have hends : (load {} unsetLocalProgram).1.toOption.any (endsWithin 4) = true := by decide +kernel
  have hfinished : m.run.1 = .finished := by
    rw [h] at hends
    obtain ⟨hm, hfresh, -⟩ := Reachable.start.safe.machine h
    exact hm.run_fst_of_endsWithin hfresh hends
  obtain ⟨hsame, hlast⟩ := Reachable.run_withStack .start h (Vector.replicate _ (.integer 7))
  exact ⟨m, s', h, hfinished, hsame, hlast (by decide) hfinished⟩

end Session

end ScriptLang
