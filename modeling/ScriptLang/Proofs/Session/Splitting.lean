import ScriptLang.Proofs.Machine.Relocation
import ScriptLang.Proofs.Session
import ScriptLang.Value.SipHash

/-!
# Programs in several lines

A program that a session runs may as well be entered in two parts, one after the other. The second part is
compiled to other code, and it runs on a machine of its own, with an empty stack. Still it does what it
does behind the first part, if that one runs through: the machine of either part is embedded in the machine
of the whole program. Main statement: `Session.Reachable.run_append`.
-/

namespace ScriptLang

/-! ## Code that is not empty -/

theorem Emits.stmt_ne_nil {c c' : Compiler} {offset : Nat} {s : Stmt} {is : Instructions}
    (h : Emits (.stmt s) c offset is c') : is ≠ [] := by
  cases h <;> simp

theorem Emits.stmts_ne_nil {c c' : Compiler} {offset : Nat} {program : Program} {is : Instructions}
    (h : Emits (.stmts program) c offset is c') (hne : program ≠ []) : is ≠ [] := by
  cases h with
  | stmts_nil => exact absurd rfl hne
  | stmts_cons h₁ _ => exact List.append_ne_nil_of_left_ne_nil h₁.stmt_ne_nil _

/-- Where instructions stand, a machine has not finished. -/
theorem Machine.Stops.ne_finished [StringHash] {m m' : Machine} {e : Ending} {i : Instruction} {is : Instructions}
    (h : m.Stops e m') (hholds : m.code.Holds m.frame.ip (i :: is)) : e ≠ .finished := by
  rintro rfl
  cases h with
  | finished hstep =>
      rw [Machine.step_eq hholds] at hstep
      cases hexec : MachineM.execute i (m.jumped (m.frame.ip + i.size)) <;> simp [hexec] at hstep

namespace Session

variable {s s' s₁ : Session} {first second : Program} {m p q : Machine}

/-! ## The first part -/

/-- **The first part**: the machine of the whole program gets to the code of the second part, and there it
is as the machine of the first part is at its end. -/
theorem reaches_second [StringHash] (hs : s.Safe) {c₁ c' : Compiler} {is js : Instructions}
    (hmload : s.load (first ++ second) = (.ok m, s')) (hpload : s.load first = (.ok p, s₁))
    (hm : m.bytecode = ⟨Instructions.toCode (is ++ js), c'.constants⟩)
    (hp : p.bytecode = ⟨Instructions.toCode is, c₁.constants⟩)
    (hemits : Emits (.stmts first) s.compiler 0 is c₁) (hfits : ∀ i ∈ is ++ js, i.Fits)
    (hconstants : c₁.constants.toList <+: c'.constants.toList)
    (hfinished : p.run.1 = .finished) (hmain : ∀ p₁, p.Reaches p₁ → ¬ p₁.ReturnsFromMain) :
    ∃ l, m.Reaches l ∧ l.bytecode = m.bytecode ∧ l.frame = { ip := Instructions.size is } ∧
      l.callers = [] ∧ l.top = 0 ∧ l.globals = p.run.2.globals ∧
      l.nextIdentity = p.run.2.nextIdentity ∧ l.output = p.run.2.output := by
  obtain ⟨hpsafe, hpfresh, -⟩ := hs.machine hpload
  have hprunning := hs.running hpload
  obtain ⟨b, -, -, hmeq, -⟩ := load_eq_ok hmload
  obtain ⟨b₁, -, -, hpeq, -⟩ := load_eq_ok hpload
  have hholds : m.bytecode.code.Holds 0 is := by
    rw [hm]
    exact (Code.holds_toCode hfits).left
  have hdecodes : p.bytecode.code.Decodes is := by
    rw [hp]
    exact Code.decodes_toCode fun i hi => hfits i (List.mem_append_left js hi)
  have hembedded : p.Embedded 0 0 #[] m := by
    subst hmeq
    subst hpeq
    refine Machine.Embedded.start hdecodes (by rwa [Instructions.shift_zero]) ?_ rfl rfl rfl
    rw [hm, hp]
    exact hconstants
  obtain ⟨p₁, ⟨k, hsteps⟩, hstops⟩ := hpsafe.run_stops hpfresh
  rw [hfinished] at hstops
  obtain ⟨hp₁, hb₁⟩ := hpsafe.steps hsteps
  obtain ⟨height, hrunning⟩ := hpsafe.running_of_steps ⟨0, hprunning⟩ hmain hsteps
  obtain ⟨l, h', hlsteps, hbl, -, -, hl, -⟩ := Machine.Embedded.steps hsteps hpsafe hembedded
    (fun p₂ hreach hreturn => absurd hreturn (hmain p₂ hreach)) (.inl ⟨0, hprunning⟩)
  -- the first part has left its code, and nothing on the stack
  cases hstops with
  | finished hstep =>
      have hcases := hp₁.step_cases
      rw [hstep] at hcases
      cases hcases with
      | finished hend hcallers hclosure =>
          rw [← hb₁] at hdecodes
          obtain ⟨htop, hframe⟩ := hrunning.top_of_finished hdecodes hclosure hcallers hend
          have hzero : p.run.2.top = 0 := htop.trans (hemits.balanced 0).2
          refine ⟨l, ⟨k, hlsteps⟩, hbl, ?_, ?_, hl.top.trans hzero, hl.globals, hl.nextIdentity, ?_⟩
          · rw [hl.frame, hframe]
            rfl
          · rw [hl.callers, hcallers]
            rfl
          · rw [hl.output, Array.empty_append]

/-! ## Main statement -/

/-- **Splitting**: if a program can be compiled, and its first part runs through without a `return` of its
own, then the second part can be compiled and run behind the first one. The session is the same afterwards
as if the whole program had been run at once, with its symbols, its constants and its globals. The run ends
in the same way, what has been put out is the same, and so is the value that a complete run leaves. -/
theorem Reachable.run_append [StringHash] (hs : s.Reachable) (hsecond : second ≠ [])
    (hcompile : s.load (first ++ second) = (.ok m, s')) (hload : s.load first = (.ok p, s₁))
    (hfinished : p.run.1 = .finished) (hmain : ∀ p₁, p.Reaches p₁ → ¬ p₁.ReturnsFromMain) :
    ∃ q s₂, (s.run first).2.load second = (.ok q, s₂) ∧
      ((s.run first).2.run second).2 = (s.run (first ++ second)).2 ∧
      q.run.1 = m.run.1 ∧ p.run.2.output ++ q.run.2.output = m.run.2.output ∧
      (m.run.1 = .finished → q.run.2.lastPopped = m.run.2.lastPopped) := by
  obtain ⟨hmsafe, hmfresh, -⟩ := hs.safe.machine hcompile
  obtain ⟨b, c', hb, hmeq, hs'⟩ := load_eq_ok hcompile
  obtain ⟨c₁, is, js, hc₁, hc', hbeq, hemits₁, hemits₂, hfits, hfits'⟩ := Compiler.compile_append hb
  obtain ⟨b₁, c₁', hb₁, hpeq, hs₁⟩ := load_eq_ok hload
  rw [hc₁] at hb₁
  cases hb₁
  have hmb : m.bytecode = ⟨Instructions.toCode (is ++ Instructions.shift (Instructions.size is) js),
      c'.constants⟩ := by
    rw [hmeq]
    exact hbeq
  have hsound := (hemits₁.grows hs.safe.compiler.sound.symbols).1
  obtain ⟨l, hmreach, hlb, hlframe, hlcallers, hltop, hlglobals, hlidentity, hloutput⟩ :=
    reaches_second hs.safe hcompile hload hmb (by rw [hpeq]) hemits₁ hfits
      (hemits₂.grows hsound).2.constants hfinished hmain
  -- the machine of the second part
  have hrun : s.run first = (.ok p.run, s₁.keep p.run.2) := run_of_load_ok hload
  have hreachable : (s₁.keep p.run.2).Reachable := by
    have hreach := hs.run first
    rwa [hrun] at hreach
  have hsecond₁ : (s₁.keep p.run.2).compiler.compile second =
      (.ok ⟨Instructions.toCode js, c'.constants⟩, c') := by
    rw [keep_compiler, hs₁]
    exact hc'
  have hqload := load_of_compile hsecond₁
  rw [keep_globals, keep_nextIdentity, ← hlglobals, ← hlidentity] at hqload
  generalize hqeq : Machine.mk _ _ _ _ _ _ _ _ = q at hqload
  obtain ⟨hqsafe, hqfresh, -⟩ := hreachable.safe.machine hqload
  have hqrunning := hreachable.safe.running hqload
  have hdecodes : q.bytecode.code.Decodes js := by
    rw [← hqeq]
    exact Code.decodes_toCode hfits'
  have hembedded : q.Embedded (Instructions.size is) 0 l.output l := by
    rw [← hqeq]
    refine Machine.Embedded.start (Code.decodes_toCode hfits') ?_ ?_ hlframe hlcallers hltop
    · rw [hlb, hmb]
      have hright := (Code.holds_toCode hfits).right
      rwa [Nat.zero_add] at hright
    · simp only [hlb, hmb, List.prefix_refl]
  obtain ⟨q₁, ⟨k, hqsteps⟩, hqstops⟩ := hqsafe.run_stops hqfresh
  have hsize : l.bytecode.code.size = q.bytecode.code.size + Instructions.size is := by
    rw [hlb, hmb, ← hqeq]
    simp [Nat.add_comm]
  have hk : q.run.1 = .finished → k ≠ 0 := by
    rintro hqfinished rfl
    cases hqsteps with
    | refl =>
        obtain ⟨i, is', rfl⟩ := List.exists_cons_of_ne_nil (hemits₂.stmts_ne_nil hsecond)
        have hholds : q.code.Holds q.frame.ip (i :: is') := by
          rw [← hqeq]
          exact Code.holds_toCode hfits'
        exact hqstops.ne_finished hholds hqfinished
  obtain ⟨l₁, l', hlreach, hlstops, hglobals, hidentity, houtput, hlast⟩ := Machine.Embedded.run hqsafe
    ⟨0, hqrunning⟩ hembedded hsize hdecodes (hemits₂.balanced 0).2 hqsteps hqstops hk
  -- the run of the whole program can only be that of its two parts
  obtain ⟨m₁, ⟨_, hmsteps⟩, hmstops⟩ := hmsafe.run_stops hmfresh
  obtain ⟨_, hlsteps⟩ := hmreach.trans hlreach
  obtain ⟨hending, hmachine⟩ := hlsteps.unique hlstops hmsteps hmstops
  rw [hmachine] at hglobals hidentity houtput hlast
  rw [hloutput] at houtput
  rw [hrun]
  refine ⟨q, _, hqload, ?_, hending, houtput.symm, fun hmfinished => ?_⟩
  · rw [run_of_load_ok hqload, run_of_load_ok hcompile, hs']
    show Session.mk c' q.run.2.globals q.run.2.nextIdentity =
      Session.mk c' m.run.2.globals m.run.2.nextIdentity
    rw [hglobals, hidentity]
  · exact (hlast (hending.trans hmfinished)).symm

/-- A first line that binds a name. -/
def greetingFirst : Program := [.let "x" (.integer 1)]

/-- A second line with a function and a branch that depends on the first one. -/
def greetingSecond : Program :=
  [.let "f" (.function (some "f") ["n"] [.expr (.call (.identifier "puts") [.identifier "n"])]),
   .expr (.if (.identifier "x") [.expr (.call (.identifier "f") [.identifier "x"])] none),
   .expr (.identifier "x")]

theorem greeting_run_append :
    ∃ m s' p s₁, load {} (greetingFirst ++ greetingSecond) = (.ok m, s') ∧
      load {} greetingFirst = (.ok p, s₁) ∧ p.run.1 = .finished ∧
      (∀ p₁, p.Reaches p₁ → ¬ p₁.ReturnsFromMain) ∧
      ∃ q s₂, (run {} greetingFirst).2.load greetingSecond = (.ok q, s₂) ∧
        ((run {} greetingFirst).2.run greetingSecond).2 = (run {} (greetingFirst ++ greetingSecond)).2 ∧
        q.run.1 = m.run.1 ∧ p.run.2.output ++ q.run.2.output = m.run.2.output ∧
        (m.run.1 = .finished → q.run.2.lastPopped = m.run.2.lastPopped) := by
  have hok : (load {} (greetingFirst ++ greetingSecond)).1.isOk = true := by decide +kernel
  have hok₁ : (load {} greetingFirst).1.isOk = true := by decide +kernel
  obtain ⟨m, s', hcompile⟩ := exists_of_isOk hok
  obtain ⟨p, s₁, hload⟩ := exists_of_isOk hok₁
  have hfinished : p.run.1 = .finished := by
    have hrun : ((run {} greetingFirst).1.toOption.map (·.1)) = some .finished := by decide +kernel
    rw [run_of_load_ok hload] at hrun
    exact Option.some.inj hrun
  have hmain : ∀ p₁, p.Reaches p₁ → ¬ p₁.ReturnsFromMain := by
    intro p₁ hreach
    obtain ⟨b, c', hb, hpeq, -⟩ := load_eq_ok hload
    obtain ⟨is, hemits, hfits, hbeq⟩ := Compiler.compile_emits hb
    have hdecodes : p.bytecode.code.Decodes is := by
      rw [hpeq, hbeq]
      exact Code.decodes_toCode hfits
    refine ((Reachable.start.safe.machine hload).1).not_returnsFromMain hdecodes ?_ hreach
    rw [greetingFirst] at hemits
    cases hemits with
    | stmts_cons hlet hrest =>
        cases hrest
        cases hlet with
        | «let» hvalue =>
            cases hvalue with
            | constant =>
                intro i hi
                rcases List.mem_cons.mp hi with rfl | hi
                · rfl
                · rw [List.mem_singleton.mp hi, Symbol.storeInstruction]
                  split <;> rfl
            | operation hes => cases hes
  exact ⟨m, s', p, s₁, hcompile, hload, hfinished, hmain,
    Reachable.run_append .start (by decide) hcompile hload hfinished hmain⟩

end Session

end ScriptLang
