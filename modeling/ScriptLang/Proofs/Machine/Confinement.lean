import Mathlib.Data.Nat.Basic
import Mathlib.Order.Basic
import ScriptLang.Proofs.Compiler.Definitions
import ScriptLang.Proofs.Machine.Moves
import ScriptLang.Proofs.Machine.Termination
import ScriptLang.Proofs.Machine.Transitions

/-!
# Confinement

What code does whatever its values are. A call leaves alone all that does not belong to it: the frames around
it, the slots below its own, the globals (`Machine.Safe.confined`). Code that neither stores nor returns, and
that keeps to its stack, is passed (`Machine.Safe.passes`): the machine gets to its end with the values that
the code is to leave, unless it fails with a runtime error on the way. Nothing is said of these values, so
that nothing has to be known of those that the code works on.

The induction is on the work that a machine has left: a function that is called has less than its caller.
-/

namespace ScriptLang

/-- Whether an instruction neither stores a value nor ends a call. -/
def Instruction.keeps : Instruction → Bool
  | .setGlobal _ | .setLocal _ | .returnValue | .return => Bool.false
  | _ => Bool.true

theorem Instruction.keeps_of_pushes {i : Instruction} (h : i.pushes = 1) :
    i.keeps = Bool.true := by
  cases i <;> first | rfl | cases h

theorem Instruction.not_keeps_of_isReturn {i : Instruction} (h : i.isReturn = Bool.true) :
    i.keeps = Bool.false := by
  cases i <;> first | rfl | cases h

/-- A jump leaves as many values as are counted where it arrives. -/
theorem Instruction.heightAtTarget_add {i : Instruction} {target height : Nat}
    (ht : i.target? = some target) (hpops : i.pops ≤ height) (bottom : Nat) :
    i.heightAtTarget (bottom + height) = bottom + i.heightAtTarget height := by
  cases i with
  | jump => rfl
  | jumpNotTruthy => exact Nat.add_sub_assoc hpops bottom
  | _ => cases ht

namespace Machine

variable {m m₁ m' : Machine} {i : Instruction} {is : Instructions} {height h ip : Nat}

/-! ## Failures -/

variable [StringHash]

/-- The machine stops with a runtime error. -/
def Fails (m : Machine) : Prop := ∃ e m₁ m₂, m.Reaches m₁ ∧ m₁.Stops (.failed e) m₂

theorem Fails.of_reaches (hreach : m.Reaches m₁) (hfails : m₁.Fails) : m.Fails := by
  obtain ⟨e, m₂, m₃, hreach₂, hstops⟩ := hfails
  exact ⟨e, m₂, m₃, hreach.trans hreach₂, hstops⟩

theorem Overflows.fails (h : m.Overflows) : m.Fails := ⟨_, h⟩

theorem fails_of_execute {e : RuntimeError} (hholds : m.code.Holds m.frame.ip (i :: is))
    (hexecute : MachineM.execute i (m.jumped (m.frame.ip + i.size)) = .error (.error e) m₁) : m.Fails := by
  refine ⟨e, m, m₁, .refl m, .failed ?_⟩
  rw [step_eq hholds, hexecute]

/-- An instruction that has no result for its operands. -/
theorem fails_of_result {e : RuntimeError} (hholds : m.code.Holds m.frame.ip (i :: is))
    (hresult : i.result? m (m.operands i.pops) = some (.error e)) (hpops : i.pops ≤ m.top) : m.Fails := by
  have hjumped : i.result? (m.jumped (m.frame.ip + i.size))
      ((m.jumped (m.frame.ip + i.size)).operands i.pops) = some (.error e) := by
    rw [result?_jumped]
    exact hresult
  obtain ⟨n, hexecute⟩ := MachineM.execute_result hjumped hpops
  exact fails_of_execute hholds hexecute

/-- A call with a wrong number of arguments. -/
theorem fails_of_arity {n : Nat} {closure : Closure} (hholds : m.code.Holds m.frame.ip (.call n :: is))
    (htop : n + 1 ≤ m.top) (hcallee : m.slot (m.top - 1 - n) = closure.toValue)
    (hlocals : closure.function.numParameters ≤ closure.function.numLocals)
    (hn : n ≠ closure.function.numParameters) : m.Fails := by
  have hexecute := MachineM.execute_callClosure
    (m := m.jumped (m.frame.ip + (Instruction.call n).size)) htop hcallee hlocals (absurd · hn)
  rw [if_pos hn] at hexecute
  exact fails_of_execute hholds hexecute

/-- An instruction that is to come has been fetched. It is executed, or the machine fails. -/
theorem Safe.executes (hsafe : m.Safe) (hdecode : decode m.code m.frame.ip = .instruction i ip) :
    m.Fails ∨ ∃ height m', m.Fetched height i ∧ (m.jumped (m.frame.ip + i.size)).Executed i m' ∧
      MachineM.step m = .ok true m' := by
  have hcases := hsafe.step_cases
  generalize hstep : MachineM.step m = r at hcases
  cases hcases with
  | finished hfinished =>
      rw [hdecode] at hfinished
      cases hfinished
  | executed hfetched hdecode' hexecuted =>
      rw [hdecode] at hdecode'
      cases hdecode'
      exact .inr ⟨_, _, hfetched, hexecuted, rfl⟩
  | failed => exact .inl ⟨_, m, _, .refl m, .failed hstep⟩

omit [StringHash] in
/-- A function does not store in globals. -/
theorem Running.decode_ne_setGlobal {closure : Closure} {k next : Nat} (hrunning : m.Running height)
    (hdata : m.SafeData) (hclosure : m.frame.closure? = some closure) :
    decode m.code m.frame.ip ≠ .instruction (.setGlobal k) next := by
  intro hdecode
  obtain ⟨js, post, hat⟩ := hrunning.typed
  obtain ⟨rest, rfl⟩ := next_of_decode hat hdecode
  -- the code of the running function has only one decoding
  obtain ⟨ks, hks, hnone⟩ := (hdata.pool _ (hat.closure closure hclosure).of_closure.1).decodes
  have hjs : (m.frame.code m.bytecode).Decodes js :=
    hat.routine.holds.decodesFrom (by rw [Nat.zero_add]; exact hat.routine.size)
  rw [Frame.code, hclosure] at hjs
  obtain rfl := hjs.unique hks
  exact hnone k hat.mem

/-! ## Single instructions -/

/-- Where the running call goes on behind an instruction, and with how many values on the stack. -/
def Lands (i : Instruction) (m : Machine) (ip top : Nat) : Prop :=
  (ip = m.frame.ip + i.size ∧ top = i.heightAfter m.top) ∨
    (i.target? = some ip ∧ top = i.heightAtTarget m.top)

/-- The machine executes an instruction that neither stores nor returns: it does something in the running
call, or it enters a closure. -/
inductive Shifts (i : Instruction) (m m' : Machine) : Prop where
  | works {ip : Nat} : Works (m.top - i.pops) ip m m' → Lands i m ip m'.top →
      m.nextIdentity ≤ m'.nextIdentity → Shifts i m m'
  | enters {n : Nat} {closure : Closure} : i = .call n → n + 1 ≤ m.top →
      Enters closure n (m.frame.ip + i.size) m m' → Shifts i m m'

theorem Executed.shifts (hexecuted : (m.jumped (m.frame.ip + i.size)).Executed i m')
    (hreach : m.Reaches m') (hkeeps : i.keeps = true) : Shifts i m m' := by
  cases hexecuted with
  | result hresult =>
      refine .works ⟨hreach, rfl, rfl, rfl, fun k hk => ?_, rfl⟩ (.inl ⟨rfl, ?_⟩) (Nat.le_add_right _ _)
      · exact slot_setIfInBounds_of_ne _ (Nat.ne_of_lt hk)
      · rw [Instruction.heightAfter, (pushes_of_result? hresult).1]
        rfl
  | pop => exact .works ⟨hreach, rfl, rfl, rfl, fun _ _ => rfl, rfl⟩ (.inl ⟨rfl, rfl⟩) (Nat.le_refl _)
  | setGlobal | setLocal => cases hkeeps
  | jump => exact .works ⟨hreach, rfl, rfl, rfl, fun _ _ => rfl, rfl⟩ (.inr ⟨rfl, rfl⟩) (Nat.le_refl _)
  | @jumpNotTruthy target =>
      generalize hcondition : Value.isTruthy _ = truthy at hreach ⊢
      cases truthy with
      | true =>
          exact .works ⟨hreach, rfl, rfl, rfl, fun _ _ => rfl, rfl⟩ (.inl ⟨rfl, rfl⟩) (Nat.le_refl _)
      | false =>
          exact .works ⟨hreach, rfl, rfl, rfl, fun _ _ => rfl, rfl⟩ (.inr ⟨rfl, rfl⟩) (Nat.le_refl _)
  | call htop _ _ _ _ _ hroom =>
      refine .enters rfl htop ⟨hreach, rfl, rfl, rfl, rfl, hroom, fun j hj => ?_, rfl, rfl, rfl⟩
      exact congrArg (Option.getD · Value.null) (getElem?_clear hj _ _)
  | ended hreturned | left hreturned =>
      rw [Instruction.not_keeps_of_isReturn (isReturn_of_returned? hreturned)] at hkeeps
      cases hkeeps

/-! ## Calls -/

/-- What a call does next: it goes on, it calls, or it returns. -/
inductive Turn (m m' : Machine) : Prop where
  | goes {ip : Nat} : Moves m.frame.base ip m m' → m.nextIdentity ≤ m'.nextIdentity → Turn m m'
  | calls {n ip : Nat} {closure : Closure} : Enters closure n ip m m' →
      m.frame.base + n + 1 ≤ m.top → Turn m m'
  | returns {w : Value} : Returns w m m' → m.nextIdentity ≤ m'.nextIdentity → Turn m m'

/-- **Turns**: a call that does not fail goes on, calls or returns, and does nothing else. -/
theorem Safe.turn (hsafe : m.Safe) (hclosure : m.frame.closure?.isSome = true) :
    m.Fails ∨ ∃ m', m.Turn m' ∧ MachineM.step m = .ok true m' := by
  obtain ⟨i, hdecode⟩ := hsafe.decode_ne_finished hclosure
  rcases hsafe.executes hdecode with hfails | ⟨height, m', hfetched, hexecuted, hstep⟩
  · exact .inl hfails
  refine .inr ⟨m', ?_, hstep⟩
  have hreach := Reaches.step hstep
  have htop := hfetched.running.top
  have hpops := hfetched.pops
  by_cases hkeeps : i.keeps = true
  · cases hexecuted.shifts hreach hkeeps with
    | works hworks _ hidentity => exact .goes (hworks.moves.mono (by omega)) hidentity
    | @enters n _ hcall _ henters =>
        subst hcall
        have hn : n + 1 ≤ height := hpops
        exact .calls henters (by omega)
  · cases hexecuted with
    | setGlobal =>
        obtain ⟨closure, hc⟩ := Option.isSome_iff_exists.mp hclosure
        exact absurd hdecode (hfetched.running.decode_ne_setGlobal hfetched.data hc)
    | setLocal =>
        refine .goes ⟨hreach, rfl, rfl, rfl, fun k hk _ => ?_, fun _ => rfl⟩ (Nat.le_refl _)
        exact slot_setIfInBounds_of_ne _ (Nat.ne_of_lt (Nat.lt_of_lt_of_le hk (Nat.le_add_right _ _)))
    | ended _ _ hcallers =>
        have hstacked := hfetched.running.stacked
        rw [show m.callers = [] from hcallers] at hstacked
        rw [hstacked.1] at hclosure
        cases hclosure
    | @left _ w caller callers _ _ hcallers hbase =>
        have hpos := hsafe.base_pos hclosure
        refine @Turn.returns _ m _ w ⟨hreach, rfl, fun _ => rfl, fun hnil => ?_, fun _ _ hcons => ?_⟩
          (Nat.le_refl _)
        · rw [show m.callers = caller :: callers from hcallers] at hnil
          cases hnil
        · rw [show m.callers = caller :: callers from hcallers] at hcons
          cases hcons
          refine ⟨rfl, rfl, Nat.sub_add_cancel hpos, slot_setIfInBounds_self w hbase, fun k hk => ?_⟩
          exact slot_setIfInBounds_of_ne w (Nat.ne_of_lt hk)
    | result hresult =>
        exact absurd (Instruction.keeps_of_pushes (pushes_of_result? hresult).1) hkeeps
    | _ => exact absurd rfl hkeeps

/-- The call that has been entered is over. -/
theorem Enters.works {n : Nat} {closure : Closure} {w : Value} (henters : Enters closure n ip m m₁)
    (hreturns : Returns w m₁ m') (htop : n + 1 ≤ m.top) :
    Works (m.top - (n + 1)) ip m m' ∧ m'.top = m.top - n := by
  obtain ⟨hframe, hcallers, htop', -, hkept⟩ := hreturns.left _ _ henters.callers
  have hbase : m₁.frame.base = m.top - n := by rw [henters.frame]
  refine ⟨⟨henters.reaches.trans hreturns.reaches, ?_, hframe, hcallers, fun k hk => ?_, ?_⟩, ?_⟩
  · exact hreturns.bytecode.trans henters.bytecode
  · rw [hkept k (by omega), henters.kept k (by omega)]
  · rw [hreturns.globals (by rw [henters.frame]; rfl), henters.globals]
  · exact htop'.trans hbase

/-- **Confinement**: a call fails, or it returns. Then the frames around it and their slots are as they were,
and so are the globals. -/
theorem Safe.confined (hsafe : m.Safe) (hclosure : m.frame.closure?.isSome = true) :
    m.Fails ∨ ∃ w m', Returns w m m' ∧ m.nextIdentity ≤ m'.nextIdentity := by
  induction hwork : m.work using Nat.strong_induction_on generalizing m with
  | _ n ih =>
      subst hwork
      -- whatever the call does first, it has less to do then
      have hlater : ∀ {m₁ : Machine}, MachineM.step m = .ok true m₁ → ∀ {m₂ : Machine}, m₁.Reaches m₂ →
          m₂.Safe ∧ m₂.work < m.work := by
        rintro m₁ hstep m₂ ⟨k, hsteps⟩
        have hle := hsafe.steps_le_work (.head hstep hsteps)
        exact ⟨(hsafe.steps (.head hstep hsteps)).1, by omega⟩
      rcases hsafe.turn hclosure with hfails | ⟨m₁, hturn, hstep⟩
      · exact .inl hfails
      have hbase := hsafe.base_pos hclosure
      have hgoes : ∀ {ip : Nat} {m₂ : Machine}, m₁.Reaches m₂ → Moves m.frame.base ip m m₂ →
          m.nextIdentity ≤ m₂.nextIdentity →
          m.Fails ∨ ∃ w m', Returns w m m' ∧ m.nextIdentity ≤ m'.nextIdentity := by
        intro ip m₂ hreach hmoves hidentity
        obtain ⟨hsafe₂, hless⟩ := hlater hstep hreach
        rcases ih _ hless hsafe₂ (by rw [hmoves.closure?_eq]; exact hclosure) rfl with
          hfails | ⟨w, m', hreturns, hidentity'⟩
        · exact .inl (hfails.of_reaches hmoves.reaches)
        · exact .inr ⟨w, m', hreturns.of_moves hmoves (Nat.le_refl _), Nat.le_trans hidentity hidentity'⟩
      cases hturn with
      | goes hmoves hidentity => exact hgoes (.refl m₁) hmoves hidentity
      | returns hreturns hidentity => exact .inr ⟨_, _, hreturns, hidentity⟩
      | calls henters htop =>
          obtain ⟨hsafe₁, hless⟩ := hlater hstep (.refl m₁)
          rcases ih _ hless hsafe₁ (by rw [henters.frame]; rfl) rfl with
            hfails | ⟨w, m₂, hreturns, hidentity⟩
          · exact .inl (hfails.of_reaches henters.reaches)
          · obtain ⟨hworks, -⟩ := henters.works hreturns (by omega)
            refine hgoes hreturns.reaches (hworks.moves.mono (by omega)) ?_
            rwa [henters.nextIdentity] at hidentity

/-! ## Stretches of code -/

/-- The machine gets to the offset `ip` of the running code with nothing stored on the way, or it fails. -/
def Passes (bottom ip top : Nat) (m : Machine) : Prop :=
  m.Fails ∨ ∃ m', Works bottom ip m m' ∧ m'.top = top ∧ m.nextIdentity ≤ m'.nextIdentity

theorem Passes.after {bottom ip₁ top : Nat} (hworks : Works h ip m m₁) (hle : bottom ≤ h)
    (hidentity : m.nextIdentity ≤ m₁.nextIdentity) (hpasses : m₁.Passes bottom ip₁ top) :
    m.Passes bottom ip₁ top := by
  rcases hpasses with hfails | ⟨m', hworks', htop, hidentity'⟩
  · exact .inl (hfails.of_reaches hworks.reaches)
  · exact .inr ⟨m', (hworks.mono hle).trans hworks' (Nat.le_refl _), htop, hidentity.trans hidentity'⟩

/-- An instruction that neither stores nor returns is executed, with all that it calls, or the machine
fails. -/
theorem Safe.passes_one (hsafe : m.Safe) (hdecode : decode m.code m.frame.ip = .instruction i ip)
    (hkeeps : i.keeps = true) :
    m.Fails ∨ ∃ ip m', Works (m.top - i.pops) ip m m' ∧ Lands i m ip m'.top ∧
      m.nextIdentity ≤ m'.nextIdentity := by
  rcases hsafe.executes hdecode with hfails | ⟨height, m₁, -, hexecuted, hstep⟩
  · exact .inl hfails
  cases hexecuted.shifts (.step hstep) hkeeps with
  | works hworks hlands hidentity => exact .inr ⟨_, m₁, hworks, hlands, hidentity⟩
  | @enters n closure hcall htop henters =>
      subst hcall
      rcases (hsafe.steps (.one hstep)).1.confined (by rw [henters.frame]; rfl) with
        hfails | ⟨w, m', hreturns, hidentity⟩
      · exact .inl (hfails.of_reaches henters.reaches)
      · obtain ⟨hworks, htop'⟩ := henters.works hreturns htop
        rw [henters.nextIdentity] at hidentity
        refine .inr ⟨_, m', hworks, .inl ⟨rfl, ?_⟩, hidentity⟩
        rw [htop', Instruction.heightAfter]
        show m.top - n = m.top - (n + 1) + 1
        omega

/-- **Stretches**: code that neither stores nor returns, and that keeps to the `height` values that it finds
above `bottom`, is passed, or the machine fails. -/
theorem Safe.passes {bottom : Nat} (hsafe : m.Safe) (hholds : m.code.Holds m.frame.ip is)
    (hbalanced : Balanced m.frame.ip height is) (hkeeps : ∀ i ∈ is, i.keeps = true)
    (htop : m.top = bottom + height) :
    m.Passes bottom (m.frame.ip + Instructions.size is)
      (bottom + Instructions.heightAfter height is) := by
  -- a jump goes forward over some of the instructions
  induction hlength : is.length using Nat.strong_induction_on generalizing m height is with
  | _ n ih =>
      subst hlength
      cases is with
      | nil => exact .inr ⟨m, .refl bottom m, htop, Nat.le_refl _⟩
      | cons i is =>
          obtain ⟨hpops, htarget, hrest⟩ := hbalanced
          rcases hsafe.passes_one hholds.decode (hkeeps i List.mem_cons_self) with
            hfails | ⟨ip, m₁, hworks, hlands, hidentity⟩
          · exact .inl hfails
          have hsafe₁ := (hworks.reaches.elim fun _ hsteps => hsafe.steps hsteps).1
          refine .after hworks (show bottom ≤ m.top - i.pops by omega) hidentity ?_
          obtain rfl := hworks.moves.ip_eq
          rw [← hworks.moves.code_eq] at hholds
          rcases hlands with ⟨hip, htop₁⟩ | ⟨ht, htop₁⟩
          · rw [← hip] at hrest
            have hrec := ih is.length (Nat.lt_succ_self _) hsafe₁ (hip ▸ hholds.tail) hrest
              (fun j hj => hkeeps j (List.mem_cons_of_mem i hj))
              (by rw [htop₁, Instruction.heightAfter, Instruction.heightAfter]; omega) rfl
            rwa [hip, Nat.add_assoc, ← Instructions.size_cons] at hrec
          · obtain ⟨skipped, rest, rfl, hip, hheight⟩ := htarget _ ht
            have hright := hrest.right
            rw [hheight, ← hip] at hright
            have hshorter : rest.length < (i :: (skipped ++ rest)).length := by
              rw [List.length_cons, List.length_append]
              omega
            have hrec := ih rest.length hshorter hsafe₁ (hip ▸ hholds.tail.right) hright
              (fun j hj => hkeeps j (List.mem_cons_of_mem i (List.mem_append_right _ hj)))
              (by rw [htop₁, htop, Instruction.heightAtTarget_add ht hpops]) rfl
            rw [Instructions.heightAfter_cons, Instructions.heightAfter_append, hheight]
            rwa [hip, Nat.add_assoc, Nat.add_assoc, ← Instructions.size_append, ← Instructions.size_cons]
              at hrec

end Machine

end ScriptLang
