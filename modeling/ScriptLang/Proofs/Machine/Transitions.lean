import ScriptLang.Proofs.Machine.Runs

/-!
# Transitions of the machine

All that a step can do, said once. `Machine.Executed` has one rule for each kind of instruction that
succeeds, `Machine.Failed` one for each way to fail. Main statement: `Machine.Safe.step_cases` — a safe
machine is at the end of its program, or it has fetched an instruction that is executed or fails as these
rules say.
-/

namespace ScriptLang

/-- The value that an instruction returns, if it ends a call. -/
def Instruction.returned? (i : Instruction) (m : Machine) : Option Value :=
  match i with
  | .return => some .null
  | .returnValue => some (m.slot (m.top - 1))
  | _ => none

/-- How many operands are gone when an instruction fails. A call takes none before all its checks. -/
def Instruction.drops : Instruction → Nat
  | .call _ => 0
  | i => i.pops

theorem Instruction.drops_of_ne {i : Instruction} (h : i.opcode ≠ .call) : i.drops = i.pops := by
  cases i <;> first | rfl | exact absurd rfl h

namespace Machine

variable [StringHash]

/-- What an instruction leaves that is executed. -/
inductive Executed (m : Machine) : Instruction → Machine → Prop where
  | result {i : Instruction} {v : Value} :
      i.result? m (m.operands i.pops) = some (.ok v) → i.pops ≤ m.top → m.top - i.pops < stackSize →
      Executed m i (m.replaced i v)
  | pop : 1 ≤ m.top → Executed m .pop (m.dropped 1)
  | setGlobal {k : Nat} : 1 ≤ m.top → Executed m (.setGlobal k)
      { m.dropped 1 with globals := m.globals.setIfInBounds k (m.slot (m.top - 1)) }
  | setLocal {k : Nat} : 1 ≤ m.top → m.frame.base + k < stackSize → Executed m (.setLocal k)
      { m.dropped 1 with stack := m.stack.setIfInBounds (m.frame.base + k) (m.slot (m.top - 1)) }
  | jump {target : Nat} : Executed m (.jump target) (m.jumped target)
  | jumpNotTruthy {target : Nat} : 1 ≤ m.top → Executed m (.jumpNotTruthy target)
      (if (m.slot (m.top - 1)).isTruthy then m.dropped 1 else (m.dropped 1).jumped target)
  | call {n : Nat} {closure : Closure} :
      n + 1 ≤ m.top → m.slot (m.top - 1 - n) = closure.toValue →
      n = closure.function.numParameters → n ≤ closure.function.numLocals →
      m.top - n + closure.function.numLocals < slotBound → m.callers.length + 1 < maxFrames →
      m.top - n + closure.function.numLocals ≤ stackSize →
      Executed m (.call n) (m.entered closure n)
  | ended {i : Instruction} {v : Value} :
      i.returned? m = some v → i.pops ≤ m.top → m.callers = [] → Executed m i
      { m.dropped i.pops with
        stack := m.stack.setIfInBounds (m.top - i.pops) v
        frame := { m.frame with ip := m.code.size } }
  | left {i : Instruction} {v : Value} {caller : Frame} {callers : List Frame} :
      i.returned? m = some v → i.pops ≤ m.top → m.callers = caller :: callers →
      m.frame.base - 1 < stackSize → Executed m i
      { m with
        stack := m.stack.setIfInBounds (m.frame.base - 1) v
        top := m.frame.base - 1 + 1
        frame := caller
        callers }

/-- The error of an instruction that fails. -/
inductive Failed (m : Machine) : Instruction → RuntimeError → Prop where
  | result {i : Instruction} {e : RuntimeError} :
      i.result? m (m.operands i.pops) = some (.error e) → i.pops ≤ m.top → Failed m i e
  | overflow {i : Instruction} {v : Value} :
      i.result? m (m.operands i.pops) = some (.ok v) → i.pops ≤ m.top →
      ¬ m.top - i.pops < stackSize → Failed m i .stackOverflow
  | arguments {n : Nat} {closure : Closure} :
      n + 1 ≤ m.top → m.slot (m.top - 1 - n) = closure.toValue →
      closure.function.numParameters ≤ closure.function.numLocals →
      n ≠ closure.function.numParameters →
      Failed m (.call n) (.wrongArgumentCount closure.function.numParameters n)
  | frames {n : Nat} {closure : Closure} :
      n + 1 ≤ m.top → m.slot (m.top - 1 - n) = closure.toValue →
      n = closure.function.numParameters → n ≤ closure.function.numLocals →
      m.top - n + closure.function.numLocals < slotBound → ¬ m.callers.length + 1 < maxFrames →
      Failed m (.call n) .frameOverflow
  | locals {n : Nat} {closure : Closure} :
      n + 1 ≤ m.top → m.slot (m.top - 1 - n) = closure.toValue →
      n = closure.function.numParameters → n ≤ closure.function.numLocals →
      m.top - n + closure.function.numLocals < slotBound → m.callers.length + 1 < maxFrames →
      ¬ m.top - n + closure.function.numLocals ≤ stackSize → Failed m (.call n) .stackOverflow

variable {m m' : Machine} {i : Instruction} {height : Nat}

/-! ## The rules and the machine -/

theorem execute_returned {v : Value} (hv : i.returned? m = some v) (hpops : i.pops ≤ m.top) :
    MachineM.execute i m = MachineM.returnWith v (m.dropped i.pops) := by
  cases i with
  | «return» =>
      cases hv
      exact MachineM.execute_return m
  | returnValue =>
      cases hv
      exact MachineM.execute_returnValue hpops
  | _ => cases hv

theorem Executed.execute_eq (h : m.Executed i m') : MachineM.execute i m = .ok () m' := by
  cases h with
  | result hr hpops hroom =>
      obtain ⟨n, hexec⟩ := MachineM.execute_result hr hpops
      rw [hexec]
      exact if_pos hroom
  | pop htop => exact MachineM.execute_pop htop
  | setGlobal htop => exact MachineM.execute_setGlobal htop
  | setLocal htop hslot => exact MachineM.execute_setLocal htop hslot
  | jump => exact MachineM.execute_jump _ m
  | jumpNotTruthy htop => exact MachineM.execute_jumpNotTruthy htop
  | call htop hcallee hn hlocals hbound hdepth hroom =>
      rw [MachineM.execute_callClosure htop hcallee (hn ▸ hlocals) (fun _ => hbound),
        if_neg (not_not_intro hn), if_neg (Nat.not_le.mpr hdepth), if_neg (Nat.not_lt.mpr hroom)]
  | ended hv hpops hcallers =>
      exact (execute_returned hv hpops).trans
        (MachineM.returnWith_main (m := m.dropped i.pops) hcallers)
  | left hv hpops hcallers hbase =>
      exact (execute_returned hv hpops).trans
        (MachineM.returnWith_call (m := m.dropped i.pops) hcallers hbase)

theorem Executed.bytecode_eq (h : m.Executed i m') : m'.bytecode = m.bytecode := by
  cases h with
  | jumpNotTruthy => split <;> rfl
  | _ => rfl

theorem Failed.execute_eq {e : RuntimeError} (h : m.Failed i e) :
    ∃ n, MachineM.execute i m = .error (.error e) (m.dropped n) := by
  cases h with
  | result hr hpops => exact MachineM.execute_result hr hpops
  | overflow hr hpops hroom =>
      obtain ⟨n, hexec⟩ := MachineM.execute_result hr hpops
      refine ⟨n, ?_⟩
      rw [hexec]
      exact if_neg hroom
  | arguments htop hcallee hlocals hn =>
      refine ⟨0, ?_⟩
      rw [MachineM.execute_callClosure htop hcallee hlocals (fun h => absurd h hn), if_pos hn]
      rfl
  | frames htop hcallee hn hlocals hbound hdepth =>
      refine ⟨0, ?_⟩
      rw [MachineM.execute_callClosure htop hcallee (hn ▸ hlocals) (fun _ => hbound),
        if_neg (not_not_intro hn), if_pos (Nat.not_lt.mp hdepth)]
      rfl
  | locals htop hcallee hn hlocals hbound hdepth hroom =>
      refine ⟨0, ?_⟩
      rw [MachineM.execute_callClosure htop hcallee (hn ▸ hlocals) (fun _ => hbound),
        if_neg (not_not_intro hn), if_neg (Nat.not_le.mpr hdepth), if_pos (Nat.not_le.mp hroom)]
      rfl

/-! ## Failing instructions -/

/-- The operation itself fails. -/
theorem execute_of_result?_error {e : RuntimeError}
    (hr : i.result? m (m.operands i.pops) = some (.error e))
    (hpops : i.pops ≤ m.top) : MachineM.execute i m = .error (.error e) (m.dropped i.drops) := by
  cases i with
  | call k =>
      rw [show (Instruction.call k).pops = k + 1 from rfl, operands_succ m k hpops] at hr
      cases hcallee : m.slot (m.top - 1 - k) with
      | closure => simp [hcallee, Instruction.result?] at hr
      | builtin => simp [hcallee, Instruction.result?] at hr
      | _ =>
          rw [hcallee] at hr
          cases hr
          exact MachineM.call_notCallable hpops hcallee (by simp [Value.kind]) (by simp [Value.kind])
  | closure k numFree =>
      rw [Instruction.result?] at hr
      split at hr <;> cases hr
  | _ => exact MachineM.execute_eq_pushResult hr hpops (fun h => by cases h) (fun h => by cases h)

/-- There is no room for the result. -/
theorem execute_of_overflow {v : Value} (hr : i.result? m (m.operands i.pops) = some (.ok v))
    (hpops : i.pops ≤ m.top) (htop : m.top ≤ stackSize) (hroom : ¬ m.top - i.pops < stackSize) :
    MachineM.execute i m = .error (.error .stackOverflow) (m.dropped i.drops) := by
  -- an instruction that takes something off the stack makes room
  have hnone : i.pops = 0 := by omega
  have hcall : i.opcode ≠ .call := by
    rintro hcall
    cases i <;> first | exact absurd hnone (Nat.succ_ne_zero _) | cases hcall
  rw [Instruction.drops_of_ne hcall]
  by_cases hclosure : i.opcode = .closure
  · cases i with
    | closure k numFree =>
        rw [Instruction.result?] at hr
        split at hr
        · next hf =>
            exact (MachineM.pushClosure_apply (n := numFree) hpops hf).trans (if_neg hroom)
        · cases hr
    | _ => cases hclosure
  · rw [MachineM.execute_eq_pushResult hr hpops hcall hclosure]
    exact (MachineM.push_apply v _).trans (if_neg hroom)

/-- **What a failure leaves** depends on the instruction alone. -/
theorem Failed.execute_drops {e : RuntimeError} (hfailed : m.Failed i e) (htop : m.top ≤ stackSize) :
    MachineM.execute i m = .error (.error e) (m.dropped i.drops) := by
  cases hfailed with
  | result hr hpops => exact execute_of_result?_error hr hpops
  | overflow hr hpops hroom => exact execute_of_overflow hr hpops htop hroom
  | arguments hpops hcallee hlocals hn =>
      rw [MachineM.execute_callClosure hpops hcallee hlocals (fun h => absurd h hn), if_pos hn]
      rfl
  | frames hpops hcallee hn hlocals hbound hdepth =>
      rw [MachineM.execute_callClosure hpops hcallee (hn ▸ hlocals) (fun _ => hbound),
        if_neg (not_not_intro hn), if_pos (Nat.not_lt.mp hdepth)]
      rfl
  | locals hpops hcallee hn hlocals hbound hdepth hroom =>
      rw [MachineM.execute_callClosure hpops hcallee (hn ▸ hlocals) (fun _ => hbound),
        if_neg (not_not_intro hn), if_neg (Nat.not_le.mpr hdepth), if_pos (Nat.not_le.mp hroom)]
      rfl

/-! ## Fetched instructions -/

namespace Fetched

/-- A result is pushed, or it is an error, or there is no room for it. -/
theorem executes_of_result (h : m.Fetched height i) (hpushes : i.pushes = 1)
    (hcall : ∀ n, i = .call n → (m.slot (m.top - 1 - n)).kind ≠ .closure) :
    (∃ m', (next m i).Executed i m') ∨ ∃ e, (next m i).Failed i e := by
  obtain ⟨r, hr, -⟩ := SafeData.result (m := next m i)
    (h.data.of_eq rfl h.data.stack h.data.globals) h.valid h.pops_le_top hpushes
    (fun _ _ hnum hk => h.local_lt hnum hk) h.free (fun _ => h.closure_safe) hcall
  cases r with
  | error e => exact .inr ⟨e, .result hr h.pops_le_top⟩
  | ok v =>
      by_cases hroom : (next m i).top - i.pops < stackSize
      · exact .inl ⟨_, .result hr h.pops_le_top hroom⟩
      · exact .inr ⟨_, .overflow hr h.pops_le_top hroom⟩

theorem executes_callClosure {n : Nat} (closure : Closure) (h : m.Fetched height (.call n))
    (hcallee : m.slot (m.top - 1 - n) = closure.toValue) :
    (∃ m', (next m (.call n)).Executed (.call n) m') ∨ ∃ e, (next m (.call n)).Failed (.call n) e := by
  have hsafe : closure.toValue.Safe m.bytecode.constants := hcallee ▸ h.data.slot _
  obtain ⟨-, hparameters, hlocals⟩ := (h.data.pool _ hsafe.of_closure.1).routine
  have htop : n + 1 ≤ (next m (.call n)).top := h.pops_le_top
  by_cases hn : n = closure.function.numParameters
  · have hslots : n ≤ closure.function.numLocals := hn ▸ hparameters
    have hbound : (next m (.call n)).top - n + closure.function.numLocals < slotBound := by
      have hbyte := call_fits h.fits
      have hsmall : stackSize + 256 < slotBound := by decide
      have hle : (next m (.call n)).top ≤ stackSize := h.running.top_le
      omega
    by_cases hdepth : (next m (.call n)).callers.length + 1 < maxFrames
    · by_cases hroom : (next m (.call n)).top - n + closure.function.numLocals ≤ stackSize
      · exact .inl ⟨_, .call htop hcallee hn hslots hbound hdepth hroom⟩
      · exact .inr ⟨_, .locals htop hcallee hn hslots hbound hdepth hroom⟩
    · exact .inr ⟨_, .frames htop hcallee hn hslots hbound hdepth⟩
  · exact .inr ⟨_, .arguments htop hcallee hparameters hn⟩

theorem executes_return (h : m.Fetched height i) {v : Value} (hv : i.returned? (next m i) = some v) :
    ∃ m', (next m i).Executed i m' := by
  cases hcallers : m.callers with
  | nil => exact ⟨_, .ended hv h.pops_le_top hcallers⟩
  | cons caller callers =>
      have hbase : m.frame.base - 1 < stackSize := by
        have htop := h.running.top
        have hle := h.running.top_le
        have hstacked := h.running.stacked
        rw [hcallers] at hstacked
        obtain ⟨-, ⟨n, -, hn⟩, -⟩ := hstacked
        omega
      exact ⟨_, .left hv h.pops_le_top hcallers hbase⟩

/-- **What has been fetched** is executed, or it fails. -/
theorem executes (h : m.Fetched height i) :
    (∃ m', (next m i).Executed i m') ∨ ∃ e, (next m i).Failed i e := by
  cases i with
  | pop => exact .inl ⟨_, .pop h.pops_le_top⟩
  | setGlobal k => exact .inl ⟨_, .setGlobal h.pops_le_top⟩
  | setLocal k =>
      obtain ⟨numLocals, hnum, hk⟩ := h.valid
      exact .inl ⟨_, .setLocal h.pops_le_top (h.local_lt hnum hk)⟩
  | jump target => exact .inl ⟨_, .jump⟩
  | jumpNotTruthy target => exact .inl ⟨_, .jumpNotTruthy h.pops_le_top⟩
  | «return» => exact .inl (h.executes_return rfl)
  | returnValue => exact .inl (h.executes_return rfl)
  | call n =>
      by_cases hkind : (m.slot (m.top - 1 - n)).kind = .closure
      · cases hcallee : m.slot (m.top - 1 - n) with
        | closure identity f free => exact h.executes_callClosure ⟨identity, f, free⟩ hcallee
        | _ =>
            rw [hcallee] at hkind
            cases hkind
      · refine h.executes_of_result rfl ?_
        rintro k hk
        cases hk
        exact hkind
  | _ => exact h.executes_of_result rfl (by simp)

end Fetched

/-! ## Frames behind an instruction -/

theorem pushes_of_result? {r : Except RuntimeError Value} {vs : List Value}
    (h : i.result? m vs = some r) : i.pushes = 1 ∧ i.isReturn = false ∧ i.target? = none := by
  cases i <;> first | exact ⟨rfl, rfl, rfl⟩ | cases h

omit [StringHash] in
theorem isReturn_of_returned? {v : Value} (h : i.returned? m = some v) : i.isReturn = true := by
  cases i <;> first | rfl | cases h

omit [StringHash] in
/-- An instruction that leaves one value less. -/
theorem Fetched.running_of_store (h : m.Fetched height i) (hpops : i.pops = 1) (hpushes : i.pushes = 0)
    (hreturn : i.isReturn = false) (hb : m'.bytecode = m.bytecode)
    (hframe : m'.frame = { m.frame with ip := m.frame.ip + i.size }) (hcallers : m'.callers = m.callers)
    (htop : m'.top = m.top - 1) : ∃ height', m'.Running height' := by
  have hsum := h.running.top
  have hle := h.running.top_le
  have hheight := h.pops
  refine ⟨_, h.running.move hb hframe hcallers (h.behind hreturn) ?_ (by omega)⟩
  rw [htop, Instruction.heightAfter, hpops, hpushes]
  omega

/-- **Frames**: behind an instruction a frame is typed again, unless the main program has returned. -/
theorem Fetched.running_of_executed (h : m.Fetched height i) (hexecuted : (next m i).Executed i m')
    (hreturn : i.isReturn = true → m.callers ≠ []) : ∃ height', m'.Running height' := by
  have hsum := h.running.top
  have hle := h.running.top_le
  have hpops := h.pops
  cases hexecuted with
  | result hr _ hroom =>
      obtain ⟨hpushes, hnot, -⟩ := pushes_of_result? hr
      refine ⟨_, h.running.move rfl rfl rfl (h.behind hnot) ?_ hroom⟩
      show m.top - i.pops + 1 = _
      rw [Instruction.heightAfter, hpushes]
      omega
  | pop => exact h.running_of_store rfl rfl rfl rfl rfl rfl rfl
  | setGlobal => exact h.running_of_store rfl rfl rfl rfl rfl rfl rfl
  | setLocal => exact h.running_of_store rfl rfl rfl rfl rfl rfl rfl
  | jump => exact ⟨_, h.running.move rfl rfl rfl (h.target _ rfl).1 hsum hle⟩
  | @jumpNotTruthy target htop =>
      split
      · exact h.running_of_store rfl rfl rfl rfl rfl rfl rfl
      · have hone : 1 ≤ height := hpops
        refine ⟨_, h.running.move rfl rfl rfl (h.target _ rfl).1 ?_ (Nat.le_trans (Nat.sub_le _ _) hle)⟩
        show m.top - 1 = m.frame.base + m.frame.numLocals + (height - 1)
        omega
  | @call n closure _ hcallee _ _ _ hdepth hroom =>
      have hsafe : closure.toValue.Safe m.bytecode.constants := by
        rw [← hcallee]
        exact h.data.slot _
      have hcaller := h.behind rfl
      rw [show (Instruction.call n).heightAfter height = height - (n + 1) + 1 from rfl] at hcaller
      have hheight : n + 1 ≤ height := hpops
      refine ⟨0, Frame.typed_enter hsafe (h.data.pool _ hsafe.of_closure.1) _, rfl, hroom,
        ⟨rfl, ⟨_, hcaller, ?_⟩, stacked_of_eq h.running.stacked rfl rfl⟩, hdepth⟩
      show m.top - n = m.frame.base + m.frame.numLocals + (height - (n + 1)) + 1
      omega
  | ended hv _ hcallers => exact absurd hcallers (hreturn (isReturn_of_returned? hv))
  | @left _ v caller callers hv _ hcallers hbase =>
      have hstacked := h.running.stacked
      have hdepth := h.running.depth
      have hcase : m.callers = caller :: callers := hcallers
      rw [hcase] at hstacked hdepth
      rw [List.length_cons] at hdepth
      obtain ⟨-, ⟨n, htyped, hbase'⟩, hrest⟩ := hstacked
      refine ⟨n + 1, htyped, ?_, ?_, hrest, Nat.le_of_succ_le hdepth⟩
      · show m.frame.base - 1 + 1 = caller.base + caller.numLocals + (n + 1)
        omega
      · show m.frame.base - 1 + 1 ≤ stackSize
        omega

/-! ## Steps -/

/-- How a safe machine steps. -/
inductive StepCases (m : Machine) : EStateM.Result Fault Machine Bool → Prop where
  | finished : decode m.code m.frame.ip = .finished → m.callers = [] → m.frame.closure? = none →
      StepCases m (.ok false m)
  | executed {height : Nat} {i : Instruction} {m' : Machine} : m.Fetched height i →
      decode m.code m.frame.ip = .instruction i (m.frame.ip + i.size) →
      (m.jumped (m.frame.ip + i.size)).Executed i m' → StepCases m (.ok true m')
  | failed {height : Nat} {i : Instruction} {e : RuntimeError} {n : Nat} : m.Fetched height i →
      decode m.code m.frame.ip = .instruction i (m.frame.ip + i.size) →
      (m.jumped (m.frame.ip + i.size)).Failed i e →
      StepCases m (.error (.error e) ((m.jumped (m.frame.ip + i.size)).dropped n))

/-- **Steps**: a safe machine is at the end of its program, or it executes an instruction, or it fails. -/
theorem Safe.step_cases (h : m.Safe) : m.StepCases (MachineM.step m) := by
  rcases h.control with ⟨height, hrunning⟩ | hhalted
  · rcases hrunning.typed.next with
      ⟨hfinished, hclosure⟩ | ⟨i, hdecode, hsize, hpops, hfits, hvalid, hfree, hbehind, htarget⟩
    · have hcallers : m.callers = [] := by
        have hstacked := hrunning.stacked
        cases hcallers : m.callers with
        | nil => rfl
        | cons caller callers =>
            rw [hcallers] at hstacked
            have hsome := hstacked.1
            rw [hclosure] at hsome
            cases hsome
      rw [MachineM.step_finished hfinished]
      exact .finished hfinished hcallers hclosure
    · have hfetched : m.Fetched height i :=
        ⟨h.data, hrunning, hsize, hpops, hfits, hvalid, hfree, hbehind, htarget⟩
      rw [MachineM.step_of_decode hdecode]
      rcases hfetched.executes with ⟨m', hm'⟩ | ⟨e, he⟩
      · rw [hm'.execute_eq]
        exact .executed hfetched hdecode hm'
      · obtain ⟨n, hexec⟩ := he.execute_eq
        rw [hexec]
        exact .failed hfetched hdecode he
  · have hfinished := Code.decode_of_size_le hhalted.finished
    rw [MachineM.step_finished hfinished]
    exact .finished hfinished hhalted.callers hhalted.closure

/-! ## Runs of the main program -/

/-- The next instruction ends the main program. -/
def ReturnsFromMain (m : Machine) : Prop :=
  m.callers = [] ∧ ∃ i next, decode m.code m.frame.ip = .instruction i next ∧ i.isReturn = true

/-- Until the main program returns, all frames are typed. -/
theorem Safe.running_of_steps {n : Nat} (hm : m.Safe) (hrunning : ∃ height, m.Running height)
    (hmain : ∀ m₁, m.Reaches m₁ → ¬ m₁.ReturnsFromMain) (hsteps : Steps n m m') :
    ∃ height, m'.Running height := by
  induction hsteps with
  | refl => exact hrunning
  | @head n m m₁ m' hstep hsteps ih =>
      have hm₁ := (hm.steps (.one hstep)).1
      have hcases := hm.step_cases
      rw [hstep] at hcases
      cases hcases with
      | executed hfetched hdecode hexecuted =>
          refine ih hm₁ (hfetched.running_of_executed hexecuted fun hreturn hcallers => ?_)
            fun m₂ hreach => hmain m₂ (.trans (.step hstep) hreach)
          exact hmain m (.refl m) ⟨hcallers, _, _, hdecode, hreturn⟩

omit [StringHash] in
/-- The main program is at one of the instructions that its code consists of. -/
theorem Running.at_main {is : Instructions} (h : m.Running height)
    (hdecodes : m.bytecode.code.Decodes is) (hclosure : m.frame.closure? = none) :
    ∃ post, m.frame.At m.bytecode height is post := by
  obtain ⟨js, post, hat⟩ := h.typed
  have hcode : m.frame.code m.bytecode = m.bytecode.code := by rw [Frame.code, hclosure]
  have hjs : (m.frame.code m.bytecode).Decodes js :=
    hat.routine.holds.decodesFrom (by rw [Nat.zero_add]; exact hat.routine.size)
  rw [hcode] at hjs
  obtain rfl := hjs.unique hdecodes
  exact ⟨post, hat⟩

omit [StringHash] in
/-- What is decoded in a frame is its next instruction. -/
theorem next_of_decode {is post : Instructions} {next : Nat} (hat : m.frame.At m.bytecode height is post)
    (hdecode : decode m.code m.frame.ip = .instruction i next) : ∃ rest, post = i :: rest := by
  cases post with
  | cons j rest =>
      rw [code_eq, hat.holds.decode] at hdecode
      cases hdecode
      exact ⟨rest, rfl⟩
  | nil =>
      obtain ⟨pre, hpre, hip, -⟩ := hat.reached
      have hsize : (m.frame.code m.bytecode).size = m.frame.ip := by
        rw [hip, ← hat.routine.size, hpre, List.append_nil]
      rw [code_eq, Code.decode_of_size_le (Nat.le_of_eq hsize)] at hdecode
      cases hdecode

/-- A main program without a `return` does not return. -/
theorem Safe.not_returnsFromMain {is : Instructions} {m₁ : Machine} (hm : m.Safe)
    (hdecodes : m.bytecode.code.Decodes is) (hreturn : ∀ i ∈ is, i.isReturn = false)
    (hreach : m.Reaches m₁) : ¬ m₁.ReturnsFromMain := by
  rintro ⟨hcallers, i, next, hdecode, hi⟩
  obtain ⟨n, hsteps⟩ := hreach
  obtain ⟨hm₁, hb⟩ := hm.steps hsteps
  rw [← hb] at hdecodes
  rcases hm₁.control with ⟨height, hrunning⟩ | hhalted
  · have hstacked := hrunning.stacked
    rw [hcallers] at hstacked
    obtain ⟨post, hat⟩ := hrunning.at_main hdecodes hstacked.1
    obtain ⟨rest, rfl⟩ := next_of_decode hat hdecode
    rw [hreturn i hat.mem] at hi
    cases hi
  · rw [Code.decode_of_size_le hhalted.finished] at hdecode
    cases hdecode

omit [StringHash] in
/-- A frame of the main program is typed at its end as instructions leave the stack that run through. -/
theorem Running.top_of_finished {is : Instructions} (h : m.Running height)
    (hdecodes : m.bytecode.code.Decodes is) (hclosure : m.frame.closure? = none)
    (hcallers : m.callers = []) (hfinished : decode m.code m.frame.ip = .finished) :
    m.top = Instructions.heightAfter 0 is ∧ m.frame = { ip := Instructions.size is } := by
  obtain ⟨post, hat⟩ := h.at_main hdecodes hclosure
  obtain ⟨pre, hpre, hip, hheight⟩ := hat.reached
  cases post with
  | cons i post =>
      rw [code_eq, hat.holds.decode] at hfinished
      cases hfinished
  | nil =>
      rw [List.append_nil] at hpre
      subst hpre
      have hstacked := h.stacked
      rw [hcallers] at hstacked
      have htop := h.top
      rw [hstacked.2, Frame.numLocals, Frame.numLocals?, hclosure, ← hheight] at htop
      refine ⟨by simpa using htop, ?_⟩
      rw [← hip, ← hclosure, ← hstacked.2]

end Machine

end ScriptLang
