import ScriptLang.Proofs.Machine.Moves

/-!
# Endless recursion

A function such as `fn(n) { f(n) }`, where `f` stands for the function itself, calls itself before it does
anything else, and no such call ever returns. Each of them takes one more frame and two more slots of the stack.
If there are slots enough, it is the frames that run out: `Machine.CallsItself.frameOverflow`.
-/

namespace ScriptLang

/-- The code of a function that calls itself with its own argument. -/
def selfCall : Instructions := [.currentClosure, .getLocal 0, .call 1, .returnValue]

/-- A function that calls itself with its own argument. -/
def selfCalling : CompiledFunction := ⟨selfCall.toCode, 1, 1⟩

/-- The code of a main program that stores a function in its first global and calls it. -/
def storeAndCall : Instructions := [.closure 0 0, .setGlobal 0, .getGlobal 0, .constant 1, .call 1, .pop]

namespace Machine

variable {m : Machine}

/-- The machine is about to execute the body of a function that calls itself with its own argument. -/
structure Recurs (m : Machine) : Prop where
  closure : m.frame.closure?.map Closure.function = some selfCalling
  ip : m.frame.ip = 0
  top : m.top = m.frame.base + 1

/-- The machine is about to call such a function with one argument. -/
structure CallsItself (m : Machine) : Prop where
  holds : ∃ is, m.code.Holds m.frame.ip (.call 1 :: is)
  top : 2 ≤ m.top
  callee : ∃ closure : Closure, m.slot (m.top - 2) = closure.toValue ∧ closure.function = selfCalling

theorem Recurs.holds (h : m.Recurs) : m.code.Holds m.frame.ip selfCall := by
  obtain ⟨closure, hclosure, hfunction⟩ := Option.map_eq_some_iff.mp h.closure
  have hfits : ∀ i ∈ selfCall, i.overflow? = none := by decide
  rw [code_eq, Frame.code, hclosure, h.ip]
  show Code.Holds closure.function.code 0 selfCall
  rw [hfunction]
  exact Code.holds_toCode hfits

variable [StringHash]

/-- An instruction without operands puts its result on the stack. -/
theorem works_of_push {i : Instruction} {is : Instructions} {w : Value} (hholds : m.code.Holds m.frame.ip (i :: is))
    (hpops : i.pops = 0) (hresult : i.result? m [] = some (.ok w)) (hroom : m.top < stackSize) :
    ∃ m', Works m.top (m.frame.ip + i.size) m m' ∧ m'.top = m.top + 1 ∧ m'.slot m.top = w := by
  have hoperands : i.result? m (m.operands i.pops) = some (.ok w) := by
    rw [hpops]
    exact hresult
  obtain ⟨m', hworks, htop, hslot, -⟩ := works_of_room hholds hoperands (by omega) (by omega)
  rw [hpops] at hworks htop hslot
  exact ⟨m', hworks, htop, hslot⟩

/-- The body puts the function and its argument on the stack. -/
theorem Recurs.gets_to_call (h : m.Recurs) (hroom : m.top + 2 ≤ stackSize) :
    ∃ m', m.Reaches m' ∧ m'.CallsItself ∧ m'.top = m.top + 2 ∧ m'.callers = m.callers := by
  obtain ⟨closure, hclosure, hfunction⟩ := Option.map_eq_some_iff.mp h.closure
  have hself : Instruction.currentClosure.result? m [] = some (.ok closure.toValue) := by
    simp [Instruction.result?, hclosure]
  obtain ⟨m₁, hworks₁, htop₁, hslot₁⟩ := works_of_push h.holds rfl hself (by omega)
  have hholds₁ := hworks₁.moves.holds h.holds.tail
  have hbase : m₁.frame.base < stackSize := by
    rw [hworks₁.moves.base_eq]
    have htop := h.top
    omega
  have hargument : (Instruction.getLocal 0).result? m₁ [] = some (.ok m₁.stack[m₁.frame.base]) := by
    simp [Instruction.result?, hbase]
  obtain ⟨m₂, hworks₂, htop₂, -⟩ := works_of_push hholds₁ rfl hargument (by omega)
  refine ⟨m₂, hworks₁.reaches.trans hworks₂.reaches,
    ⟨⟨_, hworks₂.moves.holds hholds₁.tail⟩, by omega, closure, ?_, hfunction⟩, by omega, ?_⟩
  · rw [show m₂.top - 2 = m.top by omega, hworks₂.kept m.top (by omega), hslot₁]
  · rw [hworks₂.callers, hworks₁.callers]

/-- What the call comes to: there is room for its one local, which is its argument. -/
theorem execute_selfCall {closure : Closure} (htwo : 2 ≤ m.top) (htop : m.top ≤ stackSize)
    (hcallee : m.slot (m.top - 2) = closure.toValue) (hfunction : closure.function = selfCalling) :
    MachineM.execute (.call 1) m =
      if maxFrames ≤ m.callers.length + 1 then .error (.error .frameOverflow) m
      else .ok () (m.entered closure 1) := by
  have hparameters : closure.function.numParameters = 1 := by rw [hfunction]; rfl
  have hlocals : closure.function.numLocals = 1 := by rw [hfunction]; rfl
  have hroom : m.top - 1 + 1 < slotBound := Nat.lt_of_le_of_lt (show _ ≤ stackSize by omega) (by decide)
  have hfits : ¬ stackSize < m.top - 1 + closure.function.numLocals := by omega
  rw [MachineM.execute_callClosure htwo hcallee (by omega) fun _ => hlocals ▸ hroom,
    if_neg (not_not_intro hparameters.symm), if_neg hfits]

/-- **One more call**, as long as there is a frame for it. -/
theorem CallsItself.enters (h : m.CallsItself) (htop : m.top ≤ stackSize)
    (hframes : m.callers.length + 1 < maxFrames) :
    ∃ m', m.Reaches m' ∧ m'.Recurs ∧ m'.top = m.top ∧ m'.callers.length = m.callers.length + 1 := by
  obtain ⟨is, hholds⟩ := h.holds
  obtain ⟨closure, hcallee, hfunction⟩ := h.callee
  have hexecute := (execute_selfCall (m := m.jumped (m.frame.ip + (Instruction.call 1).size)) h.top htop
    hcallee hfunction).trans (if_neg (Nat.not_le.mpr hframes))
  have hlocals : m.top - 1 + closure.function.numLocals = m.top - 1 + 1 := by rw [hfunction]; rfl
  have htwo := h.top
  exact ⟨_, reaches_of_execute hholds hexecute, ⟨congrArg some hfunction, rfl, hlocals⟩,
    hlocals.trans (by omega), rfl⟩

/-- Without a frame for it, the call fails. -/
theorem CallsItself.stops (h : m.CallsItself) (htop : m.top ≤ stackSize)
    (hframes : maxFrames ≤ m.callers.length + 1) : ∃ m', m.Stops (.failed .frameOverflow) m' := by
  obtain ⟨is, hholds⟩ := h.holds
  obtain ⟨closure, hcallee, hfunction⟩ := h.callee
  have hexecute := (execute_selfCall (m := m.jumped (m.frame.ip + (Instruction.call 1).size)) h.top htop
    hcallee hfunction).trans (if_pos hframes)
  have hstep := step_eq hholds
  rw [hexecute] at hstep
  exact ⟨_, .failed hstep⟩

/-- **Endless recursion** ends when the frames run out, if there is room on the stack for so many calls. -/
theorem CallsItself.frameOverflow {n : Nat} (h : m.CallsItself) (hframes : m.callers.length + 1 + n = maxFrames)
    (hroom : m.top + 2 * n ≤ stackSize) :
    ∃ m₁ m₂, m.Reaches m₁ ∧ m₁.Stops (.failed .frameOverflow) m₂ := by
  -- by induction on the frames that are left
  induction n generalizing m with
  | zero =>
      obtain ⟨m', hstops⟩ := h.stops (by omega) (by omega)
      exact ⟨m, m', .refl m, hstops⟩
  | succ n ih =>
      obtain ⟨m₁, hreach₁, hrecurs, htop₁, hlength⟩ := h.enters (by omega) (by omega)
      obtain ⟨m₂, hreach₂, hcalls, htop₂, hcallers⟩ := hrecurs.gets_to_call (by omega)
      obtain ⟨m₃, m₄, hreach₃, hstops⟩ := ih hcalls (by rw [hcallers]; omega) (by omega)
      exact ⟨m₃, m₄, hreach₁.trans (hreach₂.trans hreach₃), hstops⟩

/-! ## A program that begins such a recursion -/

/-- The main program puts the function and its argument on the stack. -/
theorem gets_to_first_call {v : Value} (hcode : m.bytecode.code = storeAndCall.toCode)
    (hconstants : m.bytecode.constants = #[.compiledFunction selfCalling, v]) (hframe : m.frame = {})
    (htop : m.top = 0) : ∃ m', m.Reaches m' ∧ m'.CallsItself ∧ m'.top = 2 ∧ m'.callers = m.callers := by
  have hfits : ∀ i ∈ storeAndCall, i.overflow? = none := by decide
  have hholds : m.code.Holds m.frame.ip storeAndCall := by
    rw [code_eq, Frame.code, hframe, hcode]
    exact Code.holds_toCode hfits
  let closure : Closure := ⟨m.nextIdentity, selfCalling, []⟩
  have hclosure : (Instruction.closure 0 0).result? m [] = some (.ok closure.toValue) := by
    simp [Instruction.result?, hconstants, closure, Closure.toValue]
  obtain ⟨m₁, hworks₁, htop₁, hslot₁⟩ := works_of_push hholds rfl hclosure (by rw [htop]; decide)
  have hholds₁ := hworks₁.moves.holds hholds.tail
  have hmain : m₁.frame.closure? = none := by rw [hworks₁.moves.closure?_eq, hframe]
  obtain ⟨m₂, hmoves₂, htop₂, -, hglobals, -⟩ := moves_of_setGlobal hholds₁ (by omega) hmain
  have hholds₂ := hmoves₂.holds hholds₁.tail
  rw [show m₁.top - 1 = m.top by omega] at htop₂ hglobals
  have hstored : (Instruction.getGlobal 0).result? m₂ [] = some (.ok closure.toValue) := by
    simp [Instruction.result?, hglobals, hslot₁]
  obtain ⟨m₃, hworks₃, htop₃, hslot₃⟩ := works_of_push hholds₂ rfl hstored (by rw [htop₂, htop]; decide)
  have hholds₃ := hworks₃.moves.holds hholds₂.tail
  have hbytecode : m₃.bytecode = m.bytecode := by rw [hworks₃.bytecode, hmoves₂.bytecode, hworks₁.bytecode]
  have hargument : (Instruction.constant 1).result? m₃ [] = some (.ok v) := by
    simp [Instruction.result?, hbytecode, hconstants]
  obtain ⟨m₄, hworks₄, htop₄, -⟩ := works_of_push hholds₃ rfl hargument (by rw [htop₃, htop₂, htop]; decide)
  refine ⟨m₄, hworks₁.reaches.trans (hmoves₂.reaches.trans (hworks₃.reaches.trans hworks₄.reaches)),
    ⟨⟨_, hworks₄.moves.holds hholds₃.tail⟩, by omega, closure, ?_, rfl⟩, by omega, ?_⟩
  · rw [show m₄.top - 2 = m₂.top by omega, hworks₄.kept m₂.top (by omega), hslot₃]
  · rw [hworks₄.callers, hworks₃.callers, hmoves₂.callers, hworks₁.callers]

/-- **The program** that stores such a function and calls it comes to a call for which there is no frame. -/
theorem frameOverflow_of_storeAndCall {v : Value} (hcode : m.bytecode.code = storeAndCall.toCode)
    (hconstants : m.bytecode.constants = #[.compiledFunction selfCalling, v]) (hframe : m.frame = {})
    (hcallers : m.callers = []) (htop : m.top = 0) :
    ∃ m₁ m₂, m.Reaches m₁ ∧ m₁.Stops (.failed .frameOverflow) m₂ := by
  obtain ⟨m', hreach, hcalls, htop', hcallers'⟩ := gets_to_first_call hcode hconstants hframe htop
  have hframes : m'.callers.length + 1 + 1023 = maxFrames := by rw [hcallers', hcallers]; rfl
  have hroom : m'.top + 2 * 1023 ≤ stackSize := Nat.le_of_eq (congrArg (· + 2 * 1023) htop')
  obtain ⟨m₁, m₂, hreach₁, hstops⟩ := hcalls.frameOverflow hframes hroom
  exact ⟨m₁, m₂, hreach.trans hreach₁, hstops⟩

end Machine

end ScriptLang
