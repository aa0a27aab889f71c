import ScriptLang.Proofs.Machine.Frames

/-!
# Safety of the machine

`Machine.Safe` holds of a machine that executes compiled code: all values are safe, every frame is typed,
and the stack has exactly the values that the frames ask for. Main statement: `Machine.Safe.step` — one
step of a safe machine ends the program, or fails with a legitimate error, or leads to a safe machine; and
it goes forward in the running call, enters a function of the pool, or goes on behind a call.
-/

namespace ScriptLang

/-! ## Invariants -/

/-- Each frame is the frame of a call that the frame below it has made, and the last one is the frame of
the main program. A caller is typed as it will be when the result of the call is on the stack. -/
def Stacked (b : Bytecode) (frame : Frame) : List Frame → Prop
  | [] => frame.closure? = none ∧ frame.base = 0
  | caller :: callers =>
    frame.closure?.isSome = true ∧
      (∃ height, caller.Typed b (height + 1) ∧
        frame.base = caller.base + caller.numLocals + height + 1) ∧
      Stacked b caller callers

namespace Machine

/-- The values of a machine are safe. -/
structure SafeData (m : Machine) : Prop where
  stack : SafeSlots m.bytecode.constants m.stack
  globals : SafeSlots m.bytecode.constants m.globals
  pool : ∀ f, .compiledFunction f ∈ m.bytecode.constants.toList → FunctionOf m.bytecode.constants f

/-- A machine is about to execute an instruction, with `height` values above the locals of its frame. -/
structure Running (m : Machine) (height : Nat) : Prop where
  typed : m.frame.Typed m.bytecode height
  top : m.top = m.frame.base + m.frame.numLocals + height
  top_le : m.top ≤ stackSize
  stacked : Stacked m.bytecode m.frame m.callers
  depth : m.callers.length + 1 ≤ maxFrames

/-- A machine whose main program has returned. -/
structure Halted (m : Machine) : Prop where
  callers : m.callers = []
  closure : m.frame.closure? = none
  finished : m.code.size ≤ m.frame.ip
  top_le : m.top ≤ stackSize

/-- A machine that executes compiled code. -/
structure Safe (m : Machine) : Prop where
  data : m.SafeData
  control : (∃ height, m.Running height) ∨ m.Halted

/-- How a step changes the frames: it goes forward in the running call, it enters a function of the pool,
or it leaves the running call. -/
inductive Goes (m m' : Machine) : Prop where
  | forward (ip : Nat) : m.frame.ip < ip → ip ≤ m.code.size → m'.frame = { m.frame with ip } →
      m'.callers = m.callers → Goes m m'
  | enter (ip : Nat) (closure : Closure) (base : Nat) : m.frame.ip < ip → ip ≤ m.code.size →
      .compiledFunction closure.function ∈ m.bytecode.constants.toList →
      m.callers.length + 1 < maxFrames →
      m'.frame = { closure? := some closure, base } →
      m'.callers = { m.frame with ip } :: m.callers → Goes m m'
  | leave : m.frame.ip < m.code.size → m.callers = m'.frame :: m'.callers → Goes m m'

theorem code_eq (m : Machine) : m.code = m.frame.code m.bytecode := rfl

theorem SafeData.slot {m : Machine} (h : m.SafeData) (k : Nat) :
    (m.slot k).Safe m.bytecode.constants := h.stack k

theorem SafeData.operands {m : Machine} (h : m.SafeData) (n : Nat) :
    ∀ v ∈ m.operands n, v.Safe m.bytecode.constants := by
  intro v hv
  obtain ⟨k, -, rfl⟩ := List.mem_map.mp hv
  exact h.slot _

/-! ## Results of instructions -/

/-- **Results**: an instruction that refers to what exists has a safe result, or fails with a legitimate
error. Only a call of a closure has none. -/
theorem SafeData.result [StringHash] {m : Machine} {i : Instruction} (h : m.SafeData)
    (hvalid : i.Valid m.bytecode.constants m.frame.numLocals?) (hpops : i.pops ≤ m.top)
    (hpushes : i.pushes = 1)
    (hlocal : ∀ k numLocals, m.frame.numLocals? = some numLocals → k < numLocals →
      m.frame.base + k < stackSize)
    (hfree : ∀ k closure, i = .getFree k → m.frame.closure? = some closure → k < closure.free.length)
    (hclosure : ∀ closure, m.frame.closure? = some closure →
      closure.toValue.Safe m.bytecode.constants)
    (hcall : ∀ n, i = .call n → (m.slot (m.top - 1 - n)).kind ≠ .closure) :
    ∃ r, i.result? m (m.operands i.pops) = some r ∧ SafeResult m.bytecode.constants r := by
  have hsafe := h.operands
  cases i with
  | constant k =>
      obtain ⟨v, hv, hkind⟩ := hvalid
      refine ⟨.ok v, by simp [Instruction.result?, hv], ?_⟩
      rcases hkind with hkind | hkind <;>
        exact .data (by simp [hkind]) (by simp [hkind]) (by simp [hkind])
  | add =>
      exact ⟨_, congrArg (Instruction.add.result? m) (operands_two m hpops),
        Opcode.arithmeticResult_safe _ _ _⟩
  | sub =>
      exact ⟨_, congrArg (Instruction.sub.result? m) (operands_two m hpops),
        Opcode.arithmeticResult_safe _ _ _⟩
  | mul =>
      exact ⟨_, congrArg (Instruction.mul.result? m) (operands_two m hpops),
        Opcode.arithmeticResult_safe _ _ _⟩
  | div =>
      exact ⟨_, congrArg (Instruction.div.result? m) (operands_two m hpops),
        Opcode.arithmeticResult_safe _ _ _⟩
  | equal =>
      exact ⟨_, congrArg (Instruction.equal.result? m) (operands_two m hpops),
        Opcode.comparisonResult_safe _ _ _⟩
  | notEqual =>
      exact ⟨_, congrArg (Instruction.notEqual.result? m) (operands_two m hpops),
        Opcode.comparisonResult_safe _ _ _⟩
  | greaterThan =>
      exact ⟨_, congrArg (Instruction.greaterThan.result? m) (operands_two m hpops),
        Opcode.comparisonResult_safe _ _ _⟩
  | bang => exact ⟨_, rfl, .boolean _⟩
  | minus => exact ⟨_, rfl, Value.negationResult_safe _⟩
  | true => exact ⟨_, rfl, .boolean _⟩
  | false => exact ⟨_, rfl, .boolean _⟩
  | null => exact ⟨_, rfl, .null⟩
  | getGlobal k => exact ⟨_, rfl, h.globals k⟩
  | getLocal k =>
      obtain ⟨numLocals, hnum, hk⟩ := hvalid
      have hlt := hlocal k numLocals hnum hk
      have hget : m.stack[m.frame.base + k]? = some (m.slot (m.frame.base + k)) := by
        rw [Machine.slot, Vector.getElem?_eq_getElem hlt]
        rfl
      exact ⟨.ok (m.slot (m.frame.base + k)), by simp [Instruction.result?, hget], h.slot _⟩
  | getBuiltin k =>
      have hk : k < Builtin.all.length := hvalid
      refine ⟨.ok (.builtin Builtin.all[k]), ?_, .builtin _⟩
      simp [Instruction.result?, Builtin.ofIndex?, List.getElem?_eq_getElem hk]
  | getFree k =>
      have hsome : m.frame.closure?.isSome = true := by
        rw [← Frame.isSome_numLocals?]
        exact hvalid
      obtain ⟨closure, hc⟩ := Option.isSome_iff_exists.mp hsome
      have hk := hfree k closure rfl hc
      obtain ⟨-, -, hvs⟩ := (hclosure closure hc).of_closure
      refine ⟨.ok closure.free[k], ?_, hvs _ (List.getElem_mem hk)⟩
      simp [Instruction.result?, hc, List.getElem?_eq_getElem hk]
  | currentClosure =>
      have hsome : m.frame.closure?.isSome = true := by
        rw [← Frame.isSome_numLocals?]
        exact hvalid
      obtain ⟨closure, hc⟩ := Option.isSome_iff_exists.mp hsome
      exact ⟨.ok closure.toValue, by simp [Instruction.result?, hc], hclosure closure hc⟩
  | array n => exact ⟨_, rfl, .array (hsafe n)⟩
  | hash n => exact ⟨_, rfl, Value.hashResult_safe (hsafe n)⟩
  | index =>
      exact ⟨_, congrArg (Instruction.index.result? m) (operands_two m hpops),
        Value.elementResult_safe (h.slot _) _⟩
  | closure k n =>
      obtain ⟨f, hf, hfree⟩ := hvalid
      refine ⟨.ok (.closure m.nextIdentity f (m.operands n)), by simp only [Instruction.result?, hf]; rfl, ?_⟩
      refine .closure ?_ (by rwa [length_operands]) (hsafe n)
      exact Array.mem_toList_iff.mpr (Array.mem_of_getElem? hf)
  | call n =>
      have hops : m.operands (Instruction.call n).pops = m.slot (m.top - 1 - n) :: m.operands n :=
        operands_succ m n hpops
      have hkind := hcall n rfl
      rw [hops]
      cases hcallee : m.slot (m.top - 1 - n) with
      | closure identity f free => exact absurd (by rw [hcallee]; rfl) hkind
      | builtin b => exact ⟨_, rfl, Builtin.result_safe b (hsafe n)⟩
      | _ => exact ⟨_, rfl, rfl⟩
  | _ => simp [Instruction.pushes] at hpushes

/-! ## One step

What a safe machine has fetched is described by `Fetched`; each kind of instruction then has one lemma that
says how its execution ends, `Outcome`, and `Safe.step` puts them together. -/

/-- How the execution of an instruction ends that a safe machine has fetched. -/
inductive Outcome (m : Machine) : EStateM.Result Fault Machine Unit → Prop where
  | ok {m' : Machine} : m'.Safe → m'.bytecode = m.bytecode → m.Goes m' → Outcome m (.ok () m')
  | error {e : RuntimeError} {m' : Machine} : e.isLegitimate = true →
      SafeSlots m.bytecode.constants m'.globals → Outcome m (.error (.error e) m')

variable {m m' : Machine} {height : Nat} {i : Instruction}

/-- Safe slots are all that is needed where the code stays the same. -/
theorem SafeData.of_eq (h : m.SafeData) (hb : m'.bytecode = m.bytecode)
    (hstack : SafeSlots m.bytecode.constants m'.stack)
    (hglobals : SafeSlots m.bytecode.constants m'.globals) : m'.SafeData := by
  refine ⟨?_, ?_, ?_⟩
  · rwa [hb]
  · rwa [hb]
  · rw [hb]
    exact h.pool

/-- Where a frame goes on does not matter to the frames below. -/
theorem stacked_of_eq {b : Bytecode} {frame frame' : Frame} {callers : List Frame}
    (h : Stacked b frame callers) (hclosure : frame'.closure? = frame.closure?)
    (hbase : frame'.base = frame.base) : Stacked b frame' callers := by
  cases callers with
  | nil => exact ⟨hclosure.trans h.1, hbase.trans h.2⟩
  | cons caller callers =>
      obtain ⟨hsome, ⟨n, htyped, hn⟩, hrest⟩ := h
      exact ⟨hclosure ▸ hsome, ⟨n, htyped, hbase.trans hn⟩, hrest⟩

/-- Going on in the running call. -/
theorem Running.move (h : m.Running height) {ip height' : Nat} (hb : m'.bytecode = m.bytecode)
    (hframe : m'.frame = { m.frame with ip }) (hcallers : m'.callers = m.callers)
    (htyped : { m.frame with ip }.Typed m.bytecode height')
    (htop : m'.top = m.frame.base + m.frame.numLocals + height') (hle : m'.top ≤ stackSize) :
    m'.Running height' := by
  refine ⟨?_, ?_, hle, ?_, ?_⟩
  · rwa [hb, hframe]
  · rw [htop, hframe]
    rfl
  · rw [hb, hframe, hcallers]
    exact stacked_of_eq h.stacked rfl rfl
  · rw [hcallers]
    exact h.depth

/-- What a machine has fetched: the next instruction, as `Frame.Typed.next` describes it. -/
structure Fetched (m : Machine) (height : Nat) (i : Instruction) : Prop where
  data : m.SafeData
  running : m.Running height
  size_le : m.frame.ip + i.size ≤ m.code.size
  pops : i.pops ≤ height
  fits : i.Fits
  valid : i.Valid m.bytecode.constants m.frame.numLocals?
  free : ∀ k closure, i = .getFree k → m.frame.closure? = some closure → k < closure.free.length
  behind : i.isReturn = false →
    { m.frame with ip := m.frame.ip + i.size }.Typed m.bytecode (i.heightAfter height)
  target : ∀ target, i.target? = some target →
    { m.frame with ip := target }.Typed m.bytecode (i.heightAtTarget height) ∧
      m.frame.ip < target ∧ target ≤ m.code.size

namespace Fetched

/-- The machine behind the fetched instruction. -/
abbrev next (m : Machine) (i : Instruction) : Machine := m.jumped (m.frame.ip + i.size)

theorem goes_forward (h : m.Fetched height i)
    (hframe : m'.frame = { m.frame with ip := m.frame.ip + i.size })
    (hcallers : m'.callers = m.callers) : m.Goes m' :=
  .forward _ (Nat.lt_add_of_pos_right i.size_pos) h.size_le hframe hcallers

/-- Going on with the next instruction. -/
theorem go_on (h : m.Fetched height i) (hreturn : i.isReturn = false) (hb : m'.bytecode = m.bytecode)
    (hframe : m'.frame = { m.frame with ip := m.frame.ip + i.size })
    (hcallers : m'.callers = m.callers)
    (hstack : SafeSlots m.bytecode.constants m'.stack)
    (hglobals : SafeSlots m.bytecode.constants m'.globals)
    (htop : m'.top = m.top - i.pops + i.pushes) (hle : m'.top ≤ stackSize) :
    m.Outcome (.ok () m') := by
  have hsum := h.running.top
  have hpops := h.pops
  refine .ok ⟨h.data.of_eq hb hstack hglobals, .inl ⟨i.heightAfter height, ?_⟩⟩ hb
    (h.goes_forward hframe hcallers)
  refine h.running.move hb hframe hcallers (h.behind hreturn) ?_ hle
  rw [htop, Instruction.heightAfter]
  omega

theorem pops_le_top (h : m.Fetched height i) : i.pops ≤ m.top := by
  have hsum := h.running.top
  have hpops := h.pops
  omega

/-- The slots of the locals are in use. -/
theorem local_lt (h : m.Fetched height i) {k numLocals : Nat}
    (hnum : m.frame.numLocals? = some numLocals) (hk : k < numLocals) :
    m.frame.base + k < stackSize := by
  have hsum := h.running.top
  have hle := h.running.top_le
  rw [Frame.numLocals, hnum, Option.getD_some] at hsum
  omega

/-- The running closure has captured safe values. -/
theorem closure_safe (h : m.Fetched height i) {closure : Closure}
    (hclosure : m.frame.closure? = some closure) : closure.toValue.Safe m.bytecode.constants := by
  obtain ⟨is, post, hat⟩ := h.running.typed
  exact hat.closure closure hclosure

variable [StringHash]

/-- Instructions that put a result in the place of their operands. -/
theorem outcome_of_result (h : m.Fetched height i) (hpushes : i.pushes = 1)
    (hcall : ∀ n, i = .call n → (m.slot (m.top - 1 - n)).kind ≠ .closure) :
    m.Outcome (MachineM.execute i (next m i)) := by
  have hreturn : i.isReturn = false := by cases i <;> first | rfl | simp [Instruction.pushes] at hpushes
  obtain ⟨r, hr, hsafe⟩ := SafeData.result (m := next m i)
    (h.data.of_eq rfl h.data.stack h.data.globals) h.valid h.pops_le_top hpushes
    (fun _ _ hnum hk => h.local_lt hnum hk) h.free (fun _ => h.closure_safe) hcall
  obtain ⟨n, hexec⟩ := MachineM.execute_result hr h.pops_le_top
  rw [hexec]
  cases r with
  | error e => exact .error hsafe h.data.globals
  | ok v =>
      by_cases hroom : (next m i).top - i.pops < stackSize
      · simp only [if_pos hroom]
        exact h.go_on hreturn rfl rfl rfl (h.data.stack.set hsafe _) h.data.globals
          (by rw [hpushes]; rfl) hroom
      · simp only [if_neg hroom]
        exact .error rfl h.data.globals

theorem outcome_pop (h : m.Fetched height .pop) : m.Outcome (MachineM.execute .pop (next m .pop)) := by
  rw [MachineM.execute_pop (m := next m .pop) h.pops_le_top]
  exact h.go_on rfl rfl rfl rfl h.data.stack h.data.globals rfl
    (Nat.le_trans (Nat.sub_le _ _) h.running.top_le)

theorem outcome_setGlobal {k : Nat} (h : m.Fetched height (.setGlobal k)) :
    m.Outcome (MachineM.execute (.setGlobal k) (next m (.setGlobal k))) := by
  rw [MachineM.execute_setGlobal (m := next m (.setGlobal k)) h.pops_le_top]
  exact h.go_on rfl rfl rfl rfl h.data.stack (h.data.globals.set (h.data.slot _) _) rfl
    (Nat.le_trans (Nat.sub_le _ _) h.running.top_le)

theorem outcome_setLocal {k : Nat} (h : m.Fetched height (.setLocal k)) :
    m.Outcome (MachineM.execute (.setLocal k) (next m (.setLocal k))) := by
  obtain ⟨numLocals, hnum, hk⟩ := h.valid
  rw [MachineM.execute_setLocal (m := next m (.setLocal k)) h.pops_le_top (h.local_lt hnum hk)]
  exact h.go_on rfl rfl rfl rfl (h.data.stack.set (h.data.slot _) _) h.data.globals rfl
    (Nat.le_trans (Nat.sub_le _ _) h.running.top_le)

omit [StringHash] in
/-- Going on at the target of a jump. -/
theorem go_to (h : m.Fetched height i) {target : Nat} (ht : i.target? = some target)
    (hdata : m'.SafeData) (hb : m'.bytecode = m.bytecode)
    (hframe : m'.frame = { m.frame with ip := target }) (hcallers : m'.callers = m.callers)
    (htop : m'.top = m.frame.base + m.frame.numLocals + i.heightAtTarget height) :
    m.Outcome (.ok () m') := by
  obtain ⟨htyped, hlt, hle⟩ := h.target target ht
  have hsum := h.running.top
  have htop_le := h.running.top_le
  have hheight : i.heightAtTarget height ≤ height := by
    cases i <;> simp [Instruction.heightAtTarget]
  refine .ok ⟨hdata, .inl ⟨_, h.running.move hb hframe hcallers htyped htop ?_⟩⟩ hb
    (.forward target hlt hle hframe hcallers)
  omega

/-- A jump goes forward, to code that is typed. -/
theorem outcome_jump {target : Nat} (h : m.Fetched height (.jump target)) :
    m.Outcome (MachineM.execute (.jump target) (next m (.jump target))) := by
  rw [MachineM.execute_jump]
  exact h.go_to rfl (h.data.of_eq rfl h.data.stack h.data.globals) rfl rfl rfl h.running.top

theorem outcome_jumpNotTruthy {target : Nat} (h : m.Fetched height (.jumpNotTruthy target)) :
    m.Outcome (MachineM.execute (.jumpNotTruthy target) (next m (.jumpNotTruthy target))) := by
  have hsum := h.running.top
  have hpops : 1 ≤ height := h.pops
  rw [MachineM.execute_jumpNotTruthy (m := next m (.jumpNotTruthy target)) h.pops_le_top]
  cases ((next m (.jumpNotTruthy target)).slot ((next m (.jumpNotTruthy target)).top - 1)).isTruthy with
  | true =>
      exact h.go_on rfl rfl rfl rfl h.data.stack h.data.globals rfl
        (Nat.le_trans (Nat.sub_le _ _) h.running.top_le)
  | false =>
      refine h.go_to rfl (h.data.of_eq rfl h.data.stack h.data.globals) rfl rfl rfl ?_
      show m.top - 1 = m.frame.base + m.frame.numLocals + (height - 1)
      omega

omit [StringHash] in
theorem call_fits {n : Nat} (h : (Instruction.call n).Fits) : n < 256 :=
  h.operand_lt (n, .byte) (List.mem_singleton.mpr rfl)

/-- A call enters the closure, or one of its checks fails. -/
theorem outcome_callClosure {n : Nat} (closure : Closure) (h : m.Fetched height (.call n))
    (hcallee : m.slot (m.top - 1 - n) = closure.toValue) :
    m.Outcome (MachineM.execute (.call n) (next m (.call n))) := by
  have hsafe : closure.toValue.Safe m.bytecode.constants := hcallee ▸ h.data.slot _
  obtain ⟨hfunction, -, -⟩ := hsafe.of_closure
  obtain ⟨-, hparameters, hlocals⟩ := (h.data.pool _ hfunction).routine
  have hpops : n + 1 ≤ height := h.pops
  have hsum := h.running.top
  have htop := h.running.top_le
  have hbound : n = closure.function.numParameters →
      m.top - n + closure.function.numLocals < slotBound := by
    intro hn
    have hbyte := call_fits h.fits
    have hle : m.top - n + closure.function.numLocals ≤ 2304 := by
      have hstack : m.top ≤ 2048 := htop
      omega
    exact Nat.lt_of_le_of_lt hle (by decide)
  rw [MachineM.execute_callClosure (m := next m (.call n)) h.pops_le_top hcallee hparameters hbound]
  by_cases hn : n = closure.function.numParameters
  · by_cases hframes : maxFrames ≤ (next m (.call n)).callers.length + 1
    · rw [if_neg (not_not_intro hn), if_pos hframes]
      exact .error rfl h.data.globals
    · by_cases hroom : stackSize < (next m (.call n)).top - n + closure.function.numLocals
      · rw [if_neg (not_not_intro hn), if_neg hframes, if_pos hroom]
        exact .error rfl h.data.globals
      · rw [if_neg (not_not_intro hn), if_neg hframes, if_neg hroom]
        have hdepth : m.callers.length + 1 < maxFrames := Nat.not_le.mp hframes
        have hcaller := h.behind rfl
        rw [show (Instruction.call n).heightAfter height = height - (n + 1) + 1 from rfl] at hcaller
        refine .ok ⟨h.data.of_eq rfl (h.data.stack.clear _ _) h.data.globals, .inl ⟨0, ?_⟩⟩ rfl ?_
        · refine ⟨Frame.typed_enter hsafe (h.data.pool _ hfunction) _, rfl, Nat.not_lt.mp hroom,
            ⟨rfl, ⟨_, hcaller, ?_⟩, ?_⟩, ?_⟩
          · show m.top - n = m.frame.base + m.frame.numLocals + (height - (n + 1)) + 1
            omega
          · exact stacked_of_eq h.running.stacked rfl rfl
          · exact hdepth
        · exact .enter (m.frame.ip + (Instruction.call n).size) closure _
            (Nat.lt_add_of_pos_right (Instruction.size_pos _)) h.size_le hfunction hdepth rfl rfl
  · rw [if_pos hn]
    exact .error rfl h.data.globals

/-- A call of anything else is answered by a built-in function, or fails. -/
theorem outcome_call {n : Nat} (h : m.Fetched height (.call n)) :
    m.Outcome (MachineM.execute (.call n) (next m (.call n))) := by
  by_cases hkind : (m.slot (m.top - 1 - n)).kind = .closure
  · cases hcallee : m.slot (m.top - 1 - n) with
    | closure identity f free => exact outcome_callClosure ⟨identity, f, free⟩ h hcallee
    | _ =>
        rw [hcallee] at hkind
        cases hkind
  · refine h.outcome_of_result rfl ?_
    rintro k hk
    cases hk
    exact hkind

omit [StringHash] in
/-- Ending the running call, or the main program. -/
theorem outcome_returnWith (h : m.Fetched height i) {m₁ : Machine} {v : Value}
    (hv : v.Safe m.bytecode.constants) (hb : m₁.bytecode = m.bytecode)
    (hframe : m₁.frame = { m.frame with ip := m.frame.ip + i.size }) (hcallers : m₁.callers = m.callers)
    (hstack : m₁.stack = m.stack) (hglobals : m₁.globals = m.globals) (htop₁ : m₁.top ≤ m.top) :
    m.Outcome (MachineM.returnWith v m₁) := by
  have hsum := h.running.top
  have htop := h.running.top_le
  have hstacked := h.running.stacked
  have hpos := i.size_pos
  have hsize := h.size_le
  cases hcase : m.callers with
  | nil =>
      rw [hcase] at hstacked
      have hcode : m₁.code = m.code := by rw [code_eq, code_eq, hframe, hb]; rfl
      rw [MachineM.returnWith_main (hcallers.trans hcase)]
      refine .ok ⟨h.data.of_eq hb ?_ ?_, .inr ⟨hcallers.trans hcase, ?_, ?_, Nat.le_trans htop₁ htop⟩⟩ hb
        (.forward m.code.size (by omega) (Nat.le_refl _) ?_ hcallers)
      · exact hstack ▸ h.data.stack.set hv _
      · exact hglobals ▸ h.data.globals
      · show m₁.frame.closure? = none
        rw [hframe]
        exact hstacked.1
      · show Array.size (Frame.code m₁.bytecode { m₁.frame with ip := m₁.code.size }) ≤ m₁.code.size
        exact Nat.le_refl _
      · show { m₁.frame with ip := m₁.code.size } = _
        rw [hframe, hcode]
  | cons caller callers =>
      rw [hcase] at hstacked
      obtain ⟨-, ⟨n, htyped, hbase⟩, hrest⟩ := hstacked
      have hbase₁ : m₁.frame.base = m.frame.base := by rw [hframe]
      have hdepth := h.running.depth
      rw [hcase, List.length_cons] at hdepth
      have hlt : m₁.frame.base - 1 < stackSize := by omega
      rw [MachineM.returnWith_call (hcallers.trans hcase) hlt]
      refine .ok ⟨h.data.of_eq hb ?_ ?_, .inl ⟨n + 1, ?_, ?_, ?_, ?_, ?_⟩⟩ hb (.leave (by omega) hcase)
      · exact hstack ▸ h.data.stack.set hv _
      · exact hglobals ▸ h.data.globals
      · exact hb ▸ htyped
      · show m₁.frame.base - 1 + 1 = caller.base + caller.numLocals + (n + 1)
        omega
      · show m₁.frame.base - 1 + 1 ≤ stackSize
        omega
      · exact hb ▸ hrest
      · show callers.length + 1 ≤ maxFrames
        omega

/-- **Execution** of a fetched instruction. -/
theorem outcome (h : m.Fetched height i) : m.Outcome (MachineM.execute i (next m i)) := by
  cases i with
  | pop => exact h.outcome_pop
  | setGlobal k => exact h.outcome_setGlobal
  | setLocal k => exact h.outcome_setLocal
  | jump target => exact h.outcome_jump
  | jumpNotTruthy target => exact h.outcome_jumpNotTruthy
  | call n => exact h.outcome_call
  | «return» =>
      rw [MachineM.execute_return]
      exact h.outcome_returnWith .null rfl rfl rfl rfl rfl (Nat.le_refl _)
  | returnValue =>
      rw [MachineM.execute_returnValue (m := next m .returnValue) h.pops_le_top]
      exact h.outcome_returnWith (h.data.slot _) rfl rfl rfl rfl rfl (Nat.sub_le _ _)
  | _ => exact h.outcome_of_result rfl (by simp)

end Fetched

/-- **One step** of a safe machine: the program is at its end, or the step leads to a safe machine, or it
fails with a legitimate error and leaves safe globals. -/
theorem Safe.step [StringHash] (h : m.Safe) :
    (MachineM.step m = .ok false m ∧ m.callers = [] ∧ m.frame.closure? = none) ∨
      (∃ m', MachineM.step m = .ok true m' ∧ m'.Safe ∧ m'.bytecode = m.bytecode ∧ m.Goes m') ∨
      ∃ e m', MachineM.step m = .error (.error e) m' ∧ e.isLegitimate = true ∧
        SafeSlots m.bytecode.constants m'.globals := by
  rcases h.control with ⟨height, hrunning⟩ | hhalted
  · rcases hrunning.typed.next with
      ⟨hfinished, hclosure⟩ | ⟨i, hdecode, hsize, hpops, hfits, hvalid, hfree, hbehind, htarget⟩
    · refine .inl ⟨MachineM.step_finished hfinished, ?_, hclosure⟩
      have hstacked := hrunning.stacked
      cases hcallers : m.callers with
      | nil => rfl
      | cons caller callers =>
          rw [hcallers] at hstacked
          have hsome := hstacked.1
          rw [hclosure] at hsome
          cases hsome
    · have hfetched : m.Fetched height i :=
        ⟨h.data, hrunning, hsize, hpops, hfits, hvalid, hfree, hbehind, htarget⟩
      have houtcome := hfetched.outcome
      right
      rw [MachineM.step_of_decode hdecode]
      cases hexec : MachineM.execute i (Fetched.next m i) with
      | ok u m' =>
          rw [hexec] at houtcome
          cases houtcome with
          | ok hsafe hb hgoes => exact .inl ⟨m', rfl, hsafe, hb, hgoes⟩
      | error f m' =>
          rw [hexec] at houtcome
          cases houtcome with
          | error hlegitimate hglobals => exact .inr ⟨_, m', rfl, hlegitimate, hglobals⟩
  · refine .inl ⟨MachineM.step_finished ?_, hhalted.callers, hhalted.closure⟩
    exact Code.decode_of_size_le hhalted.finished

end Machine

end ScriptLang
