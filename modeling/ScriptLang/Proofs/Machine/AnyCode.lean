import ScriptLang.Proofs.Bytecode.Decoding
import ScriptLang.Proofs.Machine.Transitions
import ScriptLang.Value.SipHash

/-!
# Machines with any code

What the machine does with code of which nothing is known: jumps may arrive in the middle of an instruction,
a function may take values of its caller off the stack, a call may end with its code, and the machine may go
on behind an error. `Machine.Visits` are the states that it comes by in this way. Main statements:

* `Machine.Bounded.stepped` — all that a step can do;
* `Machine.Visits.limits` — the machine keeps within its limits, and a step is malformed in a few ways only;
* `Machine.Visits.failure` — an instruction that fails has done nothing but take its operands.
-/

namespace ScriptLang

/-- The number of values that an instruction takes off the stack when it is executed. -/
def Instruction.takes : Instruction → Nat
  | .jump _ => 0
  | i => i.pops

theorem Instruction.takes_of_target? {i : Instruction} (h : i.target? = none) : i.takes = i.pops := by
  cases i <;> first | rfl | cases h

theorem Instruction.drops_le_pops (i : Instruction) : i.drops ≤ i.pops := by
  cases i <;> first | exact Nat.le_refl _ | exact Nat.zero_le _

/-! ## Limits

The stack, the globals and the frames have fixed sizes, and the frame of a call stands above the closure that
was called. Every instruction keeps to that, whatever the code is. -/

/-- The frames of calls, each above the value that was called, and the frame of the main program under
them. -/
def Frame.Nested : Frame → List Frame → Prop
  | frame, [] => frame.closure? = none ∧ frame.base = 0
  | frame, caller :: callers =>
    frame.closure?.isSome = true ∧ 1 ≤ frame.base ∧ frame.base ≤ stackSize ∧ caller.Nested callers

/-- Whether frames are nested does not depend on where they go on. -/
theorem Frame.Nested.at {frame : Frame} {callers : List Frame} (h : frame.Nested callers) (ip : Nat) :
    Frame.Nested { frame with ip } callers := by
  cases callers <;> exact h

namespace Machine

/-- A machine keeps to its stack and to its frames. -/
structure Bounded (m : Machine) : Prop where
  top : m.top ≤ stackSize
  globals : m.globals.toArray.size = numGlobals
  depth : m.callers.length + 1 ≤ maxFrames
  frames : m.frame.Nested m.callers

variable {m m' : Machine} {i : Instruction} {cause : Malformed}

namespace Bounded

theorem start (bytecode : Bytecode) (globals : Globals) (nextIdentity : Nat) :
    Bounded { bytecode, globals, nextIdentity } :=
  ⟨Nat.zero_le _, globals.size_toArray, show 1 ≤ maxFrames by decide, rfl, rfl⟩

theorem jumped (h : m.Bounded) (ip : Nat) : (m.jumped ip).Bounded :=
  ⟨h.top, h.globals, h.depth, h.frames.at ip⟩

theorem dropped (h : m.Bounded) (n : Nat) : (m.dropped n).Bounded :=
  ⟨Nat.le_trans (Nat.sub_le _ _) h.top, h.globals, h.depth, h.frames⟩

/-- Below the frame of a call there is at least the closure. -/
theorem base_pos (h : m.Bounded) (hcallers : m.callers ≠ []) : 1 ≤ m.frame.base := by
  have hframes := h.frames
  cases hcase : m.callers with
  | nil => exact absurd hcase hcallers
  | cons caller callers =>
      rw [hcase] at hframes
      exact hframes.2.1

/-- **Limits** are kept by every instruction that is executed. -/
theorem executed [StringHash] (h : m.Bounded) (hexecuted : m.Executed i m') : m'.Bounded := by
  cases hexecuted with
  | result _ _ hroom => exact ⟨hroom, h.globals, h.depth, h.frames⟩
  | pop => exact h.dropped 1
  | setGlobal => exact ⟨(h.dropped 1).top, Vector.size_toArray _, h.depth, h.frames⟩
  | setLocal => exact ⟨(h.dropped 1).top, h.globals, h.depth, h.frames⟩
  | jump => exact h.jumped _
  | jumpNotTruthy =>
      split
      · exact h.dropped 1
      · exact (h.dropped 1).jumped _
  | @call n closure htop _ _ _ _ hdepth hroom =>
      have hbase : 1 ≤ m.top - n := by omega
      have hle : m.top - n ≤ stackSize := Nat.le_trans (Nat.sub_le _ _) h.top
      exact ⟨hroom, h.globals, hdepth, rfl, hbase, hle, h.frames⟩
  | ended => exact ⟨(h.dropped _).top, h.globals, h.depth, h.frames.at _⟩
  | left _ _ hcallers hbase =>
      -- the value that is returned takes the place of the closure, below the base of its frame
      have hframes := h.frames
      have hdepth := h.depth
      rw [hcallers] at hframes hdepth
      exact ⟨hbase, h.globals, Nat.le_of_succ_le hdepth, hframes.2.2.2⟩

end Bounded

/-- What is executed finds the values that it takes off the stack. -/
theorem Executed.takes_le [StringHash] (h : m.Executed i m') : i.takes ≤ m.top := by
  cases h with
  | result hr hpops _ =>
      rw [Instruction.takes_of_target? (pushes_of_result? hr).2.2]
      exact hpops
  | jump => exact Nat.zero_le _
  | call htop => exact htop
  | ended hv hpops => cases i <;> first | exact hpops | cases hv
  | left hv hpops => cases i <;> first | exact hpops | cases hv
  | _ htop => exact htop

/-! ## What does not exist

The only ways in which a step can be malformed. They are stated of the machine and the instruction alone, so
that no step has to be executed to recognise them. -/

/-- A call finds a closure that takes as many arguments, and there is a frame left for it. -/
structure Calls (m : Machine) (n : Nat) (closure : Closure) : Prop where
  top : n + 1 ≤ m.top
  callee : m.slot (m.top - 1 - n) = closure.toValue
  arguments : n = closure.function.numParameters
  depth : m.callers.length + 1 < maxFrames

/-- An instruction refers to what does not exist: to a constant outside the pool, to a built-in function
without a number, to a local outside the stack, or to fewer locals than there are arguments. -/
inductive Dangles (m : Machine) : Instruction → Malformed → Prop where
  | constant {k : Nat} : m.bytecode.constants.size ≤ k → Dangles m (.constant k) .constant
  | closure {k n : Nat} : m.bytecode.constants.size ≤ k → Dangles m (.closure k n) .constant
  | getBuiltin {k : Nat} : Builtin.all.length ≤ k → Dangles m (.getBuiltin k) .builtin
  | getLocal {k : Nat} : stackSize ≤ m.frame.base + k → Dangles m (.getLocal k) .localSlot
  | setLocal {k : Nat} : 1 ≤ m.top → stackSize ≤ m.frame.base + k → Dangles m (.setLocal k) .localSlot
  | call {n : Nat} {closure : Closure} : m.Calls n closure →
      closure.function.numLocals < closure.function.numParameters → Dangles m (.call n) .function

/-- A call enters a closure with so many locals that the slot behind them has no number. -/
def Overruns (m : Machine) (i : Instruction) : Prop :=
  ∃ n closure, i = .call n ∧ m.Calls n closure ∧ slotBound ≤ m.top - n + closure.function.numLocals

/-- Which closure is called does not depend on where the caller goes on. -/
theorem Calls.jumped {n : Nat} {closure : Closure} (h : m.Calls n closure) (ip : Nat) :
    (m.jumped ip).Calls n closure :=
  ⟨h.top, h.callee, h.arguments, h.depth⟩

theorem Dangles.jumped (h : m.Dangles i cause) (ip : Nat) : (m.jumped ip).Dangles i cause := by
  cases h with
  | constant hk => exact .constant hk
  | closure hk => exact .closure hk
  | getBuiltin hk => exact .getBuiltin hk
  | getLocal hk => exact .getLocal hk
  | setLocal htop hk => exact .setLocal htop hk
  | call hcalls hlt => exact .call (hcalls.jumped ip) hlt

theorem Overruns.jumped (h : m.Overruns i) (ip : Nat) : (m.jumped ip).Overruns i := by
  obtain ⟨n, closure, rfl, hcalls, hbound⟩ := h
  exact ⟨n, closure, rfl, hcalls.jumped ip, hbound⟩

/-- What is missing does not depend on where the machine goes on. -/
theorem dangles_jumped_iff {ip : Nat} : (m.jumped ip).Dangles i cause ↔ m.Dangles i cause :=
  ⟨fun h => h.jumped m.frame.ip, fun h => h.jumped ip⟩

theorem overruns_jumped_iff {ip : Nat} : (m.jumped ip).Overruns i ↔ m.Overruns i :=
  ⟨fun h => h.jumped m.frame.ip, fun h => h.jumped ip⟩

end Machine

namespace MachineM

variable {m : Machine}

/-! ## Missing values

Where the stack has fewer values than an instruction takes, it fails and has taken some of them at most. -/

theorem pop_underflow (h : m.top = 0) : pop m = .error (.error .stackUnderflow) m := by
  simp only [pop, bind_apply, get_apply, if_pos h, fail_apply]

theorem popMany_underflow {n : Nat} (h : m.top < n) :
    popMany n m = .error (.error .stackUnderflow) m := by
  simp only [popMany, bind_apply, get_apply, if_pos h, fail_apply]

theorem pop_bind_underflow {f : Value → MachineM Unit} (h : m.top < 1) :
    (pop >>= f) m = .error (.error .stackUnderflow) m := by
  rw [bind_apply, pop_underflow (Nat.lt_one_iff.mp h)]

/-- If there is one value only, it is taken. -/
theorem pop_pop_underflow {f : Value → Value → MachineM Unit} (h : m.top < 2) :
    (do let right ← pop; let left ← pop; f left right) m =
      .error (.error .stackUnderflow) (m.dropped m.top) := by
  by_cases htop : m.top = 0
  · rw [bind_apply, pop_underflow htop, htop]
    rfl
  · have hone : m.top = 1 := by omega
    rw [bind_apply, pop_apply (Nat.pos_of_ne_zero htop), hone]
    show (pop >>= _) (m.dropped 1) = _
    rw [bind_apply, pop_underflow (show m.top - 1 = 0 by omega)]

theorem popMany_bind_underflow {f : List Value → MachineM Unit} {n : Nat} (h : m.top < n) :
    (popMany n >>= f) m = .error (.error .stackUnderflow) m := by
  rw [bind_apply, popMany_underflow h]

variable [StringHash]

theorem call_underflow {n : Nat} (h : m.top < n + 1) :
    execute (.call n) m = .error (.error .stackUnderflow) m := by
  simp only [execute, call, bind_apply, get_apply, if_pos (Nat.le_of_lt_succ h), fail_apply]

theorem execute_pop_underflow (h : m.top < 1) :
    execute .pop m = .error (.error .stackUnderflow) m := by
  show EStateM.map (fun _ => ()) pop m = _
  rw [EStateM.map, pop_underflow (Nat.lt_one_iff.mp h)]

/-- A captured value that the running closure does not have, or no closure at all. -/
theorem getFree_missing {k : Nat}
    (h : ∀ closure, m.frame.closure? = some closure → closure.free[k]? = none) :
    execute (.getFree k) m = .error (.error (.noFreeVariable k)) m := by
  simp only [execute, bind_apply, get_apply]
  cases hclosure : m.frame.closure? with
  | none => rfl
  | some closure => simp only [h closure hclosure, fail_apply]

theorem currentClosure_missing (h : m.frame.closure? = none) :
    execute .currentClosure m = .error (.error .noCurrentClosure) m := by
  simp only [execute, bind_apply, get_apply, h, fail_apply]

end MachineM

namespace Machine

variable {m m' : Machine} {i : Instruction} {cause : Malformed}

/-! ## Instructions

What executing an instruction comes to, one lemma for each kind of instruction, and `Acts` for all of them. -/

section

variable [StringHash]

/-- Whatever does not exist is noticed. -/
theorem Dangles.execute (h : m.Dangles i cause) (hm : m.top ≤ stackSize) :
    ∃ m', MachineM.execute i m = .error (.malformed cause) m' := by
  cases h with
  | constant hk =>
      simp only [MachineM.execute, MachineM.bind_apply, MachineM.get_apply,
        Array.getElem?_eq_none_iff.mpr hk]
      exact ⟨_, rfl⟩
  | closure hk =>
      simp only [MachineM.execute, MachineM.pushClosure, MachineM.bind_apply, MachineM.get_apply,
        Array.getElem?_eq_none_iff.mpr hk]
      exact ⟨_, rfl⟩
  | getBuiltin hk =>
      simp only [MachineM.execute, Builtin.ofIndex?, List.getElem?_eq_none_iff.mpr hk]
      exact ⟨_, rfl⟩
  | getLocal hk =>
      simp only [MachineM.execute, MachineM.bind_apply, MachineM.get_apply,
        Vector.getElem?_eq_none_iff.mpr hk]
      exact ⟨_, rfl⟩
  | @setLocal k htop hk =>
      have hslot : ¬ (m.dropped 1).frame.base + k < stackSize := Nat.not_lt.mpr hk
      rw [MachineM.execute, MachineM.pop_bind_apply htop]
      simp only [MachineM.bind_apply, MachineM.get_apply, dif_neg hslot]
      exact ⟨_, rfl⟩
  | @call n closure hcalls hlt =>
      have htop := hcalls.top
      have harguments := hcalls.arguments
      -- the frame would end below the arguments that it is to hold
      have hlow : m.top - n + closure.function.numLocals < m.top := by omega
      have hroom : ¬ stackSize < m.top - n + closure.function.numLocals := by omega
      rw [MachineM.execute_callClosure_eq htop hcalls.callee, if_neg (not_not_intro harguments),
        if_neg (Nat.not_le.mpr hcalls.depth), if_neg hroom, if_pos hlow, ite_self]
      exact ⟨m, rfl⟩

/-- A call whose locals overrun is malformed before it is asked whether the stack has room for them. -/
theorem Overruns.execute (h : m.Overruns i) :
    MachineM.execute i m = .error (.malformed .function) m := by
  obtain ⟨n, closure, rfl, hcalls, hbound⟩ := h
  rw [MachineM.execute_callClosure_eq hcalls.top hcalls.callee,
    if_neg (not_not_intro hcalls.arguments), if_neg (Nat.not_le.mpr hcalls.depth), if_pos hbound]

/-- What comes of an instruction. -/
inductive Acts (m : Machine) (i : Instruction) : EStateM.Result Fault Machine Unit → Prop where
  | executed {m' : Machine} : m.Executed i m' → Acts m i (.ok () m')
  | failed {e : RuntimeError} {n : Nat} : n ≤ i.takes → n ≤ m.top →
      Acts m i (.error (.error e) (m.dropped n))
  | dangles {cause : Malformed} {m' : Machine} : m.Dangles i cause →
      Acts m i (.error (.malformed cause) m')
  | overruns {m' : Machine} : m.Overruns i → Acts m i (.error (.malformed .function) m')

theorem acts_of_executed (h : m.Executed i m') : m.Acts i (MachineM.execute i m) := by
  rw [h.execute_eq]
  exact .executed h

/-- An instruction that refers to what does not exist is malformed. -/
theorem acts_of_dangles (hm : m.top ≤ stackSize) (h : m.Dangles i cause) :
    m.Acts i (MachineM.execute i m) := by
  obtain ⟨m', hexec⟩ := h.execute hm
  rw [hexec]
  exact .dangles h

/-- A failure that takes nothing. -/
theorem acts_of_failed {e : RuntimeError} (h : MachineM.execute i m = .error (.error e) m) :
    m.Acts i (MachineM.execute i m) := by
  rw [h]
  exact .failed (Nat.zero_le _) (Nat.zero_le _)

/-- The topmost value is there, or the stack is empty. -/
theorem acts_of_topmost
    (hunderflow : m.top < 1 → MachineM.execute i m = .error (.error .stackUnderflow) m)
    (hacts : 1 ≤ m.top → m.Acts i (MachineM.execute i m)) : m.Acts i (MachineM.execute i m) := by
  by_cases htop : 1 ≤ m.top
  · exact hacts htop
  · exact acts_of_failed (hunderflow (Nat.lt_of_not_le htop))

/-- An instruction with a result pushes it, fails with its error, or overflows the stack. -/
theorem acts_of_result {r : Except RuntimeError Value} (hm : m.top ≤ stackSize)
    (hr : i.result? m (m.operands i.pops) = some r) (hpops : i.pops ≤ m.top) :
    m.Acts i (MachineM.execute i m) := by
  have htakes : i.takes = i.pops := Instruction.takes_of_target? (pushes_of_result? hr).2.2
  have hdrops := i.drops_le_pops
  have hfailed : ∀ e, m.Acts i (.error (.error e) (m.dropped i.drops)) := fun e =>
    .failed (htakes ▸ hdrops) (Nat.le_trans hdrops hpops)
  cases r with
  | error e =>
      rw [execute_of_result?_error hr hpops]
      exact hfailed e
  | ok v =>
      by_cases hroom : m.top - i.pops < stackSize
      · have hexecuted : m.Executed i (m.replaced i v) := .result hr hpops hroom
        rw [hexecuted.execute_eq]
        exact .executed hexecuted
      · rw [execute_of_overflow hr hpops hm hroom]
        exact hfailed _

/-- Operands are there, or the stack underflows. -/
theorem acts_of_underflow (hm : m.top ≤ stackSize) (htakes : i.takes = i.pops)
    (hr : i.pops ≤ m.top → ∃ r, i.result? m (m.operands i.pops) = some r)
    (hunderflow : m.top < i.pops →
      ∃ n, MachineM.execute i m = .error (.error .stackUnderflow) (m.dropped n) ∧ n ≤ m.top) :
    m.Acts i (MachineM.execute i m) := by
  by_cases hpops : i.pops ≤ m.top
  · obtain ⟨r, hr⟩ := hr hpops
    exact acts_of_result hm hr hpops
  · obtain ⟨n, hexec, hn⟩ := hunderflow (Nat.lt_of_not_le hpops)
    rw [hexec]
    exact .failed (by omega) hn

/-- A call that finds a frame left for it and as many arguments as the closure takes: what becomes of it is
up to the number of locals. -/
theorem acts_of_calls {n : Nat} {closure : Closure} (h : m.Calls n closure) :
    m.Acts (.call n) (MachineM.execute (.call n) m) := by
  have htop := h.top
  have harguments := h.arguments
  rw [MachineM.execute_callClosure_eq htop h.callee, if_neg (not_not_intro harguments),
    if_neg (Nat.not_le.mpr h.depth)]
  split
  · next hbound => exact .overruns ⟨n, closure, rfl, h, hbound⟩
  · next hbound =>
      split
      · exact .failed (Nat.zero_le _) (Nat.zero_le m.top)
      · next hroom =>
          -- the arguments are on the stack already, so the top is lower behind the call than in front of
          -- it if, and only if, there are fewer locals than arguments
          split
          · next hlow => exact .dangles (.call h (by omega))
          · next hlow =>
              exact .executed (.call htop h.callee harguments (by omega) (Nat.lt_of_not_le hbound) h.depth
                (Nat.le_of_not_lt hroom))

/-- The checks of a call, one after the other. -/
theorem acts_callClosure {n : Nat} {closure : Closure} (htop : n + 1 ≤ m.top)
    (hcallee : m.slot (m.top - 1 - n) = closure.toValue) :
    m.Acts (.call n) (MachineM.execute (.call n) m) := by
  have hexec := MachineM.execute_callClosure_eq htop hcallee
  by_cases harguments : n = closure.function.numParameters
  · by_cases hdepth : m.callers.length + 1 < maxFrames
    · exact acts_of_calls ⟨htop, hcallee, harguments, hdepth⟩
    · rw [if_neg (not_not_intro harguments), if_pos (Nat.le_of_not_lt hdepth)] at hexec
      exact acts_of_failed hexec
  · rw [if_pos harguments] at hexec
    exact acts_of_failed hexec

/-- A call finds a closure, a built-in function, another value, or no value at all. -/
theorem acts_call {n : Nat} (hm : m.top ≤ stackSize) :
    m.Acts (.call n) (MachineM.execute (.call n) m) := by
  by_cases hpops : n + 1 ≤ m.top
  · cases hcallee : m.slot (m.top - 1 - n) with
    | closure identity f free => exact @acts_callClosure m _ n ⟨identity, f, free⟩ hpops hcallee
    | _ =>
        have hr : ∃ r, (Instruction.call n).result? m (m.operands (n + 1)) = some r := by
          rw [operands_succ m n hpops, hcallee]
          exact ⟨_, rfl⟩
        obtain ⟨r, hr⟩ := hr
        exact acts_of_result hm hr hpops
  · exact acts_of_failed (MachineM.call_underflow (Nat.lt_of_not_le hpops))

/-- A closure is made of a function among the constants. -/
theorem acts_closure {k n : Nat} (hm : m.top ≤ stackSize) :
    m.Acts (.closure k n) (MachineM.execute (.closure k n) m) := by
  cases hk : m.bytecode.constants[k]? with
  | none => exact acts_of_dangles hm (.closure (Array.getElem?_eq_none_iff.mp hk))
  | some v =>
      have hexec : MachineM.execute (.closure k n) m = MachineM.pushClosure k n m := rfl
      simp only [MachineM.pushClosure, MachineM.bind_apply, MachineM.get_apply, hk] at hexec
      cases v with
      | compiledFunction f =>
          by_cases hpops : n ≤ m.top
          · have hr : (Instruction.closure k n).result? m (m.operands n) =
                some (.ok (.closure m.nextIdentity f (m.operands n))) := by
              simp only [Instruction.result?, hk]
            exact acts_of_result hm hr hpops
          · simp only [MachineM.bind_apply, MachineM.popMany_underflow (Nat.lt_of_not_le hpops)] at hexec
            exact acts_of_failed hexec
      | _ => exact acts_of_failed hexec

/-- A return ends the call or the main program. -/
theorem Bounded.acts_return {v : Value} (h : m.Bounded) (hv : i.returned? m = some v)
    (hpops : i.pops ≤ m.top) : m.Acts i (MachineM.execute i m) := by
  cases hcallers : m.callers with
  | nil => exact acts_of_executed (.ended hv hpops hcallers)
  | cons caller callers =>
      have hframes := h.frames
      rw [hcallers] at hframes
      obtain ⟨-, hpos, hle, -⟩ := hframes
      exact acts_of_executed (.left hv hpops hcallers (by omega))

/-- **What comes of an instruction**: it is executed, it fails and takes at most its operands, or it refers
to what does not exist. -/
theorem Bounded.acts (h : m.Bounded) (i : Instruction) : m.Acts i (MachineM.execute i m) := by
  have hm := h.top
  cases i with
  | constant k =>
      cases hk : m.bytecode.constants[k]? with
      | none => exact acts_of_dangles hm (.constant (Array.getElem?_eq_none_iff.mp hk))
      | some v => exact acts_of_result hm (congrArg (Option.map Except.ok) hk) (Nat.zero_le _)
  | true | false | null => exact acts_of_result hm rfl (Nat.zero_le _)
  | getGlobal k => exact acts_of_result hm rfl (Nat.zero_le _)
  | getLocal k =>
      cases hk : m.stack[m.frame.base + k]? with
      | none => exact acts_of_dangles hm (.getLocal (Vector.getElem?_eq_none_iff.mp hk))
      | some v => exact acts_of_result hm (congrArg (Option.map Except.ok) hk) (Nat.zero_le _)
  | getBuiltin k =>
      cases hk : Builtin.ofIndex? k with
      | none => exact acts_of_dangles hm (.getBuiltin (List.getElem?_eq_none_iff.mp hk))
      | some b =>
          have hr : (Instruction.getBuiltin k).result? m [] = some (.ok (.builtin b)) := by
            simp only [Instruction.result?, hk, Option.map_some]
          exact acts_of_result hm hr (Nat.zero_le _)
  | getFree k =>
      cases hr : (Instruction.getFree k).result? m [] with
      | some r => exact acts_of_result hm hr (Nat.zero_le _)
      | none =>
          refine acts_of_failed (MachineM.getFree_missing fun closure hclosure => ?_)
          simpa [Instruction.result?, hclosure] using hr
  | currentClosure =>
      cases hr : Instruction.currentClosure.result? m [] with
      | some r => exact acts_of_result hm hr (Nat.zero_le _)
      | none => exact acts_of_failed (MachineM.currentClosure_missing (Option.map_eq_none_iff.mp hr))
  | add | sub | mul | div | equal | notEqual | greaterThan | index =>
      -- if there is one operand only, it is taken before the other one is missed
      exact acts_of_underflow hm rfl
        (fun hpops => ⟨_, congrArg (Instruction.result? _ m) (operands_two m hpops)⟩)
        fun hlt => ⟨_, MachineM.pop_pop_underflow hlt, Nat.le_refl _⟩
  | bang | minus =>
      exact acts_of_underflow hm rfl (fun _ => ⟨_, rfl⟩)
        fun hlt => ⟨_, MachineM.pop_bind_underflow hlt, Nat.zero_le _⟩
  | array n | hash n =>
      exact acts_of_underflow hm rfl (fun _ => ⟨_, rfl⟩)
        fun hlt => ⟨_, MachineM.popMany_bind_underflow hlt, Nat.zero_le _⟩
  | call n => exact acts_call hm
  | closure k n => exact acts_closure hm
  | jump target => exact acts_of_executed .jump
  | pop =>
      exact acts_of_topmost MachineM.execute_pop_underflow fun htop => acts_of_executed (.pop htop)
  | jumpNotTruthy target =>
      exact acts_of_topmost MachineM.pop_bind_underflow fun htop => acts_of_executed (.jumpNotTruthy htop)
  | setGlobal k =>
      exact acts_of_topmost MachineM.pop_bind_underflow fun htop => acts_of_executed (.setGlobal htop)
  | setLocal k =>
      refine acts_of_topmost MachineM.pop_bind_underflow fun htop => ?_
      by_cases hk : m.frame.base + k < stackSize
      · exact acts_of_executed (.setLocal htop hk)
      · exact acts_of_dangles hm (.setLocal htop (Nat.le_of_not_lt hk))
  | «return» => exact h.acts_return rfl (Nat.zero_le _)
  | returnValue =>
      exact acts_of_topmost MachineM.pop_bind_underflow fun htop => h.acts_return rfl htop

/-! ## Steps

A step decodes first. So a machine can also be at the end of its code, at a byte that is no operation, or at
operands that are cut off. -/

/-- Why the next step is malformed, if there is a reason: the operands are cut off by the end of the code, or
the instruction refers to what does not exist. -/
inductive Flawed (m : Machine) : Malformed → Prop where
  | operand {op : Opcode} : m.code[m.frame.ip]? = some op.toByte →
      m.code.size < m.frame.ip + op.length → Flawed m .operand
  | dangles {i : Instruction} {next : Nat} {cause : Malformed} :
      decode m.code m.frame.ip = .instruction i next → m.Dangles i cause → Flawed m cause

/-- The next step enters a closure with so many locals that the slot behind them has no number. -/
def OverrunsNext (m : Machine) : Prop :=
  ∃ i next, decode m.code m.frame.ip = .instruction i next ∧ m.Overruns i

/-- How a machine steps, whatever its code is. -/
inductive Stepped (m : Machine) : EStateM.Result Fault Machine Bool → Prop where
  | finished : m.code.size ≤ m.frame.ip → Stepped m (.ok false m)
  | unknown {byte : UInt8} : decode m.code m.frame.ip = .unknown byte →
      Stepped m (.error (.error (.unknownOpcode byte)) (m.jumped (m.frame.ip + 1)))
  | executed {i : Instruction} {m' : Machine} :
      decode m.code m.frame.ip = .instruction i (m.frame.ip + i.size) →
      (m.jumped (m.frame.ip + i.size)).Executed i m' → Stepped m (.ok true m')
  | failed {i : Instruction} {e : RuntimeError} {n : Nat} :
      decode m.code m.frame.ip = .instruction i (m.frame.ip + i.size) → n ≤ i.takes → n ≤ m.top →
      Stepped m (.error (.error e) ((m.jumped (m.frame.ip + i.size)).dropped n))
  | flawed {cause : Malformed} {m' : Machine} : m.Flawed cause →
      Stepped m (.error (.malformed cause) m')
  | overruns {m' : Machine} : m.OverrunsNext → Stepped m (.error (.malformed .function) m')

/-- **Steps**: all that a step can do, whatever the code is. -/
theorem Bounded.stepped (h : m.Bounded) : m.Stepped (MachineM.step m) := by
  have hspec := decode_spec m.code m.frame.ip
  generalize hdecode : decode m.code m.frame.ip = decoded at hspec
  cases hspec with
  | finished hend =>
      rw [MachineM.step_finished hdecode]
      exact .finished hend
  | unknown _ _ =>
      simp only [MachineM.step, MachineM.bind_apply, MachineM.get_apply, hdecode]
      exact .unknown hdecode
  | truncated hbyte hcut =>
      simp only [MachineM.step, MachineM.bind_apply, MachineM.get_apply, hdecode]
      exact .flawed (.operand hbyte hcut)
  | @instruction i _ _ _ =>
      rw [MachineM.step_of_decode hdecode]
      have hacts := (h.jumped (m.frame.ip + i.size)).acts i
      generalize MachineM.execute i (m.jumped (m.frame.ip + i.size)) = r at hacts
      cases hacts with
      | executed hexecuted => exact .executed hdecode hexecuted
      | failed htakes htop => exact .failed hdecode htakes htop
      | dangles hdangles => exact .flawed (.dangles hdecode (dangles_jumped_iff.mp hdangles))
      | overruns hoverruns => exact .overruns ⟨i, _, hdecode, overruns_jumped_iff.mp hoverruns⟩

/-- A flaw ends the step at once. -/
theorem Flawed.step (h : m.Flawed cause) (hm : m.top ≤ stackSize) :
    ∃ m', MachineM.step m = .error (.malformed cause) m' := by
  cases h with
  | operand hbyte hcut =>
      have hdecode := decode_truncated_iff.mpr ⟨_, hbyte, hcut⟩
      simp only [MachineM.step, MachineM.bind_apply, MachineM.get_apply, hdecode]
      exact ⟨m, rfl⟩
  | @dangles i next _ hdecode hdangles =>
      obtain ⟨m', hexec⟩ := (hdangles.jumped next).execute hm
      rw [MachineM.step_of_decode hdecode, hexec]
      exact ⟨m', rfl⟩

theorem OverrunsNext.step (h : m.OverrunsNext) :
    ∃ m', MachineM.step m = .error (.malformed .function) m' := by
  obtain ⟨i, next, hdecode, hoverruns⟩ := h
  rw [MachineM.step_of_decode hdecode, (hoverruns.jumped next).execute]
  exact ⟨_, rfl⟩

/-- The next step is malformed if the code refers to what does not exist, and only then. -/
theorem Bounded.step_malformed_iff (h : m.Bounded) (cause : Malformed) :
    (∃ m', MachineM.step m = .error (.malformed cause) m') ↔
      m.Flawed cause ∨ cause = .function ∧ m.OverrunsNext := by
  constructor
  · rintro ⟨m', hstep⟩
    have hstepped := h.stepped
    rw [hstep] at hstepped
    cases hstepped with
    | flawed hflawed => exact .inl hflawed
    | overruns hoverruns => exact .inr ⟨rfl, hoverruns⟩
  · rintro (hflawed | ⟨rfl, hoverruns⟩)
    · exact hflawed.step h.top
    · exact hoverruns.step

/-! ## Machines at work -/

/-- A machine comes by a state: it executes instructions, and goes on behind those that fail. -/
inductive Visits (m₀ : Machine) : Machine → Prop where
  | start : Visits m₀ m₀
  | next {m m' : Machine} {more : Bool} : Visits m₀ m → MachineM.step m = .ok more m' → Visits m₀ m'
  | behind {m m' : Machine} {e : RuntimeError} : Visits m₀ m → MachineM.step m = .error (.error e) m' →
      Visits m₀ m'

variable {m₀ : Machine}

theorem Visits.reaches (h : m₀.Visits m) (hreach : m.Reaches m') : m₀.Visits m' := by
  obtain ⟨n, hsteps⟩ := hreach
  induction hsteps with
  | refl => exact h
  | head hstep _ ih => exact ih (h.next hstep)

/-- A run ends in a state that the machine comes by, unless the code is malformed. -/
theorem Visits.run (h : m₀.Visits m) (hend : ∀ cause, m.run.1 ≠ .malformed cause) :
    m₀.Visits m.run.2 := by
  unfold Machine.run at hend ⊢
  have hadvance := advance_spec m.budget m
  generalize MachineM.advance m.budget m = r at hadvance hend ⊢
  cases hadvance with
  -- a run that has been left in the middle has come by the state that it was left in
  | more hsteps => exact h.reaches ⟨_, hsteps⟩
  | finished hreach hstep => exact (h.reaches hreach).next hstep
  | @error e m₁ m' hreach hstep =>
      cases e with
      | error e => exact (h.reaches hreach).behind hstep
      | malformed cause => exact absurd rfl (hend cause)

/-- A machine that is run again and again, whatever its runs end with. -/
def rerun (m : Machine) : Nat → Machine
  | 0 => m
  | n + 1 => (m.rerun n).run.2

/-- Until a run finds malformed code, a machine that is run again and again does nothing but go on. -/
theorem visits_rerun (m : Machine) (n : Nat)
    (hend : ∀ k < n, ∀ cause, (m.rerun k).run.1 ≠ .malformed cause) : m.Visits (m.rerun n) := by
  induction n with
  | zero => exact .start
  | succ n ih =>
      have hn : m.Visits (m.rerun n) := ih fun k hk => hend k (Nat.lt_succ_of_lt hk)
      exact hn.run (hend n (Nat.lt_succ_self n))

/-- **Limits** are kept by every state that a machine comes by. -/
theorem Visits.bounded (h : m₀.Visits m) (h₀ : m₀.Bounded) : m.Bounded := by
  induction h with
  | start => exact h₀
  | next _ hstep ih =>
      have hstepped := ih.stepped
      rw [hstep] at hstepped
      cases hstepped with
      | finished => exact ih
      | executed _ hexecuted => exact (ih.jumped _).executed hexecuted
  | behind _ hstep ih =>
      have hstepped := ih.stepped
      rw [hstep] at hstepped
      cases hstepped with
      | unknown => exact ih.jumped _
      | failed => exact (ih.jumped _).dropped _

/-- Whatever the next instruction subtracts from the pointer to the top of the stack, or from the base of a
frame, is not larger, and the globals that it names exist. -/
structure InRange (m : Machine) (i : Instruction) : Prop where
  executed : ∀ {more m'}, MachineM.step m = .ok more m' → i.takes ≤ m.top
  failed : ∀ {e m'}, MachineM.step m = .error (.error e) m' →
    ∃ n, n ≤ i.takes ∧ m'.top + n = m.top
  base : i.isReturn = true → m.callers ≠ [] → 1 ≤ m.frame.base
  global : ∀ k, i = .getGlobal k ∨ i = .setGlobal k → k < numGlobals

/-- In a machine within its limits, an instruction that is decoded is in range. -/
theorem Bounded.inRange {next : Nat} (h : m.Bounded)
    (hdecode : decode m.code m.frame.ip = .instruction i next) : m.InRange i where
  executed := by
    intro more m' hstep
    have hstepped := h.stepped
    rw [hstep] at hstepped
    cases hstepped with
    | finished hend =>
        rw [Code.decode_of_size_le hend] at hdecode
        cases hdecode
    | executed hdecode' hexecuted =>
        rw [hdecode] at hdecode'
        cases hdecode'
        exact hexecuted.takes_le
  failed := by
    intro e m' hstep
    have hstepped := h.stepped
    rw [hstep] at hstepped
    cases hstepped with
    | unknown hdecode' =>
        rw [hdecode] at hdecode'
        cases hdecode'
    | failed hdecode' htakes htop =>
        rw [hdecode] at hdecode'
        cases hdecode'
        exact ⟨_, htakes, Nat.sub_add_cancel htop⟩
  base := fun _ hcallers => h.base_pos hcallers
  global := by
    rintro k (rfl | rfl)
    · exact (decode_instruction hdecode).2.operand_lt (k, .word) (List.mem_singleton_self _)
    · exact (decode_instruction hdecode).2.operand_lt (k, .word) (List.mem_singleton_self _)

end

/-! ## Main statements -/

variable {bytecode : Bytecode} {globals : Globals} {nextIdentity : Nat}

/-- **Any code** keeps the machine within its limits. A step is malformed exactly where the code refers to
what does not exist, or enters a closure with so many locals that the slot behind them has no number; and no
subtraction goes below zero. -/
theorem Visits.limits [StringHash] (h : Visits { bytecode, globals, nextIdentity } m) :
    m.Bounded ∧
      (∀ cause, (∃ m', MachineM.step m = .error (.malformed cause) m') ↔
        m.Flawed cause ∨ cause = .function ∧ m.OverrunsNext) ∧
      ∀ i next, decode m.code m.frame.ip = .instruction i next → m.InRange i := by
  have hbounded : m.Bounded := h.bounded (.start bytecode globals nextIdentity)
  exact ⟨hbounded, hbounded.step_malformed_iff, fun _ _ hdecode => hbounded.inRange hdecode⟩

/-- A call that finds nothing on the stack, and behind it an instruction that is cut off. -/
def cutBytecode : Bytecode := ⟨#[22, 0, 17], #[]⟩

theorem cutBytecode_limits : ∃ m, Visits { bytecode := cutBytecode } m ∧ m.frame.ip = 2 ∧ m.Bounded ∧
    ∃ m', MachineM.step m = .error (.malformed .operand) m' := by
  have hstep : MachineM.step { bytecode := cutBytecode } =
      .error (.error .stackUnderflow) { bytecode := cutBytecode, frame := { ip := 2 } } := rfl
  have hvisits := Visits.behind .start hstep
  obtain ⟨hbounded, hmalformed, -⟩ := Visits.limits hvisits
  have hflawed : Flawed { bytecode := cutBytecode, frame := { ip := 2 } } .operand :=
    @Flawed.operand _ .getGlobal rfl (by decide)
  exact ⟨_, hvisits, rfl, hbounded, (hmalformed .operand).mpr (.inl hflawed)⟩

/-- A function that asks for more locals than there can be slots. -/
def vastFunction : CompiledFunction where
  code := #[7, 23]
  numLocals := slotBound - 1
  numParameters := 0

/-- Code that makes a closure of `vastFunction` and calls it. -/
def vastBytecode : Bytecode := ⟨#[28, 0, 0, 0, 22, 0], #[.compiledFunction vastFunction]⟩

/-- A call with more locals than have numbers is malformed although all that the code refers to exists. -/
theorem vastBytecode_not_flawed : ∃ m m', Visits { bytecode := vastBytecode } m ∧
    MachineM.step m = .error (.malformed .function) m' ∧ ∀ cause, ¬ m.Flawed cause := by
  let m : Machine := ({ bytecode := vastBytecode, frame := { ip := 4 } } : Machine).replaced
    (.closure 0 0) (Closure.mk 0 vastFunction []).toValue
  have hstep : MachineM.step { bytecode := vastBytecode } = .ok true m := by
    rw [MachineM.step_of_decode (i := .closure 0 0) rfl,
      MachineM.pushClosure_apply (f := vastFunction) (Nat.zero_le _) rfl]
    rfl
  have hdecode : decode m.code m.frame.ip = .instruction (.call 0) 6 := rfl
  have hcallee : m.slot 0 = (Closure.mk 0 vastFunction []).toValue := by
    have hslot : ((Vector.replicate stackSize Value.null).setIfInBounds 0
        (Closure.mk 0 vastFunction []).toValue)[0]? = some (Closure.mk 0 vastFunction []).toValue := by
      simp
    exact congrArg (·.getD .null) hslot
  have hoverruns : m.OverrunsNext :=
    ⟨.call 0, 6, hdecode, 0, ⟨0, vastFunction, []⟩, rfl,
      ⟨Nat.le_refl 1, hcallee, rfl, show 1 < maxFrames by decide⟩,
      show slotBound ≤ 1 - 0 + (slotBound - 1) by decide⟩
  obtain ⟨m', hmalformed⟩ := hoverruns.step
  refine ⟨m, m', Visits.next .start hstep, hmalformed, ?_⟩
  rintro cause (⟨hbyte, hcut⟩ | ⟨hdecode', hdangles⟩)
  · have hcall : m.code[m.frame.ip]? = some Opcode.call.toByte := rfl
    rw [hcall] at hbyte
    rw [← Opcode.toByte_inj (Option.some.inj hbyte)] at hcut
    exact absurd hcut (by decide)
  · rw [hdecode] at hdecode'
    cases hdecode'
    cases hdangles with
    | call hcalls hlt =>
        have hsame := hcallee.symm.trans hcalls.callee
        injection hsame with _ hfunction _
        rw [← hfunction] at hlt
        exact absurd hlt (by decide)

/-- **Failures** change nothing but what the instruction has taken: the operands that it has read, and the
values that it has taken off the stack. Nothing is stored, pushed, called or printed. -/
theorem Visits.failure [StringHash] {e : RuntimeError} (h : Visits { bytecode, globals, nextIdentity } m)
    (hstep : MachineM.step m = .error (.error e) m') :
    (∃ byte, decode m.code m.frame.ip = .unknown byte ∧ e = .unknownOpcode byte ∧
      m' = { m with frame := { m.frame with ip := m.frame.ip + 1 } }) ∨
    ∃ i n, decode m.code m.frame.ip = .instruction i (m.frame.ip + i.size) ∧ n ≤ i.takes ∧ n ≤ m.top ∧
      m' = { m with top := m.top - n, frame := { m.frame with ip := m.frame.ip + i.size } } := by
  have hbounded : m.Bounded := h.bounded (.start bytecode globals nextIdentity)
  have hstepped := hbounded.stepped
  rw [hstep] at hstepped
  cases hstepped with
  | unknown hdecode => exact .inl ⟨_, hdecode, rfl, rfl⟩
  | failed hdecode htakes htop => exact .inr ⟨_, _, hdecode, htakes, htop, rfl⟩

/-- An addition that finds one value only. -/
def loneBytecode : Bytecode := ⟨#[7, 2], #[]⟩

theorem loneBytecode_failure : ∃ m m', Visits { bytecode := loneBytecode } m ∧
    MachineM.step m = .error (.error .stackUnderflow) m' ∧
    ∃ n ≤ m.top, m' = { m with top := m.top - n, frame := { m.frame with ip := 2 } } := by
  let start : Machine := { bytecode := loneBytecode }
  let m : Machine := (start.jumped 1).pushed (.boolean true)
  have hpush : MachineM.step start = .ok true m := by
    have hdecode : decode start.code start.frame.ip = .instruction .true 1 := rfl
    have hexec : MachineM.execute .true (start.jumped 1) = .ok () m :=
      (MachineM.push_apply _ _).trans (if_pos (show 0 < stackSize by decide))
    rw [MachineM.step_of_decode hdecode, hexec]
  have hdecode : decode m.code m.frame.ip = .instruction .add 2 := rfl
  have hadd : MachineM.step m = .error (.error .stackUnderflow) ((m.jumped 2).dropped 1) := by
    have hexec : MachineM.execute .add (m.jumped 2) =
        .error (.error .stackUnderflow) ((m.jumped 2).dropped 1) :=
      MachineM.pop_pop_underflow (show 1 < 2 by decide)
    rw [MachineM.step_of_decode hdecode, hexec]
  have hvisits : Visits { bytecode := loneBytecode } m := .next .start hpush
  refine ⟨m, _, hvisits, hadd, ?_⟩
  rcases Visits.failure hvisits hadd with ⟨byte, hunknown, -⟩ | ⟨i, n, hinstruction, -, htop, hm'⟩
  · rw [hdecode] at hunknown
    cases hunknown
  · rw [hdecode] at hinstruction
    cases hinstruction
    exact ⟨n, htop, hm'⟩

end Machine

end ScriptLang
