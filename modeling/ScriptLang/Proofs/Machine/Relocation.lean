import Mathlib.Data.Nat.Basic
import Mathlib.Order.Basic
import ScriptLang.Proofs.Compiler.Relocation
import ScriptLang.Proofs.Machine.Moves
import ScriptLang.Proofs.Machine.Transitions

/-!
# A machine inside another one

`m.Embedded n h before l` says that the machine `l` is about to do what `m` does. The main program of `m`
stands in that of `l`, but `n` bytes later. The constants of `l` begin with those of `m`, it has put out
`before` already, and its slots from `h` on may hold other values: they are not in use, and none is read
before it is written. Main statements:

* `Machine.Embedded.executed` — both machines execute the next instruction in the same way;
* `Machine.Embedded.steps` and `Machine.Embedded.stops` — so they do to the end.
-/

namespace ScriptLang

/-! ## Frames and slots -/

namespace Frame

/-- How much further the code of a frame stands, if the main program is moved by `n` bytes. -/
def offset (n : Nat) (frame : Frame) : Nat := if frame.closure?.isSome then 0 else n

/-- A frame as it is when the main program stands `n` bytes later. -/
def shift (n : Nat) (frame : Frame) : Frame := { frame with ip := frame.ip + frame.offset n }

end Frame

namespace Machine

section slots

variable {h k : Nat} {stack stack' : Vector Value stackSize}

/-- Slots that are the same stay so when one is stored on both sides. -/
theorem slots_set (hslots : ∀ j < h, stack'[j]?.getD Value.null = stack[j]?.getD .null) (hk : k ≤ h)
    (v : Value) : ∀ j < max h (k + 1),
      (stack'.setIfInBounds k v)[j]?.getD Value.null = (stack.setIfInBounds k v)[j]?.getD .null := by
  intro j hj
  by_cases hjk : j = k
  · subst hjk
    rw [Vector.getElem?_setIfInBounds, Vector.getElem?_setIfInBounds, if_pos rfl, if_pos rfl]
  · rw [slot_setIfInBounds_of_ne v hjk, slot_setIfInBounds_of_ne v hjk]
    exact hslots j (by omega)

/-- What is emptied is empty, and the other slots are as they were. -/
theorem slot_clear (start j : Nat) : ∀ (n : Nat) (stack : Vector Value stackSize),
    (MachineM.clear start n stack)[j]?.getD Value.null =
      if start ≤ j ∧ j < start + n then .null else stack[j]?.getD .null
  | 0, stack => by
      rw [if_neg (by omega)]
      rfl
  | n + 1, stack => by
      rw [MachineM.clear, slot_clear start j n]
      by_cases hlt : start ≤ j ∧ j < start + n
      · rw [if_pos hlt, if_pos (by omega)]
      · rw [if_neg hlt]
        by_cases hj : j = start + n
        · subst hj
          rw [if_pos (by omega), Vector.getElem?_setIfInBounds, if_pos rfl]
          split <;> rfl
        · rw [slot_setIfInBounds_of_ne _ hj, if_neg (by omega)]

theorem slots_clear (hslots : ∀ j < h, stack'[j]?.getD Value.null = stack[j]?.getD .null)
    {start : Nat} (hstart : start ≤ h) (n : Nat) : ∀ j < max h (start + n),
      (MachineM.clear start n stack')[j]?.getD Value.null =
        (MachineM.clear start n stack)[j]?.getD .null := by
  intro j hj
  rw [slot_clear, slot_clear]
  split
  · rfl
  · exact hslots j (by omega)

end slots

/-! ## Embedded machines -/

/-- The machine `l` is about to do what `m` does. -/
structure Embedded (n h : Nat) (before : Output) (m l : Machine) : Prop where
  code : ∃ is, m.bytecode.code.Decodes is ∧ l.bytecode.code.Holds n (Instructions.shift n is)
  constants : m.bytecode.constants.toList <+: l.bytecode.constants.toList
  frame : l.frame = m.frame.shift n
  callers : l.callers = m.callers.map (Frame.shift n)
  top : l.top = m.top
  top_le : m.top ≤ h
  stack : ∀ j < h, l.slot j = m.slot j
  globals : l.globals = m.globals
  nextIdentity : l.nextIdentity = m.nextIdentity
  output : l.output = before ++ m.output

namespace Embedded

variable {n h : Nat} {before : Output} {m m' l : Machine} {i : Instruction} {height : Nat}

theorem base_eq (he : m.Embedded n h before l) : l.frame.base = m.frame.base := by
  rw [he.frame]
  rfl

theorem closure?_eq (he : m.Embedded n h before l) : l.frame.closure? = m.frame.closure? := by
  rw [he.frame]
  rfl

theorem ip_eq (he : m.Embedded n h before l) : l.frame.ip = m.frame.ip + m.frame.offset n := by
  rw [he.frame]
  rfl

/-- A machine that has just been loaded with a part of the code that another one executes. -/
theorem start {b : Bytecode} {is : Instructions} (hdecodes : b.code.Decodes is)
    (hholds : l.bytecode.code.Holds n (Instructions.shift n is))
    (hconstants : b.constants.toList <+: l.bytecode.constants.toList) (hframe : l.frame = { ip := n })
    (hcallers : l.callers = []) (htop : l.top = 0) :
    Embedded n 0 l.output { bytecode := b, globals := l.globals, nextIdentity := l.nextIdentity } l where
  code := ⟨is, hdecodes, hholds⟩
  constants := hconstants
  frame := by
    rw [hframe]
    exact congrArg (fun ip => Frame.mk none ip 0) (Nat.zero_add n).symm
  callers := hcallers
  top := htop
  top_le := Nat.le_refl 0
  stack := fun j hj => absurd hj (Nat.not_lt_zero j)
  globals := rfl
  nextIdentity := rfl
  output := Array.append_empty.symm

/-- Going on at another offset of the running code. -/
theorem jumped (he : m.Embedded n h before l) {ip ip' : Nat} (hip : ip' = ip + m.frame.offset n) :
    (m.jumped ip).Embedded n h before (l.jumped ip') := by
  refine { he with frame := ?_ }
  show { l.frame with ip := ip' } = Frame.shift n { m.frame with ip }
  rw [he.frame, hip]
  rfl

/-- **The next instruction** is the same, but for the target of a jump. -/
theorem decode (he : m.Embedded n h before l) (hrunning : m.Running height)
    (hdecode : ScriptLang.decode m.code m.frame.ip = .instruction i (m.frame.ip + i.size)) :
    ScriptLang.decode l.code l.frame.ip =
      .instruction (i.shift (m.frame.offset n)) (l.frame.ip + (i.shift (m.frame.offset n)).size) := by
  cases hclosure : m.frame.closure? with
  | some closure =>
      have hcode : l.code = m.code := by
        rw [Machine.code, Machine.code, he.closure?_eq, hclosure]
      have hoffset : m.frame.offset n = 0 := by
        rw [Frame.offset, hclosure]
        rfl
      rw [he.ip_eq, hoffset, Instruction.shift_zero, hcode]
      exact hdecode
  | none =>
      have hoffset : m.frame.offset n = n := by
        rw [Frame.offset, hclosure]
        rfl
      have hcode' : l.code = l.bytecode.code := by
        rw [Machine.code, he.closure?_eq, hclosure]
      obtain ⟨is, hdecodes, hholds⟩ := he.code
      obtain ⟨post, hat⟩ := hrunning.at_main hdecodes hclosure
      obtain ⟨rest, rfl⟩ := next_of_decode hat hdecode
      obtain ⟨pre, hpre, hip, -⟩ := hat.reached
      rw [hpre, Instructions.shift_append, Instructions.shift_cons] at hholds
      have hnext := hholds.right.decode
      rw [Instructions.size_shift, ← hip, Nat.add_comm n] at hnext
      rw [he.ip_eq, hoffset, hcode']
      exact hnext

theorem slot_eq (he : m.Embedded n h before l) {k : Nat} (hk : k < m.top) : l.slot k = m.slot k :=
  he.stack k (Nat.lt_of_lt_of_le hk he.top_le)

theorem operands_eq (he : m.Embedded n h before l) {k : Nat} (hk : k ≤ m.top) :
    l.operands k = m.operands k := by
  rw [operands, operands, he.top]
  refine List.map_congr_left fun j hj => he.slot_eq ?_
  rw [List.mem_range] at hj
  omega

/-! ## Results -/

/-- An instruction has the same result in both machines. -/
theorem result? [StringHash] (he : m.Embedded n h before l) {vs : List Value} {r : Except RuntimeError Value}
    (hr : i.result? m vs = some r) (hlocal : ∀ k, i = .getLocal k → m.frame.base + k < m.top) :
    i.result? l vs = some r := by
  cases i with
  | constant k =>
      obtain ⟨v, hv, rfl⟩ := Option.map_eq_some_iff.mp hr
      exact Option.map_eq_some_iff.mpr ⟨v, getElem?_of_isPrefix he.constants hv, rfl⟩
  | getGlobal k =>
      rw [Instruction.result?, he.globals]
      exact hr
  | getLocal k =>
      obtain ⟨v, hv, rfl⟩ := Option.map_eq_some_iff.mp hr
      obtain ⟨hlt, -⟩ := Vector.getElem?_eq_some_iff.mp hv
      have hslot : l.slot (m.frame.base + k) = v := by
        rw [he.slot_eq (hlocal k rfl), slot, hv]
        rfl
      refine Option.map_eq_some_iff.mpr ⟨v, ?_, rfl⟩
      rw [he.base_eq, ← hslot, slot, Vector.getElem?_eq_getElem hlt]
      rfl
  | getFree k =>
      rw [Instruction.result?, he.closure?_eq]
      exact hr
  | currentClosure =>
      rw [Instruction.result?, he.closure?_eq]
      exact hr
  | closure k numFree =>
      rw [Instruction.result?] at hr ⊢
      cases hk : m.bytecode.constants[k]? with
      | none => simp [hk] at hr
      | some v =>
          cases v with
          | compiledFunction f =>
              simp only [hk] at hr
              simp only [getElem?_of_isPrefix he.constants hk, he.nextIdentity]
              exact hr
          | _ => simp [hk] at hr
  | _ =>
      -- how the operands are taken apart does not depend on the machine
      rcases vs with _ | ⟨v, _ | ⟨w, _ | ⟨u, vs⟩⟩⟩ <;> exact hr

/-- What was printed before stays in front. -/
theorem print_append (i : Instruction) (vs : List Value) (before output : Output) :
    i.print vs (before ++ output) = before ++ i.print vs output := by
  cases i with
  | call k =>
      cases vs with
      | nil => rfl
      | cons v arguments =>
          cases v with
          | builtin b => cases b <;> first | rfl | exact Array.append_push.symm
          | _ => rfl
  | _ => rfl

theorem returned?_eq (he : m.Embedded n h before l) {v : Value} (hv : i.returned? m = some v)
    (hpops : i.pops ≤ m.top) : i.returned? l = some v := by
  cases i with
  | returnValue =>
      have hone : 1 ≤ m.top := hpops
      rw [Instruction.returned?, he.top, he.slot_eq (by omega)]
      exact hv
  | «return» => exact hv
  | _ => cases hv

/-! ## Execution

One lemma for each way in which an instruction is executed: the embedding machine does the same. -/

variable [StringHash]

/-- What both machines leave, with the slots in use below `h'`. -/
def Answers (n h : Nat) (before : Output) (m' l : Machine) (i : Instruction) : Prop :=
  ∃ l' h', l.Executed i l' ∧ h ≤ h' ∧ 1 ≤ h' ∧ m'.Embedded n h' before l'

theorem executed_result (he : m.Embedded n h before l) {v : Value}
    (hr : i.result? m (m.operands i.pops) = some (.ok v)) (hpops : i.pops ≤ m.top)
    (hroom : m.top - i.pops < stackSize) (hlocal : ∀ k, i = .getLocal k → m.frame.base + k < m.top) :
    Answers n h before (m.replaced i v) l i := by
  have hops := he.operands_eq hpops
  have hle : m.top - i.pops ≤ h := (Nat.sub_le _ _).trans he.top_le
  have hr' : i.result? l (l.operands i.pops) = some (.ok v) := by
    rw [hops]
    exact he.result? hr hlocal
  refine ⟨l.replaced i v, max h (m.top - i.pops + 1), .result hr' ?_ ?_, Nat.le_max_left _ _, by omega,
    { he with top := ?_, top_le := Nat.le_max_right _ _, stack := ?_, nextIdentity := ?_, output := ?_ }⟩
  · rwa [he.top]
  · rwa [he.top]
  · show l.top - i.pops + 1 = m.top - i.pops + 1
    rw [he.top]
  · show ∀ j < _, (l.stack.setIfInBounds (l.top - i.pops) v)[j]?.getD Value.null = _
    rw [he.top]
    exact slots_set he.stack hle v
  · show l.nextIdentity + _ = m.nextIdentity + _
    rw [he.nextIdentity]
  · show i.print (l.operands i.pops) l.output = before ++ i.print (m.operands i.pops) m.output
    rw [hops, he.output, print_append]

theorem executed_call (he : m.Embedded n h before l) {k : Nat} {closure : Closure}
    (hpops : k + 1 ≤ m.top) (hcallee : m.slot (m.top - 1 - k) = closure.toValue)
    (hk : k = closure.function.numParameters) (hlocals : k ≤ closure.function.numLocals)
    (hbound : m.top - k + closure.function.numLocals < slotBound)
    (hdepth : m.callers.length + 1 < maxFrames)
    (hroom : m.top - k + closure.function.numLocals ≤ stackSize) :
    Answers n h before (m.entered closure k) l (.call k) := by
  have htop := he.top
  have htop_le := he.top_le
  have hcallee' : l.slot (l.top - 1 - k) = closure.toValue := by
    rw [htop, he.slot_eq (by omega), hcallee]
  have hdepth' : l.callers.length + 1 < maxFrames := by
    rwa [he.callers, List.length_map]
  refine ⟨l.entered closure k, max h (m.top + (m.top - k + closure.function.numLocals - m.top)),
    .call ?_ hcallee' hk hlocals ?_ hdepth' ?_, Nat.le_max_left _ _, by omega,
    { he with frame := ?_, callers := ?_, top := ?_, top_le := ?_, stack := ?_ }⟩
  · rwa [htop]
  · rwa [htop]
  · rwa [htop]
  · show ({ closure? := some closure, base := l.top - k } : Frame) = _
    rw [htop]
    rfl
  · show l.frame :: l.callers = _
    rw [he.frame, he.callers]
    rfl
  · show l.top - k + _ = m.top - k + _
    rw [htop]
  · show m.top - k + closure.function.numLocals ≤ _
    omega
  · show ∀ j < _, (MachineM.clear l.top (l.top - k + closure.function.numLocals - l.top) l.stack)[j]?.getD
      Value.null = _
    rw [htop]
    exact slots_clear he.stack htop_le _

/-- A return of the main program. Both machines have finished, each at the end of its code. -/
theorem executed_ended (he : m.Embedded n h before l) {v : Value} (hv : i.returned? m = some v)
    (hpops : i.pops ≤ m.top) (hcallers : m.callers = []) (hclosure : m.frame.closure? = none)
    (hsize : l.bytecode.code.size = m.bytecode.code.size + n) :
    ∃ l', l.Executed i l' ∧ Embedded n (max h (m.top - i.pops + 1)) before
      { m.dropped i.pops with
        stack := m.stack.setIfInBounds (m.top - i.pops) v
        frame := { m.frame with ip := m.code.size } } l' := by
  have hle : m.top - i.pops ≤ h := (Nat.sub_le _ _).trans he.top_le
  have hcallers' : l.callers = [] := by
    rw [he.callers, hcallers]
    rfl
  have hcode : m.code = m.bytecode.code := by rw [Machine.code, hclosure]
  have hcode' : l.code = l.bytecode.code := by rw [Machine.code, he.closure?_eq, hclosure]
  refine ⟨_, .ended (he.returned?_eq hv hpops) (by rwa [he.top]) hcallers',
    { he with frame := ?_, top := ?_, top_le := ?_, stack := ?_ }⟩
  · show { l.frame with ip := l.code.size } = Frame.shift n { m.frame with ip := m.code.size }
    rw [hcode, hcode', hsize, he.frame, Frame.shift, Frame.shift, Frame.offset, Frame.offset, hclosure]
    rfl
  · show l.top - i.pops = m.top - i.pops
    rw [he.top]
  · exact hle.trans (Nat.le_max_left _ _)
  · show ∀ j < _, (l.stack.setIfInBounds (l.top - i.pops) v)[j]?.getD Value.null = _
    rw [he.top]
    exact slots_set he.stack hle v

theorem executed_left (he : m.Embedded n h before l) {v : Value} {caller : Frame} {callers : List Frame}
    (hv : i.returned? m = some v) (hpops : i.pops ≤ m.top) (hcallers : m.callers = caller :: callers)
    (hbase : m.frame.base - 1 < stackSize) (hle : m.frame.base ≤ m.top) :
    Answers n h before
      { m with
        stack := m.stack.setIfInBounds (m.frame.base - 1) v
        top := m.frame.base - 1 + 1
        frame := caller
        callers } l i := by
  have htop_le := he.top_le
  have hcallers' : l.callers = caller.shift n :: callers.map (Frame.shift n) := by
    rw [he.callers, hcallers]
    rfl
  refine ⟨_, max h (m.frame.base - 1 + 1), .left (he.returned?_eq hv hpops) (by rwa [he.top]) hcallers'
    (by rwa [he.base_eq]), Nat.le_max_left _ _, by omega,
    { he with
      frame := rfl, callers := rfl, top := ?_, top_le := Nat.le_max_right _ _, stack := ?_ }⟩
  · show l.frame.base - 1 + 1 = m.frame.base - 1 + 1
    rw [he.base_eq]
  · show ∀ j < _, (l.stack.setIfInBounds (l.frame.base - 1) v)[j]?.getD Value.null = _
    rw [he.base_eq]
    exact slots_set he.stack (by omega) v

/-- **Execution**: what the inner machine executes, the outer one executes as well. The end of the main
program is the same in both only if nothing follows in the outer one. -/
theorem executed (he : m.Embedded n h before l) (hexecuted : m.Executed i m') (hpops : i.pops ≤ m.top)
    (hlocal : ∀ k, i = .getLocal k ∨ i = .setLocal k → m.frame.base + k < m.top)
    (hbase : m.frame.base ≤ m.top)
    (hmain : i.isReturn = true → m.callers = [] →
      m.frame.closure? = none ∧ l.bytecode.code.size = m.bytecode.code.size + n) :
    ∃ l' h', l.Executed (i.shift (m.frame.offset n)) l' ∧ h ≤ h' ∧ 1 ≤ h' ∧
      m'.Embedded n h' before l' ∧ (i.isReturn = true → m.callers = [] → m'.top < h') := by
  have htop := he.top
  have htop_le := he.top_le
  -- an instruction that is no jump stays as it is
  have hanswer : i.target? = none → (i.isReturn = true → m.callers ≠ []) → Answers n h before m' l i →
      ∃ l' h', l.Executed (i.shift (m.frame.offset n)) l' ∧ h ≤ h' ∧ 1 ≤ h' ∧
        m'.Embedded n h' before l' ∧ (i.isReturn = true → m.callers = [] → m'.top < h') := by
    rintro htarget hreturn ⟨l', h', hl', hle, hpos, hembedded⟩
    rw [Instruction.shift_of_target? htarget]
    exact ⟨l', h', hl', hle, hpos, hembedded, fun h hnil => absurd hnil (hreturn h)⟩
  cases hexecuted with
  | result hr _ hroom =>
      obtain ⟨-, hreturn, htarget⟩ := pushes_of_result? hr
      refine hanswer htarget (fun h => absurd h (by simp [hreturn])) ?_
      exact he.executed_result hr hpops hroom fun k hk => hlocal k (.inl hk)
  | pop hone =>
      refine hanswer rfl (fun h => by cases h) ⟨_, h, .pop (by rwa [htop]), Nat.le_refl h,
        hone.trans htop_le, { he with top := ?_, top_le := (Nat.sub_le _ _).trans htop_le }⟩
      show l.top - 1 = m.top - 1
      rw [htop]
  | @setGlobal k hone =>
      refine hanswer rfl (fun h => by cases h) ⟨_, h, .setGlobal (by rwa [htop]), Nat.le_refl h,
        hone.trans htop_le,
        { he with top := ?_, top_le := (Nat.sub_le _ _).trans htop_le, globals := ?_ }⟩
      · show l.top - 1 = m.top - 1
        rw [htop]
      · show l.globals.setIfInBounds k (l.slot (l.top - 1)) = _
        rw [htop, he.globals, he.slot_eq (by omega)]
  | @setLocal k hone hslot =>
      have hk := hlocal k (.inr rfl)
      refine hanswer rfl (fun h => by cases h) ⟨_, h, .setLocal (by rwa [htop])
        (by rwa [he.base_eq]), Nat.le_refl h, hone.trans htop_le,
        { he with top := ?_, top_le := (Nat.sub_le _ _).trans htop_le, stack := ?_ }⟩
      · show l.top - 1 = m.top - 1
        rw [htop]
      · show ∀ j < h, (l.stack.setIfInBounds (l.frame.base + k) (l.slot (l.top - 1)))[j]?.getD Value.null = _
        rw [htop, he.base_eq, he.slot_eq (by omega)]
        exact fun j hj => slots_set he.stack (by omega) _ j (by omega)
  | jump =>
      have hone : 1 ≤ m.top := hpops
      exact ⟨_, h, .jump, Nat.le_refl h, hone.trans htop_le, he.jumped rfl, fun h => by cases h⟩
  | @jumpNotTruthy target hone =>
      have hdropped : (m.dropped 1).Embedded n h before (l.dropped 1) := by
        refine { he with top := ?_, top_le := (Nat.sub_le _ _).trans htop_le }
        show l.top - 1 = m.top - 1
        rw [htop]
      refine ⟨_, h, .jumpNotTruthy (by rwa [htop]), Nat.le_refl h, hone.trans htop_le, ?_,
        fun h => by cases h⟩
      rw [htop, he.slot_eq (by omega)]
      split
      · exact hdropped
      · exact hdropped.jumped rfl
  | call hpops hcallee hk hlocals hbound hdepth hroom =>
      refine hanswer rfl (fun h => by cases h) ?_
      exact he.executed_call hpops hcallee hk hlocals hbound hdepth hroom
  | @ended _ v hv _ hcallers =>
      obtain ⟨hclosure, hsize⟩ := hmain (isReturn_of_returned? hv) hcallers
      obtain ⟨l', hl', hembedded⟩ := he.executed_ended hv hpops hcallers hclosure hsize
      refine ⟨l', _, ?_, Nat.le_max_left _ _, by omega, hembedded, fun _ _ => ?_⟩
      · rwa [Instruction.shift_of_target? (by cases i <;> first | rfl | cases hv)]
      · exact Nat.lt_of_lt_of_le (Nat.lt_succ_self _) (Nat.le_max_right _ _)
  | left hv _ hcallers hframe =>
      refine hanswer (by cases i <;> first | rfl | cases hv)
        (fun _ => by rw [hcallers]; exact List.cons_ne_nil _ _) ?_
      exact he.executed_left hv hpops hcallers hframe hbase

/-- What fails in the inner machine fails in the outer one. -/
theorem failed (he : m.Embedded n h before l) {e : RuntimeError} (hfailed : m.Failed i e)
    (hlocal : ∀ k, i = .getLocal k → m.frame.base + k < m.top) : l.Failed i e ∧ i.target? = none := by
  have htop := he.top
  have hslot : ∀ {k : Nat} {v : Value}, k + 1 ≤ m.top → m.slot (m.top - 1 - k) = v →
      l.slot (l.top - 1 - k) = v := by
    intro k v hk hv
    rw [htop, he.slot_eq (by omega), hv]
  have hresult : ∀ {r : Except RuntimeError Value}, i.pops ≤ m.top →
      i.result? m (m.operands i.pops) = some r → i.result? l (l.operands i.pops) = some r := by
    intro r hpops hr
    rw [he.operands_eq hpops]
    exact he.result? hr hlocal
  have hdepth : l.callers.length = m.callers.length := by rw [he.callers, List.length_map]
  cases hfailed with
  | result hr hpops =>
      exact ⟨.result (hresult hpops hr) (by rwa [htop]), (pushes_of_result? hr).2.2⟩
  | overflow hr hpops hroom =>
      exact ⟨.overflow (hresult hpops hr) (by rwa [htop]) (by rwa [htop]), (pushes_of_result? hr).2.2⟩
  | arguments hpops hcallee hlocals hk =>
      exact ⟨.arguments (by rwa [htop]) (hslot hpops hcallee) hlocals hk, rfl⟩
  | frames hpops hcallee hk hlocals hbound hframes =>
      exact ⟨.frames (by rwa [htop]) (hslot hpops hcallee) hk hlocals (by rwa [htop])
        (by rwa [hdepth]), rfl⟩
  | locals hpops hcallee hk hlocals hbound hframes hroom =>
      exact ⟨.locals (by rwa [htop]) (hslot hpops hcallee) hk hlocals (by rwa [htop])
        (by rwa [hdepth]) (by rwa [htop]), rfl⟩

/-! ## Steps -/

omit [StringHash] in
/-- Behind the next instruction. -/
theorem fetched (he : m.Embedded n h before l) (i : Instruction) :
    (m.jumped (m.frame.ip + i.size)).Embedded n h before
      (l.jumped (l.frame.ip + (i.shift (m.frame.offset n)).size)) := by
  apply he.jumped
  rw [he.ip_eq, Instruction.size_shift]
  omega

omit [StringHash] in
/-- A local is below the top of the stack. -/
theorem local_lt (hfetched : m.Fetched height i) {k : Nat} (hi : i = .getLocal k ∨ i = .setLocal k) :
    m.frame.base + k < m.top := by
  have hvalid := hfetched.valid
  have htop := hfetched.running.top
  obtain ⟨numLocals, hnum, hk⟩ : ∃ numLocals, m.frame.numLocals? = some numLocals ∧ k < numLocals := by
    rcases hi with rfl | rfl <;> exact hvalid
  rw [Frame.numLocals, hnum, Option.getD_some] at htop
  omega

/-- **Steps**: if the inner machine steps, so does the outer one. -/
theorem step (hm : m.Safe) (he : m.Embedded n h before l)
    (hmain : m.ReturnsFromMain → l.bytecode.code.size = m.bytecode.code.size + n)
    (hstep : MachineM.step m = .ok true m') :
    ∃ l' h', MachineM.step l = .ok true l' ∧ l'.bytecode = l.bytecode ∧ h ≤ h' ∧ 1 ≤ h' ∧
      m'.Embedded n h' before l' ∧ ((∃ height, m'.Running height) ∨ m'.top < h') := by
  have hcases := hm.step_cases
  rw [hstep] at hcases
  cases hcases with
  | @executed height i _ hfetched hdecode hexecuted =>
      have hrunning := hfetched.running
      have hmain' : i.isReturn = true → m.callers = [] →
          m.frame.closure? = none ∧ l.bytecode.code.size = m.bytecode.code.size + n := by
        intro hreturn hcallers
        have hstacked := hrunning.stacked
        rw [hcallers] at hstacked
        exact ⟨hstacked.1, hmain ⟨hcallers, i, _, hdecode, hreturn⟩⟩
      have htop := hrunning.top
      obtain ⟨l', h', hexecuted', hle, hpos, hembedded, hended⟩ :=
        (he.fetched i).executed hexecuted hfetched.pops_le_top (fun k => local_lt hfetched)
          (show m.frame.base ≤ m.top by omega) hmain'
      refine ⟨l', h', ?_, hexecuted'.bytecode_eq, hle, hpos, hembedded, ?_⟩
      · rw [MachineM.step_of_decode (he.decode hrunning hdecode)]
        have hexec := hexecuted'.execute_eq
        rw [show (m.jumped (m.frame.ip + i.size)).frame.offset n = m.frame.offset n from rfl] at hexec
        rw [hexec]
      · by_cases hreturn : i.isReturn = true ∧ m.callers = []
        · exact .inr (hended hreturn.1 hreturn.2)
        · exact .inl (hfetched.running_of_executed hexecuted
            fun hi hcallers => hreturn ⟨hi, hcallers⟩)

/-- **Runs**: as far as the inner machine gets, the outer one gets. -/
theorem steps {k : Nat} (hsteps : Steps k m m') : ∀ {h : Nat} {l : Machine}, m.Safe →
    m.Embedded n h before l →
    (∀ m₁, m.Reaches m₁ → m₁.ReturnsFromMain → l.bytecode.code.size = m.bytecode.code.size + n) →
    ((∃ height, m.Running height) ∨ m.top < h) →
    ∃ l' h', Steps k l l' ∧ l'.bytecode = l.bytecode ∧ h ≤ h' ∧ (k ≠ 0 → 1 ≤ h') ∧
      m'.Embedded n h' before l' ∧ ((∃ height, m'.Running height) ∨ m'.top < h') := by
  induction hsteps with
  | refl m =>
      intro h l _ he _ hstate
      exact ⟨l, h, .refl l, rfl, Nat.le_refl h, fun hne => absurd rfl hne, he, hstate⟩
  | @head k m m₁ m' hstep hsteps ih =>
      intro h l hm he hmain hstate
      obtain ⟨l₁, h₁, hstep₁, hb', hle₁, hpos₁, he₁, hstate₁⟩ := he.step hm (hmain m (.refl m)) hstep
      obtain ⟨hm₁, hb⟩ := hm.steps (.one hstep)
      have hmain₁ : ∀ m₂, m₁.Reaches m₂ → m₂.ReturnsFromMain →
          l₁.bytecode.code.size = m₁.bytecode.code.size + n := by
        intro m₂ hreach hreturn
        rw [hb, hb']
        exact hmain m₂ (.trans (.step hstep) hreach) hreturn
      obtain ⟨l', h', hsteps', hb'', hle, -, he', hstate'⟩ := ih hm₁ he₁ hmain₁ hstate₁
      exact ⟨l', h', .head hstep₁ hsteps', hb''.trans hb', hle₁.trans hle, fun _ => hpos₁.trans hle,
        he', hstate'⟩

/-- **Ends**: if the inner machine stops, and nothing follows its main program in the outer one, the outer
one stops in the same way. -/
theorem stops (hm : m.Safe) (he : m.Embedded n h before l)
    (hsize : l.bytecode.code.size = m.bytecode.code.size + n) {e : Ending} (hstops : m.Stops e m') :
    ∃ l', l.Stops e l' ∧ l'.globals = m'.globals ∧ l'.nextIdentity = m'.nextIdentity ∧
      l'.output = before ++ m'.output ∧ (e = .finished → l' = l ∧ m' = m) := by
  have hcases := hm.step_cases
  generalize hstep : MachineM.step m = r at hcases
  cases hcases with
  | finished hfinished hcallers hclosure =>
      obtain ⟨rfl, rfl⟩ := hstops.unique (.finished hstep)
      have hcode : m'.code = m'.bytecode.code := by rw [Machine.code, hclosure]
      have hcode' : l.code = l.bytecode.code := by rw [Machine.code, he.closure?_eq, hclosure]
      have hoffset : m'.frame.offset n = n := by
        rw [Frame.offset, hclosure]
        rfl
      have hend := Code.size_le_of_decode hfinished
      refine ⟨l, .finished (MachineM.step_finished (Code.decode_of_size_le ?_)), he.globals,
        he.nextIdentity, he.output, fun _ => ⟨rfl, rfl⟩⟩
      rw [hcode', hsize, he.ip_eq, hoffset, ← hcode]
      exact Nat.add_le_add_right hend n
  | executed => exact absurd hstep hstops.not_step
  | @failed height i error k hfetched hdecode hfailed =>
      obtain ⟨rfl, rfl⟩ := hstops.unique (.failed hstep)
      obtain ⟨hfailed', htarget⟩ := (he.fetched i).failed hfailed fun k hi => local_lt hfetched (.inl hi)
      obtain ⟨j, hexec⟩ := hfailed'.execute_eq
      rw [Instruction.shift_of_target? htarget] at hexec
      refine ⟨(l.jumped (l.frame.ip + i.size)).dropped j, .failed ?_, he.globals, he.nextIdentity,
        he.output, fun h => by cases h⟩
      rw [MachineM.step_of_decode (he.decode hfetched.running hdecode),
        Instruction.shift_of_target? htarget, hexec]

/-- **Whole runs**: if the inner machine stops, and nothing follows its main program in the outer one, the
outer one stops in the same way. At the end of the program both have the same value left. -/
theorem run {k : Nat} {e : Ending} {m₁ : Machine} (hm : m.Safe) (hrunning : ∃ height, m.Running height)
    (he : m.Embedded n h before l) (hsize : l.bytecode.code.size = m.bytecode.code.size + n)
    {is : Instructions} (hdecodes : m.bytecode.code.Decodes is)
    (hheight : Instructions.heightAfter 0 is = 0) (hsteps : Steps k m m₁) (hstops : m₁.Stops e m')
    (hk : e = .finished → k ≠ 0) :
    ∃ l₁ l', l.Reaches l₁ ∧ l₁.Stops e l' ∧ l'.globals = m'.globals ∧
      l'.nextIdentity = m'.nextIdentity ∧ l'.output = before ++ m'.output ∧
      (e = .finished → l'.lastPopped = m'.lastPopped) := by
  obtain ⟨hm₁, hb⟩ := hm.steps hsteps
  obtain ⟨l₁, h', hsteps', hb', -, hpos, he₁, hstate⟩ :=
    he.steps hsteps hm (fun _ _ _ => hsize) (.inl hrunning)
  obtain ⟨l', hstops', hglobals, hidentity, houtput, hend⟩ :=
    he₁.stops hm₁ (by rw [hb, hb']; exact hsize) hstops
  refine ⟨l₁, l', ⟨k, hsteps'⟩, hstops', hglobals, hidentity, houtput, ?_⟩
  rintro rfl
  obtain ⟨rfl, rfl⟩ := hend rfl
  -- the value that is left stands in a slot that the inner machine has used
  have htop : m'.top < h' := by
    rcases hstate with ⟨height, hrunning'⟩ | hlt
    · have hcases := hm₁.step_cases
      generalize hstep : MachineM.step m' = r at hcases
      cases hcases with
      | finished hfinished hcallers hclosure =>
          rw [← hb] at hdecodes
          rw [(hrunning'.top_of_finished hdecodes hclosure hcallers hfinished).1, hheight]
          exact hpos (hk rfl)
      | executed => exact absurd hstep hstops.not_step
      | failed => cases (hstops.unique (.failed hstep)).1
    · exact hlt
  show l'.slot l'.top = m'.slot m'.top
  rw [he₁.top, he₁.stack _ htop]

end Embedded

end Machine

end ScriptLang
