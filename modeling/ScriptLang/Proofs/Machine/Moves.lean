import ScriptLang.Proofs.Machine.Runs

/-!
# Moves of the machine

What a stretch of code does to a machine, as long as it stays in one call. `Machine.Moves` says what every
stretch leaves alone: the slots below the values that it works on, the locals apart. `Machine.Works` is said
of a stretch that neither stores nor calls. Each instruction has a lemma that says how the machine gets
behind it; an instruction that puts a value on the stack may overflow it instead.
-/

namespace ScriptLang

namespace Machine

/-! ## Stretches of code

Stretches of code follow each other, so what one of them does composes (`Moves.trans`, `Works.trans`). The
slot `h` is the level below which nothing may change; a longer stretch guarantees the lowest of the levels of
its parts. -/

section

variable [StringHash]

/-- The machine runs out of stack. -/
def Overflows (m : Machine) : Prop :=
  ∃ m₁ m₂, m.Reaches m₁ ∧ m₁.Stops (.failed .stackOverflow) m₂

/-- A slot holds a local of the running call. -/
def IsLocal (m : Machine) (k : Nat) : Prop :=
  m.frame.base ≤ k ∧ k < m.frame.base + m.frame.numLocals

/-- Some slots one behind the other. -/
def window (m : Machine) (start n : Nat) : List Value := (List.range n).map fun k => m.slot (start + k)

/-- The machine gets to the offset `ip` of the running code. Below the slot `h` it may have stored locals,
and only the main program may have stored globals. -/
structure Moves (h ip : Nat) (m m' : Machine) : Prop where
  reaches : m.Reaches m'
  bytecode : m'.bytecode = m.bytecode
  frame : m'.frame = { m.frame with ip }
  callers : m'.callers = m.callers
  kept : ∀ k < h, ¬ m.IsLocal k → m'.slot k = m.slot k
  globals : m.frame.closure?.isSome = true → m'.globals = m.globals

/-- The machine gets to the offset `ip` of the running code, and nothing has been stored on the way. -/
structure Works (h ip : Nat) (m m' : Machine) : Prop where
  reaches : m.Reaches m'
  bytecode : m'.bytecode = m.bytecode
  frame : m'.frame = { m.frame with ip }
  callers : m'.callers = m.callers
  kept : ∀ k < h, m'.slot k = m.slot k
  globals : m'.globals = m.globals

end

variable {h h₁ ip ip₁ : Nat} {m m₁ m₂ : Machine}

section

variable [StringHash]

/-- A machine that will overflow the stack may have done something before. -/
theorem Overflows.of_reaches (hreach : m.Reaches m₁) (hover : m₁.Overflows) : m.Overflows := by
  obtain ⟨m₂, m₃, hreach₂, hstops⟩ := hover
  exact ⟨m₂, m₃, hreach.trans hreach₂, hstops⟩

theorem Works.moves (hw : Works h ip m m₁) : Moves h ip m m₁ :=
  ⟨hw.reaches, hw.bytecode, hw.frame, hw.callers, fun k hk _ => hw.kept k hk, fun _ => hw.globals⟩

theorem Works.refl (h : Nat) (m : Machine) : Works h m.frame.ip m m :=
  ⟨.refl m, rfl, rfl, rfl, fun _ _ => rfl, rfl⟩

theorem Moves.refl (h : Nat) (m : Machine) : Moves h m.frame.ip m m := (Works.refl h m).moves

theorem Moves.numLocals_eq (hm : Moves h ip m m₁) : m₁.frame.numLocals = m.frame.numLocals := by
  rw [hm.frame]
  rfl

theorem Moves.base_eq (hm : Moves h ip m m₁) : m₁.frame.base = m.frame.base := by
  rw [hm.frame]

theorem Moves.closure?_eq (hm : Moves h ip m m₁) : m₁.frame.closure? = m.frame.closure? := by
  rw [hm.frame]

theorem Moves.code_eq (hm : Moves h ip m m₁) : m₁.code = m.code := by
  rw [code, code, hm.frame, hm.bytecode]

theorem Moves.ip_eq (hm : Moves h ip m m₁) : m₁.frame.ip = ip := by
  rw [hm.frame]

/-- A machine that has moved finds what stands in the code where it has got to. -/
theorem Moves.holds {is : Instructions} (hm : Moves h ip m m₁) (hholds : m.code.Holds ip is) :
    m₁.code.Holds m₁.frame.ip is := by
  rw [hm.code_eq, hm.ip_eq]
  exact hholds

/-- The call that runs stays the same, and so do the slots of its locals. -/
theorem Moves.isLocal_iff (hm : Moves h ip m m₁) (k : Nat) : m₁.IsLocal k ↔ m.IsLocal k := by
  rw [IsLocal, IsLocal, hm.base_eq, hm.numLocals_eq]

/-- One stretch behind another. -/
theorem Moves.trans (hm : Moves h ip m m₁) (hm₁ : Moves h₁ ip₁ m₁ m₂) (hle : h ≤ h₁) :
    Moves h ip₁ m m₂ where
  reaches := hm.reaches.trans hm₁.reaches
  bytecode := hm₁.bytecode.trans hm.bytecode
  frame := by rw [hm₁.frame, hm.frame]
  callers := hm₁.callers.trans hm.callers
  kept := by
    intro k hk hlocal
    rw [hm₁.kept k (Nat.lt_of_lt_of_le hk hle) (mt (hm.isLocal_iff k).mp hlocal), hm.kept k hk hlocal]
  globals := by
    intro hsome
    rw [hm₁.globals (by rw [hm.closure?_eq]; exact hsome), hm.globals hsome]

theorem Works.trans (hw : Works h ip m m₁) (hw₁ : Works h₁ ip₁ m₁ m₂) (hle : h ≤ h₁) :
    Works h ip₁ m m₂ where
  reaches := hw.reaches.trans hw₁.reaches
  bytecode := hw₁.bytecode.trans hw.bytecode
  frame := by rw [hw₁.frame, hw.frame]
  callers := hw₁.callers.trans hw.callers
  kept := fun k hk => by rw [hw₁.kept k (Nat.lt_of_lt_of_le hk hle), hw.kept k hk]
  globals := hw₁.globals.trans hw.globals

theorem Moves.mono (hm : Moves h₁ ip m m₁) (hle : h ≤ h₁) : Moves h ip m m₁ :=
  ⟨hm.reaches, hm.bytecode, hm.frame, hm.callers, fun k hk => hm.kept k (Nat.lt_of_lt_of_le hk hle),
    hm.globals⟩

theorem Works.mono (hw : Works h₁ ip m m₁) (hle : h ≤ h₁) : Works h ip m m₁ :=
  ⟨hw.reaches, hw.bytecode, hw.frame, hw.callers, fun k hk => hw.kept k (Nat.lt_of_lt_of_le hk hle),
    hw.globals⟩

end

/-! ## Windows

Several values that stand one behind the other are the operands of one instruction, while code that computes
them puts them down one by one. Windows are what both views share. -/

@[simp] theorem length_window (m : Machine) (start n : Nat) : (m.window start n).length = n := by
  simp [window]

theorem operands_eq_window (m : Machine) (n : Nat) : m.operands n = m.window (m.top - n) n := rfl

/-- A window in two parts. -/
theorem window_add (m : Machine) (start a b : Nat) :
    m.window start (a + b) = m.window start a ++ m.window (start + a) b := by
  rw [window, window, window, List.range_add, List.map_append, List.map_map]
  congr 1
  apply List.map_congr_left
  intro k _
  show m.slot (start + (a + k)) = m.slot (start + a + k)
  rw [Nat.add_assoc]

theorem window_one (m : Machine) (start : Nat) : m.window start 1 = [m.slot start] := rfl

/-- A window depends on its slots alone. -/
theorem window_congr {start n : Nat} (hkept : ∀ k, start ≤ k → k < start + n → m₁.slot k = m.slot k) :
    m₁.window start n = m.window start n := by
  apply List.map_congr_left
  intro k hk
  rw [List.mem_range] at hk
  exact hkept (start + k) (Nat.le_add_right _ _) (Nat.add_lt_add_left hk start)

theorem getElem?_window {start n k : Nat} (hk : k < n) : (m.window start n)[k]? = some (m.slot (start + k)) := by
  rw [window, List.getElem?_map, List.getElem?_range hk]
  rfl

/-! ## Slots -/

/-- A slot that is stored holds the value. -/
theorem slot_setIfInBounds_self {stack : Vector Value stackSize} {k : Nat} (v : Value)
    (hk : k < stackSize) : (stack.setIfInBounds k v)[k]?.getD .null = v := by
  rw [Vector.getElem?_setIfInBounds_self_of_lt hk]
  rfl

theorem slot_setIfInBounds_of_ne {stack : Vector Value stackSize} {j k : Nat} (v : Value)
    (hne : j ≠ k) : (stack.setIfInBounds k v)[j]?.getD .null = stack[j]?.getD .null := by
  rw [Vector.getElem?_setIfInBounds_ne (Ne.symm hne)]

/-! ## Single instructions

Where the code holds an instruction, a step of the machine is what that instruction does. For each kind of
instruction there is one lemma that says where the machine gets to and what it leaves alone. -/

section

variable [StringHash] {i : Instruction} {is : Instructions}

/-- A step decodes the instruction that stands in the code, and executes it. -/
theorem step_eq (hholds : m.code.Holds m.frame.ip (i :: is)) :
    MachineM.step m = match MachineM.execute i (m.jumped (m.frame.ip + i.size)) with
      | .ok _ m' => .ok true m'
      | .error e m' => .error e m' :=
  MachineM.step_of_decode hholds.decode

/-- What an instruction leads to is reached. -/
theorem reaches_of_execute (hholds : m.code.Holds m.frame.ip (i :: is))
    (hexecute : MachineM.execute i (m.jumped (m.frame.ip + i.size)) = .ok () m₁) : m.Reaches m₁ := by
  apply Reaches.step
  rw [step_eq hholds, hexecute]

/-- An instruction that finds the stack full overflows it. -/
theorem overflows_of_execute (hholds : m.code.Holds m.frame.ip (i :: is))
    (hexecute : MachineM.execute i (m.jumped (m.frame.ip + i.size)) =
      .error (.error .stackOverflow) m₁) : m.Overflows := by
  refine ⟨m, m₁, .refl m, .failed ?_⟩
  rw [step_eq hholds, hexecute]

/-- What an instruction yields does not depend on where the next one is. -/
theorem result?_jumped (i : Instruction) (m : Machine) (offset : Nat) (vs : List Value) :
    i.result? (m.jumped offset) vs = i.result? m vs := by
  cases i <;> rfl

/-- What executing an instruction with a result comes to. -/
theorem execute_jumped_result {w : Value} (hresult : i.result? m (m.operands i.pops) = some (.ok w))
    (hpops : i.pops ≤ m.top) : ∃ n,
      MachineM.execute i (m.jumped (m.frame.ip + i.size)) =
        if m.top - i.pops < stackSize then .ok () ((m.jumped (m.frame.ip + i.size)).replaced i w)
        else .error (.error .stackOverflow) ((m.jumped (m.frame.ip + i.size)).dropped n) := by
  have hjumped : i.result? (m.jumped (m.frame.ip + i.size))
      ((m.jumped (m.frame.ip + i.size)).operands i.pops) = some (.ok w) := by
    rw [result?_jumped]
    exact hresult
  exact MachineM.execute_result hjumped hpops

/-- **An instruction with a result** puts it in the place of its operands if there is room. -/
theorem works_of_room {w : Value} (hholds : m.code.Holds m.frame.ip (i :: is))
    (hresult : i.result? m (m.operands i.pops) = some (.ok w)) (hpops : i.pops ≤ m.top)
    (hroom : m.top - i.pops < stackSize) :
    ∃ m', Works (m.top - i.pops) (m.frame.ip + i.size) m m' ∧
      m'.top = m.top - i.pops + 1 ∧ m'.slot (m.top - i.pops) = w ∧ m'.top ≤ stackSize ∧
      m'.output = i.print (m.operands i.pops) m.output ∧
      m'.nextIdentity = m.nextIdentity + i.closuresMade := by
  obtain ⟨n, hexecute⟩ := execute_jumped_result hresult hpops
  rw [if_pos hroom] at hexecute
  refine ⟨_, ⟨reaches_of_execute hholds hexecute, rfl, rfl, rfl, ?_, rfl⟩, rfl, ?_, ?_, rfl, rfl⟩
  · intro k hk
    exact slot_setIfInBounds_of_ne w (Nat.ne_of_lt hk)
  · exact slot_setIfInBounds_self w hroom
  · exact hroom

/-- Without room it overflows the stack. -/
theorem works_of_result {w : Value} (hholds : m.code.Holds m.frame.ip (i :: is))
    (hresult : i.result? m (m.operands i.pops) = some (.ok w)) (hpops : i.pops ≤ m.top) :
    m.Overflows ∨ ∃ m', Works (m.top - i.pops) (m.frame.ip + i.size) m m' ∧
      m'.top = m.top - i.pops + 1 ∧ m'.slot (m.top - i.pops) = w ∧ m'.top ≤ stackSize ∧
      m'.output = i.print (m.operands i.pops) m.output ∧
      m'.nextIdentity = m.nextIdentity + i.closuresMade := by
  by_cases hroom : m.top - i.pops < stackSize
  · exact .inr (works_of_room hholds hresult hpops hroom)
  · obtain ⟨n, hexecute⟩ := execute_jumped_result hresult hpops
    rw [if_neg hroom] at hexecute
    exact .inl (overflows_of_execute hholds hexecute)

/-- Taking a value off the stack. -/
theorem works_of_pop (hholds : m.code.Holds m.frame.ip (.pop :: is)) (htop : 1 ≤ m.top) :
    ∃ m', Works m.top (m.frame.ip + Instruction.pop.size) m m' ∧ m'.top = m.top - 1 ∧
      m'.output = m.output ∧ m'.nextIdentity = m.nextIdentity := by
  have hexecute := MachineM.execute_pop (m := m.jumped (m.frame.ip + Instruction.pop.size)) htop
  exact ⟨_, ⟨reaches_of_execute hholds hexecute, rfl, rfl, rfl, fun _ _ => rfl, rfl⟩, rfl, rfl, rfl⟩

/-- A jump does nothing but go on elsewhere. -/
theorem works_of_jump {target : Nat} (hholds : m.code.Holds m.frame.ip (.jump target :: is)) :
    ∃ m', Works m.top target m m' ∧ m'.top = m.top ∧ m'.output = m.output ∧
      m'.nextIdentity = m.nextIdentity := by
  have hexecute := MachineM.execute_jump target (m.jumped (m.frame.ip + (Instruction.jump target).size))
  exact ⟨_, ⟨reaches_of_execute hholds hexecute, rfl, rfl, rfl, fun _ _ => rfl, rfl⟩, rfl, rfl, rfl⟩

/-- A conditional jump takes its condition off the stack. -/
theorem works_of_jumpNotTruthy {target : Nat}
    (hholds : m.code.Holds m.frame.ip (.jumpNotTruthy target :: is)) (htop : 1 ≤ m.top) :
    ∃ m', Works m.top (if (m.slot (m.top - 1)).isTruthy
        then m.frame.ip + (Instruction.jumpNotTruthy target).size else target) m m' ∧
      m'.top = m.top - 1 ∧ m'.output = m.output ∧ m'.nextIdentity = m.nextIdentity := by
  have hexecute := @MachineM.execute_jumpNotTruthy _ target
    (m.jumped (m.frame.ip + (Instruction.jumpNotTruthy target).size)) htop
  have hslot : (m.jumped (m.frame.ip + (Instruction.jumpNotTruthy target).size)).slot
      ((m.jumped (m.frame.ip + (Instruction.jumpNotTruthy target).size)).top - 1) =
        m.slot (m.top - 1) := rfl
  rw [hslot] at hexecute
  have hreach := reaches_of_execute hholds hexecute
  cases htruthy : (m.slot (m.top - 1)).isTruthy with
  | true =>
      rw [htruthy] at hreach
      exact ⟨_, ⟨hreach, rfl, rfl, rfl, fun _ _ => rfl, rfl⟩, rfl, rfl, rfl⟩
  | false =>
      rw [htruthy] at hreach
      exact ⟨_, ⟨hreach, rfl, rfl, rfl, fun _ _ => rfl, rfl⟩, rfl, rfl, rfl⟩

/-- A local is stored. -/
theorem moves_of_setLocal {k : Nat} (hholds : m.code.Holds m.frame.ip (.setLocal k :: is))
    (hk : k < m.frame.numLocals) (htop : m.frame.base + m.frame.numLocals ≤ m.top - 1)
    (hle : m.top ≤ stackSize) :
    ∃ m', Moves (m.top - 1) (m.frame.ip + (Instruction.setLocal k).size) m m' ∧ m'.top = m.top - 1 ∧
      m'.slot (m.frame.base + k) = m.slot (m.top - 1) ∧
      (∀ j, j ≠ m.frame.base + k → m'.slot j = m.slot j) ∧ m'.globals = m.globals ∧
      m'.output = m.output ∧ m'.nextIdentity = m.nextIdentity := by
  have hslot : m.frame.base + k < stackSize := by omega
  have hexecute := MachineM.execute_setLocal
    (m := m.jumped (m.frame.ip + (Instruction.setLocal k).size)) (k := k)
    (show 1 ≤ m.top by omega) hslot
  have hother : ∀ j, j ≠ m.frame.base + k →
      (m.stack.setIfInBounds (m.frame.base + k) (m.slot (m.top - 1)))[j]?.getD .null = m.slot j :=
    fun j hj => slot_setIfInBounds_of_ne _ hj
  refine ⟨_, ⟨reaches_of_execute hholds hexecute, rfl, rfl, rfl, ?_, fun _ => rfl⟩, rfl,
    slot_setIfInBounds_self _ hslot, hother, rfl, rfl, rfl⟩
  intro j _ hlocal
  apply hother
  rintro rfl
  exact hlocal ⟨Nat.le_add_right _ _, Nat.add_lt_add_left hk _⟩

/-- A global is stored, which only the main program does. -/
theorem moves_of_setGlobal {k : Nat} (hholds : m.code.Holds m.frame.ip (.setGlobal k :: is))
    (htop : 1 ≤ m.top) (hmain : m.frame.closure? = none) :
    ∃ m', Moves (m.top - 1) (m.frame.ip + (Instruction.setGlobal k).size) m m' ∧
      m'.top = m.top - 1 ∧ (∀ j, m'.slot j = m.slot j) ∧
      m'.globals = m.globals.setIfInBounds k (m.slot (m.top - 1)) ∧
      m'.output = m.output ∧ m'.nextIdentity = m.nextIdentity := by
  have hexecute := MachineM.execute_setGlobal
    (m := m.jumped (m.frame.ip + (Instruction.setGlobal k).size)) (k := k) htop
  refine ⟨_, ⟨reaches_of_execute hholds hexecute, rfl, rfl, rfl, fun _ _ _ => rfl, ?_⟩, rfl,
    fun _ => rfl, rfl, rfl, rfl⟩
  intro hsome
  rw [hmain] at hsome
  cases hsome

/-! ## Calls -/

omit [StringHash] in
/-- Clearing the locals of a call leaves all slots below them alone. -/
theorem getElem?_clear {start : Nat} {j : Nat} (hj : j < start) : ∀ (n : Nat)
    (stack : Vector Value stackSize), (MachineM.clear start n stack)[j]? = stack[j]?
  | 0, _ => rfl
  | n + 1, stack => by
      rw [MachineM.clear, getElem?_clear hj n, Vector.getElem?_setIfInBounds_ne (by omega)]

/-- The machine enters a closure with `n` arguments. It will go on at the offset `ip` of the running code
when the call is over. -/
structure Enters (closure : Closure) (n ip : Nat) (m m' : Machine) : Prop where
  reaches : m.Reaches m'
  bytecode : m'.bytecode = m.bytecode
  frame : m'.frame = { closure? := some closure, base := m.top - n }
  callers : m'.callers = { m.frame with ip } :: m.callers
  top : m'.top = m.top - n + closure.function.numLocals
  top_le : m'.top ≤ stackSize
  kept : ∀ j < m.top, m'.slot j = m.slot j
  globals : m'.globals = m.globals
  output : m'.output = m.output
  nextIdentity : m'.nextIdentity = m.nextIdentity

/-- **A call** enters the closure below the arguments, or it overflows the stack. -/
theorem enters_of_call {n : Nat} {closure : Closure} (hholds : m.code.Holds m.frame.ip (.call n :: is))
    (htop : n + 1 ≤ m.top) (hle : m.top ≤ stackSize)
    (hcallee : m.slot (m.top - 1 - n) = closure.toValue) (hn : n = closure.function.numParameters)
    (hlocals : n ≤ closure.function.numLocals) (hbound : closure.function.numLocals ≤ max n 256)
    (hdepth : m.callers.length + 1 < maxFrames) :
    m.Overflows ∨ ∃ m', Enters closure n (m.frame.ip + (Instruction.call n).size) m m' := by
  have hslots : m.top - n + closure.function.numLocals < slotBound := by
    have hsmall : stackSize + stackSize + 256 < slotBound := by decide
    have hmax : max n 256 ≤ stackSize + 256 := by omega
    omega
  have hexecute := MachineM.execute_callClosure
    (m := m.jumped (m.frame.ip + (Instruction.call n).size)) htop hcallee (hn ▸ hlocals)
    (fun _ => hslots)
  have hframes : ¬ maxFrames ≤
      (m.jumped (m.frame.ip + (Instruction.call n).size)).callers.length + 1 := Nat.not_le.mpr hdepth
  rw [if_neg (not_not_intro hn), if_neg hframes,
    show (m.jumped (m.frame.ip + (Instruction.call n).size)).top = m.top from rfl] at hexecute
  by_cases hroom : stackSize < m.top - n + closure.function.numLocals
  · left
    rw [if_pos hroom] at hexecute
    exact overflows_of_execute hholds hexecute
  · right
    rw [if_neg hroom] at hexecute
    refine ⟨_, reaches_of_execute hholds hexecute, rfl, rfl, rfl, rfl, Nat.le_of_not_lt hroom, ?_,
      rfl, rfl, rfl⟩
    intro j hj
    exact congrArg (Option.getD · Value.null) (getElem?_clear hj _ _)

/-! ## Returns

A call ends in one of two ways. Inside a function, the machine goes on in the caller; in the main program it
has finished, and the result is the value that was taken off the stack last. -/

/-- The machine leaves the running call with a result. It goes on behind the call, with the result in the
place of the closure, or it has ended the main program. -/
structure Returns (w : Value) (m m' : Machine) : Prop where
  reaches : m.Reaches m'
  bytecode : m'.bytecode = m.bytecode
  globals : m.frame.closure?.isSome = true → m'.globals = m.globals
  ended : m.callers = [] →
    m'.callers = [] ∧ m'.frame = { m.frame with ip := m.code.size } ∧ m'.lastPopped = w
  left : ∀ caller callers, m.callers = caller :: callers →
    m'.frame = caller ∧ m'.callers = callers ∧ m'.top = m.frame.base ∧
      m'.slot (m.frame.base - 1) = w ∧ ∀ k < m.frame.base - 1, m'.slot k = m.slot k

/-- Code in front of the instruction that returns. -/
theorem Returns.of_moves {w : Value} (hm : Moves h ip m m₁) (hr : Returns w m₁ m₂)
    (hbase : m.frame.base ≤ h) : Returns w m m₂ where
  reaches := hm.reaches.trans hr.reaches
  bytecode := hr.bytecode.trans hm.bytecode
  globals := by
    intro hsome
    rw [hr.globals (by rw [hm.closure?_eq]; exact hsome), hm.globals hsome]
  ended := by
    intro hcallers
    obtain ⟨hnil, hframe, hlast⟩ := hr.ended (hm.callers.trans hcallers)
    refine ⟨hnil, ?_, hlast⟩
    rw [hframe, hm.frame, hm.code_eq]
  left := by
    intro caller callers hcallers
    obtain ⟨hframe, hrest, htop, hslot, hkept⟩ := hr.left caller callers (hm.callers.trans hcallers)
    rw [hm.base_eq] at htop hslot hkept
    refine ⟨hframe, hrest, htop, hslot, fun k hk => ?_⟩
    rw [hkept k hk, hm.kept k (by omega)]
    exact fun hlocal => absurd hlocal.1 (by omega)

/-- What `returnWith` does, with the state that the instruction leaves it. -/
theorem returns_of_returnWith {i : Instruction} {w : Value} {m₀ : Machine}
    (hholds : m.code.Holds m.frame.ip (i :: is))
    (hexecute : MachineM.execute i (m.jumped (m.frame.ip + i.size)) = MachineM.returnWith w m₀)
    (hsame : m₀ = { m with top := m₀.top, frame := { m.frame with ip := m.frame.ip + i.size } })
    (htop : m₀.top < stackSize ∨ w = .null) (hbase : m.callers ≠ [] → 1 ≤ m.frame.base)
    (hle : m.frame.base ≤ stackSize) :
    ∃ m', Returns w m m' ∧ m'.globals = m.globals ∧ m'.output = m.output ∧
      m'.nextIdentity = m.nextIdentity := by
  cases hcallers : m.callers with
  | nil =>
      have hmain : m₀.callers = [] := by
        rw [hsame]
        exact hcallers
      rw [MachineM.returnWith_main hmain] at hexecute
      have hreach := reaches_of_execute hholds hexecute
      rw [hsame] at hreach
      refine ⟨_, ⟨hreach, rfl, fun _ => rfl, fun _ => ⟨hcallers, rfl, ?_⟩, ?_⟩, rfl, rfl, rfl⟩
      · show (m.stack.setIfInBounds m₀.top w)[m₀.top]?.getD .null = w
        rcases htop with hlt | rfl
        · exact slot_setIfInBounds_self w hlt
        · by_cases hlt : m₀.top < stackSize
          · exact slot_setIfInBounds_self _ hlt
          · rw [Vector.getElem?_eq_none (Nat.le_of_not_lt hlt)]
            rfl
      · intro caller callers hcons
        rw [hcallers] at hcons
        cases hcons
  | cons caller callers =>
      have hpos := hbase (by rw [hcallers]; exact List.cons_ne_nil _ _)
      have hcall : m₀.callers = caller :: callers := by
        rw [hsame]
        exact hcallers
      have hframe : m₀.frame.base = m.frame.base := by rw [hsame]
      rw [MachineM.returnWith_call hcall (by rw [hframe]; omega), hframe] at hexecute
      have hreach := reaches_of_execute hholds hexecute
      rw [hsame] at hreach
      refine ⟨_, ⟨hreach, rfl, fun _ => rfl, ?_, ?_⟩, rfl, rfl, rfl⟩
      · intro hnil
        rw [hcallers] at hnil
        cases hnil
      · intro caller' callers' hcons
        rw [hcallers] at hcons
        cases hcons
        refine ⟨rfl, rfl, Nat.sub_add_cancel hpos, slot_setIfInBounds_self w (by omega), ?_⟩
        intro k hk
        exact slot_setIfInBounds_of_ne w (Nat.ne_of_lt hk)

/-- Returning the value on top of the stack. -/
theorem returns_of_returnValue (hholds : m.code.Holds m.frame.ip (.returnValue :: is))
    (htop : 1 ≤ m.top) (hle : m.top ≤ stackSize) (hbase : m.callers ≠ [] → 1 ≤ m.frame.base)
    (hroom : m.frame.base ≤ m.top) :
    ∃ m', Returns (m.slot (m.top - 1)) m m' ∧ m'.globals = m.globals ∧ m'.output = m.output ∧
      m'.nextIdentity = m.nextIdentity := by
  have hexecute := MachineM.execute_returnValue
    (m := m.jumped (m.frame.ip + Instruction.returnValue.size)) htop
  refine returns_of_returnWith hholds hexecute rfl (.inl ?_) hbase (Nat.le_trans hroom hle)
  show m.top - 1 < stackSize
  omega

/-- Returning `null`. -/
theorem returns_of_return (hholds : m.code.Holds m.frame.ip (.return :: is))
    (hle : m.top ≤ stackSize) (hbase : m.callers ≠ [] → 1 ≤ m.frame.base)
    (hroom : m.frame.base ≤ m.top) :
    ∃ m', Returns .null m m' ∧ m'.globals = m.globals ∧ m'.output = m.output ∧
      m'.nextIdentity = m.nextIdentity :=
  returns_of_returnWith hholds (MachineM.execute_return _) rfl (.inr rfl) hbase
    (Nat.le_trans hroom hle)

end

end Machine

end ScriptLang
