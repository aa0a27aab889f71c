import ScriptLang.Proofs.Machine.Values

/-!
# Frames of compiled code

`Routine` collects what is known of the code of a function or of the main program. `Frame.Typed` says
that a frame is about to execute one of its instructions with the stack height that belongs there.
Main statement: `Frame.Typed.next` — such a frame finds an instruction that it can execute, unless it is
the main program at its end, and is typed again wherever that instruction leads.
-/

namespace ScriptLang

open Instructions (heightAfter)

/-! ## Routines -/

/-- The code of a function, or of the main program, as the compiler writes it. -/
structure Routine (pool : Array Value) (numLocals? : Option Nat) (code : Code) (is : Instructions) :
    Prop where
  holds : code.Holds 0 is
  size : Instructions.size is = code.size
  balanced : Balanced 0 0 is
  valid : ∀ i ∈ is, i.Valid pool numLocals?
  ends : numLocals?.isSome = true → ∃ js i, is = js ++ [i] ∧ i.isReturn = true
  target_lt : numLocals?.isSome = true → ∀ i ∈ is, ∀ target, i.target? = some target →
    target < Instructions.size is

/-- A call of a function finds its code, and has room for its arguments. -/
theorem FunctionOf.routine {pool : Array Value} {f : CompiledFunction} (h : FunctionOf pool f) :
    (∃ is, Routine pool (some f.numLocals) f.code is) ∧ f.numParameters ≤ f.numLocals ∧
      f.numLocals ≤ max f.numParameters 256 := by
  cases h with
  | @body c c' block is hbody hs hn hfits hpool =>
      have hgrows := (hbody.grows hs).2
      refine ⟨⟨is, ?_⟩, hgrows.symbols.inner.numDefinitions, hbody.byteSlots hs hfits hn⟩
      refine ⟨Code.holds_toCode hfits, (Instructions.size_toCode is).symm, (hbody.balanced 0).1,
        (hbody.wellFormed_body hs hn hfits hpool).valid, fun _ => hbody.body_ends, ?_⟩
      intro _ i hi target ht
      simpa using hbody.body_target_lt hi ht

theorem Emits.routine {program : Program} {c c' : Compiler} {is : Instructions}
    (h : Emits (.stmts program) c 0 is c') (hc : c.symbols.Sound) (hn : c.symbols.nested = false)
    (hfits : ∀ i ∈ is, i.Fits) : Routine c'.constants none (Instructions.toCode is) is where
  holds := Code.holds_toCode hfits
  size := (Instructions.size_toCode is).symm
  balanced := (h.balanced 0).1
  valid := (h.wellFormed_main hc hn hfits).valid
  ends := fun hsome => absurd hsome (by simp)
  target_lt := fun hsome => absurd hsome (by simp)

/-! ## Frames -/

namespace Frame

/-- The code that a frame executes. -/
def code (b : Bytecode) (frame : Frame) : Code :=
  match frame.closure? with
  | some closure => closure.function.code
  | none => b.code

/-- The number of local slots of a frame, if it is the frame of a call. -/
def numLocals? (frame : Frame) : Option Nat := frame.closure?.map (·.function.numLocals)

/-- The number of slots between the base of a frame and the values that it works on. -/
def numLocals (frame : Frame) : Nat := frame.numLocals?.getD 0

/-- A frame is about to execute the instructions `post` with `height` values above its locals. -/
structure At (b : Bytecode) (frame : Frame) (height : Nat) (is post : Instructions) : Prop where
  routine : Routine b.constants frame.numLocals? (frame.code b) is
  reached : ∃ pre, is = pre ++ post ∧ frame.ip = Instructions.size pre ∧ heightAfter 0 pre = height
  more : frame.closure?.isSome = true → post ≠ []
  closure : ∀ closure, frame.closure? = some closure → closure.toValue.Safe b.constants

/-- A frame is about to execute one of its instructions, with the stack height that belongs there. -/
def Typed (b : Bytecode) (frame : Frame) (height : Nat) : Prop := ∃ is post, frame.At b height is post

theorem isSome_numLocals? (frame : Frame) : frame.numLocals?.isSome = frame.closure?.isSome := by
  rw [numLocals?, Option.isSome_map]

variable {b : Bytecode} {frame : Frame} {height : Nat} {is post : Instructions} {i : Instruction}

theorem At.holds (h : frame.At b height is post) : (frame.code b).Holds frame.ip post := by
  obtain ⟨pre, rfl, hip, -⟩ := h.reached
  have hright := h.routine.holds.right
  rwa [Nat.zero_add, ← hip] at hright

theorem At.balanced (h : frame.At b height is post) : Balanced frame.ip height post := by
  obtain ⟨pre, rfl, hip, rfl⟩ := h.reached
  have hright := h.routine.balanced.right
  rwa [Nat.zero_add, ← hip] at hright

theorem At.mem (h : frame.At b height is (i :: post)) : i ∈ is := by
  obtain ⟨pre, rfl, -, -⟩ := h.reached
  simp

/-- A call goes on behind each instruction that does not end it. -/
theorem At.next_ne_nil (h : frame.At b height is (i :: post)) (hi : i.isReturn = false)
    (hsome : frame.closure?.isSome = true) : post ≠ [] := by
  obtain ⟨pre, his, -, -⟩ := h.reached
  obtain ⟨js, last, hjs, hlast⟩ := h.routine.ends (by rw [isSome_numLocals?]; exact hsome)
  rintro rfl
  rw [his] at hjs
  obtain ⟨-, rfl⟩ := List.append_inj' hjs rfl |>.imp_right (List.cons.inj · |>.1)
  rw [hi] at hlast
  cases hlast

/-- Behind an instruction. -/
theorem At.forward (h : frame.At b height is (i :: post)) (hi : i.isReturn = false) :
    { frame with ip := frame.ip + i.size }.At b (i.heightAfter height) is post where
  routine := h.routine
  reached := by
    obtain ⟨pre, rfl, hip, rfl⟩ := h.reached
    exact ⟨pre ++ [i], by simp, by simp [hip], by simp⟩
  more := h.next_ne_nil hi
  closure := h.closure

/-- At the target of a jump. -/
theorem At.jump (h : frame.At b height is (i :: post)) {target : Nat} (ht : i.target? = some target) :
    (∃ rest, { frame with ip := target }.At b (i.heightAtTarget height) is rest) ∧
      frame.ip < target ∧ target ≤ (frame.code b).size := by
  obtain ⟨pre, his, hip, hheight⟩ := h.reached
  obtain ⟨-, htarget, -⟩ := h.balanced
  obtain ⟨skipped, rest, hpost, hoffset, hbal⟩ := htarget target ht
  have hpos := i.size_pos
  have hsize : Instructions.size is = (frame.code b).size := h.routine.size
  have hle : target + Instructions.size rest = Instructions.size is := by
    rw [his, hpost, hoffset, hip]
    simp only [Instructions.size_append, Instructions.size_cons]
    omega
  refine ⟨⟨rest, h.routine, ⟨pre ++ i :: skipped, ?_, ?_, ?_⟩, ?_, h.closure⟩, by omega, by omega⟩
  · rw [his, hpost]
    simp
  · show target = _
    rw [hoffset, hip]
    simp only [Instructions.size_append, Instructions.size_cons]
    omega
  · rw [Instructions.heightAfter_append, hheight, Instructions.heightAfter_cons, hbal]
  · rintro hsome rfl
    have hlt := h.routine.target_lt (by rw [isSome_numLocals?]; exact hsome) i h.mem target ht
    rw [Instructions.size_nil] at hle
    omega

/-- A closure refers to no more captured values than it has. -/
theorem At.free_lt (h : frame.At b height is (.getFree k :: post)) {closure : Closure}
    (hclosure : frame.closure? = some closure) : k < closure.free.length := by
  have hcode : frame.code b = closure.function.code := by rw [code, hclosure]
  obtain ⟨-, ⟨js, hjs, hfree⟩, -⟩ := (h.closure closure hclosure).of_closure
  have his : (frame.code b).Decodes is :=
    h.routine.holds.decodesFrom (by rw [Nat.zero_add]; exact h.routine.size)
  rw [hcode] at his
  rw [← his.unique hjs] at hfree
  exact hfree k h.mem

/-- **The next instruction** of a frame: it can be executed, and the frame is typed again behind it and
where it may jump to. Only the main program ends without one. -/
theorem Typed.next (h : frame.Typed b height) :
    (decode (frame.code b) frame.ip = .finished ∧ frame.closure? = none) ∨
      ∃ i, decode (frame.code b) frame.ip = .instruction i (frame.ip + i.size) ∧
        frame.ip + i.size ≤ (frame.code b).size ∧
        i.pops ≤ height ∧ i.Fits ∧ i.Valid b.constants frame.numLocals? ∧
        (∀ k closure, i = .getFree k → frame.closure? = some closure → k < closure.free.length) ∧
        (i.isReturn = false →
          { frame with ip := frame.ip + i.size }.Typed b (i.heightAfter height)) ∧
        ∀ target, i.target? = some target →
          { frame with ip := target }.Typed b (i.heightAtTarget height) ∧
            frame.ip < target ∧ target ≤ (frame.code b).size := by
  obtain ⟨is, post, h⟩ := h
  cases post with
  | nil =>
      refine .inl ⟨?_, ?_⟩
      · obtain ⟨pre, his, hip, -⟩ := h.reached
        rw [List.append_nil] at his
        refine Code.decode_of_size_le (Nat.le_of_eq ?_)
        rw [hip, ← his]
        exact h.routine.size.symm
      · cases hclosure : frame.closure? with
        | none => rfl
        | some closure => exact absurd rfl (h.more (by simp [hclosure]))
  | cons i post =>
      refine .inr ⟨i, h.holds.decode, ?_, h.balanced.1, ?_, h.routine.valid i h.mem, ?_, ?_, ?_⟩
      · have hle := h.holds.size_le
        rw [Instructions.size_cons] at hle
        omega
      · exact h.holds.2 i List.mem_cons_self
      · rintro k closure rfl hclosure
        exact h.free_lt hclosure
      · exact fun hi => ⟨is, post, h.forward hi⟩
      · intro target ht
        obtain ⟨⟨rest, hrest⟩, hlt, hle⟩ := h.jump ht
        exact ⟨⟨is, rest, hrest⟩, hlt, hle⟩

/-- A function begins at its first instruction. -/
theorem typed_enter {closure : Closure} (h : closure.toValue.Safe b.constants)
    (hf : FunctionOf b.constants closure.function) (base : Nat) :
    Frame.Typed b { closure? := some closure, base } 0 := by
  obtain ⟨⟨is, hroutine⟩, -⟩ := hf.routine
  refine ⟨is, is, hroutine, ⟨[], rfl, rfl, rfl⟩, ?_, ?_⟩
  · rintro - rfl
    obtain ⟨js, i, hnil, -⟩ := hroutine.ends rfl
    simp at hnil
  · intro other hother
    cases hother
    exact h

end Frame

end ScriptLang
