import ScriptLang.Proofs.Machine.Runs

/-!
# Termination

`work` is what the frames of a machine may still have to do: the bytes that each of them has in front of
it, in a number system whose radix is larger than any code. The digit of a frame weighs more than all that
the frames above it can contribute, so a call costs its caller more than it brings, and every step of a
safe machine makes `work` smaller (`Machine.Goes.work_lt`). It is less than the budget of a run from the
start, so that a run reaches its end (`Machine.Safe.run_stops`).

A call that is active only goes forward in its code, so it executes each of its instructions at most once
(`Machine.Safe.ip_lt_of_staysAbove`).
-/

namespace ScriptLang

/-! ## The measure -/

/-- The number of bytes that a frame has in front of it. -/
def Frame.remaining (b : Bytecode) (frame : Frame) : Nat := (frame.code b).size - frame.ip

/-- The weight of a frame with `depth` frames below it. -/
def frameWeight (radix depth : Nat) : Nat := radix ^ (maxFrames - 1 - depth)

/-- What a frame and the frames below it may still have to do. -/
def work (b : Bytecode) (radix : Nat) (frame : Frame) : List Frame → Nat
  | [] => frame.remaining b * frameWeight radix 0
  | caller :: callers =>
    frame.remaining b * frameWeight radix (callers.length + 1) + work b radix caller callers

/-- What the frames below the running one may still have to do. -/
def workBelow (b : Bytecode) (radix : Nat) : List Frame → Nat
  | [] => 0
  | caller :: callers => work b radix caller callers

/-- The work of a machine is that of the running call and of those below. -/
theorem work_eq (b : Bytecode) (radix : Nat) (frame : Frame) (callers : List Frame) :
    work b radix frame callers =
      frame.remaining b * frameWeight radix callers.length + workBelow b radix callers := by
  cases callers with
  | nil => rfl
  | cons caller callers => rfl

theorem frameWeight_pos {radix : Nat} (h : 0 < radix) (depth : Nat) : 0 < frameWeight radix depth :=
  Nat.pow_pos h

theorem frameWeight_succ (radix : Nat) {depth : Nat} (h : depth + 1 < maxFrames) :
    frameWeight radix depth = frameWeight radix (depth + 1) * radix := by
  rw [frameWeight, frameWeight, ← Nat.pow_succ]
  congr 1
  omega

theorem work_forward_lt {b : Bytecode} {radix ip : Nat} {frame : Frame} (callers : List Frame)
    (hradix : 0 < radix) (hlt : frame.ip < ip) (hle : ip ≤ (frame.code b).size) :
    work b radix { frame with ip } callers < work b radix frame callers := by
  have hless : Frame.remaining b { frame with ip } < frame.remaining b := by
    show (frame.code b).size - ip < (frame.code b).size - frame.ip
    omega
  rw [work_eq, work_eq]
  exact Nat.add_lt_add_right (Nat.mul_lt_mul_of_pos_right hless (frameWeight_pos hradix _)) _

/-- A call brings less than it costs its caller. -/
theorem work_enter_lt {b : Bytecode} {radix ip base : Nat} {frame : Frame} {callers : List Frame}
    {closure : Closure} (hlt : frame.ip < ip) (hle : ip ≤ (frame.code b).size)
    (hsize : closure.function.code.size < radix) (hdepth : callers.length + 1 < maxFrames) :
    work b radix { closure? := some closure, base } ({ frame with ip } :: callers) <
      work b radix frame callers := by
  have hradix : 0 < radix := Nat.zero_lt_of_lt hsize
  have hpos := frameWeight_pos hradix (callers.length + 1)
  have hweight := frameWeight_succ radix hdepth
  have hcallee : closure.function.code.size * frameWeight radix (callers.length + 1) <
      frameWeight radix callers.length := by
    rw [hweight, Nat.mul_comm _ radix]
    exact Nat.mul_lt_mul_of_pos_right hsize hpos
  have hcaller : Frame.remaining b { frame with ip } + 1 ≤ frame.remaining b := by
    show (frame.code b).size - ip + 1 ≤ (frame.code b).size - frame.ip
    omega
  have hmul := Nat.mul_le_mul_right (frameWeight radix callers.length) hcaller
  rw [Nat.add_mul, Nat.one_mul] at hmul
  rw [work_eq b radix frame callers]
  show (closure.function.code.size - 0) * frameWeight radix (callers.length + 1) +
    work b radix { frame with ip } callers < _
  rw [work_eq, Nat.sub_zero]
  omega

/-! ## Code sizes -/

/-- The longest code is not shorter than one that was seen. -/
theorem le_foldl_longest {f : Nat → Value → Nat}
    (hf : ∀ longest v, longest ≤ f longest v) :
    ∀ (vs : List Value) (longest : Nat), longest ≤ vs.foldl f longest
  | [], _ => Nat.le_refl _
  | v :: vs, longest => Nat.le_trans (hf longest v) (le_foldl_longest hf vs _)

theorem mem_le_foldl_longest {f : Nat → Value → Nat} {n : Nat} {v : Value}
    (hf : ∀ longest v, longest ≤ f longest v) (hn : ∀ longest, n ≤ f longest v) :
    ∀ (vs : List Value) (longest : Nat), v ∈ vs → n ≤ vs.foldl f longest
  | w :: vs, longest, h => by
      rcases List.mem_cons.mp h with rfl | h
      · exact Nat.le_trans (hn longest) (le_foldl_longest hf vs _)
      · exact mem_le_foldl_longest hf hn vs _ h

namespace Machine

theorem code_size_le_longestCode (b : Bytecode) : b.code.size ≤ longestCode b := by
  rw [longestCode, ← Array.foldl_toList]
  refine le_foldl_longest (fun longest v => ?_) _ _
  cases v <;> first | exact Nat.le_refl _ | exact Nat.le_max_left _ _

theorem function_size_le_longestCode {b : Bytecode} {f : CompiledFunction}
    (h : .compiledFunction f ∈ b.constants.toList) : f.code.size ≤ longestCode b := by
  rw [longestCode, ← Array.foldl_toList]
  refine mem_le_foldl_longest (fun longest v => ?_) (fun longest => ?_) _ _ h
  · cases v <;> first | exact Nat.le_refl _ | exact Nat.le_max_left _ _
  · exact Nat.le_max_right _ _

/-! ## Runs end -/

/-- The radix in which the work of a machine is counted. -/
def radix (b : Bytecode) : Nat := longestCode b + 1

/-- What a machine may still have to do. -/
def work (m : Machine) : Nat := ScriptLang.work m.bytecode (radix m.bytecode) m.frame m.callers

/-- **Every step** leaves less to do. -/
theorem Goes.work_lt {m m' : Machine} (h : m.Goes m') (hb : m'.bytecode = m.bytecode) :
    m'.work < m.work := by
  have hradix : 0 < radix m.bytecode := Nat.succ_pos _
  rw [work, work, hb]
  cases h with
  | forward ip hlt hle hframe hcallers =>
      rw [hframe, hcallers]
      exact work_forward_lt _ hradix hlt hle
  | enter ip closure base hlt hle hmem hdepth hframe hcallers =>
      rw [hframe, hcallers]
      exact work_enter_lt hlt hle (Nat.lt_succ_of_le (function_size_le_longestCode hmem)) hdepth
  | leave hlt hcallers =>
      have hpos : 0 < m.frame.remaining m.bytecode := Nat.sub_pos_of_lt hlt
      have hmul := Nat.mul_pos hpos (frameWeight_pos hradix m.callers.length)
      rw [work_eq m.bytecode _ m.frame m.callers]
      rw [hcallers] at hmul ⊢
      exact Nat.lt_add_of_pos_left hmul

/-- Every step takes some work away, so there are no more steps than work. -/
theorem Safe.steps_le_work [StringHash] {n : Nat} {m m' : Machine} (h : m.Safe) (hsteps : Steps n m m') :
    n + m'.work ≤ m.work := by
  induction hsteps with
  | refl => exact Nat.le_of_eq (Nat.zero_add _)
  | head hstep hrest ih =>
      obtain ⟨hsafe, hb⟩ := h.steps (.one hstep)
      have hlt := (h.goes hstep).work_lt hb
      have hle := ih hsafe
      omega

/-- A machine at the start of its program. -/
structure Fresh (m : Machine) : Prop where
  callers : m.callers = []
  frame : m.frame = {}

/-- At the start there is less to do than the budget of a run grants. -/
theorem Fresh.work_lt {m : Machine} (h : m.Fresh) : m.work < 2 ^ m.budget := by
  have hsize : m.bytecode.code.size < radix m.bytecode :=
    Nat.lt_succ_of_le (code_size_le_longestCode _)
  have hwork : m.work < radix m.bytecode ^ maxFrames := by
    rw [work, h.callers, h.frame]
    have hpow : radix m.bytecode ^ maxFrames =
        radix m.bytecode * frameWeight (radix m.bytecode) 0 := by
      rw [frameWeight, Nat.mul_comm, ← Nat.pow_succ]
      rfl
    rw [hpow]
    exact Nat.mul_lt_mul_of_pos_right hsize (frameWeight_pos (Nat.succ_pos _) 0)
  have hradix : radix m.bytecode ≤ 2 ^ (Nat.log2 (radix m.bytecode) + 1) :=
    Nat.le_of_lt Nat.lt_log2_self
  have hpow := Nat.pow_le_pow_left hradix maxFrames
  rw [← Nat.pow_mul, Nat.mul_comm] at hpow
  have hbudget : maxFrames * (Nat.log2 (radix m.bytecode) + 1) ≤ m.budget := Nat.le_succ _
  exact Nat.lt_of_lt_of_le hwork (Nat.le_trans hpow (Nat.pow_le_pow_right Nat.two_pos hbudget))

section

variable [StringHash]

/-- **Termination**: a run of a safe machine from the start reaches its end. -/
theorem Safe.run_stops {m : Machine} (h : m.Safe) (hfresh : m.Fresh) :
    ∃ m', m.Reaches m' ∧ m'.Stops m.run.1 m.run.2 := by
  rcases run_spec m with ⟨m', hsteps⟩ | hstops
  · have hle := h.steps_le_work hsteps
    have hlt := hfresh.work_lt
    omega
  · exact hstops

/-- Whether a machine gets to its end within `2 ^ k` instructions. -/
def endsWithin (k : Nat) (m : Machine) : Bool :=
  match MachineM.advance k m with
  | .ok false _ => true
  | _ => false

/-- A machine that has been seen to reach its end runs to its end. -/
theorem Safe.run_fst_of_endsWithin {m : Machine} (h : m.Safe) (hfresh : m.Fresh) {k : Nat}
    (hends : m.endsWithin k = true) : m.run.1 = .finished := by
  obtain ⟨m₁, ⟨_, hsteps⟩, hstops⟩ := h.run_stops hfresh
  have hadvanced := advance_spec k m
  rw [endsWithin] at hends
  split at hends
  · next m₂ hadvance =>
      rw [hadvance] at hadvanced
      cases hadvanced with
      | finished hreach hstep =>
          obtain ⟨_, hsteps₂⟩ := hreach
          exact (hsteps.unique hstops hsteps₂ (.finished hstep)).1
  · cases hends

end

/-! ## Active calls -/

/-- The call that is running in `m` is still active in `m'`: there are the calls `above` that it has made, and it
goes on at the offset `ip` when they are over. -/
def ActiveIn (m : Machine) (above : List Frame) (ip : Nat) (m' : Machine) : Prop :=
  m'.frame :: m'.callers = above ++ { m.frame with ip } :: m.callers

/-- **A step** leaves an active call where it is, or takes it forward if it is the one that is running. -/
theorem ActiveIn.goes {m m₁ m₂ : Machine} {above : List Frame} {ip : Nat} (h : m.ActiveIn above ip m₁)
    (hgoes : m₁.Goes m₂) (hdepth : m.callers.length ≤ m₂.callers.length) :
    ∃ above₂ ip₂, m.ActiveIn above₂ ip₂ m₂ ∧ ip ≤ ip₂ ∧ (above = [] → ip < ip₂) := by
  rw [ActiveIn] at h
  cases above with
  | nil =>
      obtain ⟨hframe, hcallers⟩ := List.cons.inj h
      have hip : m₁.frame.ip = ip := by rw [hframe]
      cases hgoes with
      | forward ip₂ hlt _ hframe₂ hcallers₂ =>
          rw [hip] at hlt
          refine ⟨[], ip₂, ?_, Nat.le_of_lt hlt, fun _ => hlt⟩
          rw [ActiveIn, hframe₂, hcallers₂, hframe, hcallers]
          rfl
      | enter ip₂ closure base hlt _ _ _ _ hcallers₂ =>
          rw [hip] at hlt
          refine ⟨[m₂.frame], ip₂, ?_, Nat.le_of_lt hlt, fun _ => hlt⟩
          rw [ActiveIn, hcallers₂, hframe, hcallers]
          rfl
      | leave _ hleft =>
          -- it would be over
          rw [← hcallers, hleft, List.length_cons] at hdepth
          exact absurd hdepth (Nat.not_succ_le_self _)
  | cons callee above =>
      obtain ⟨-, hcallers⟩ := List.cons.inj h
      have hnil : callee :: above = [] → ip < ip := fun heq => absurd heq (List.cons_ne_nil _ _)
      cases hgoes with
      | forward ip₂ _ _ _ hcallers₂ =>
          refine ⟨m₂.frame :: above, ip, ?_, Nat.le_refl _, hnil⟩
          rw [ActiveIn, hcallers₂, hcallers]
          rfl
      | enter ip₂ closure base _ _ _ _ _ hcallers₂ =>
          refine ⟨m₂.frame :: { m₁.frame with ip := ip₂ } :: above, ip, ?_, Nat.le_refl _, hnil⟩
          rw [ActiveIn, hcallers₂, hcallers]
          rfl
      | leave _ hleft => exact ⟨above, ip, hleft.symm.trans hcallers, Nat.le_refl _, hnil⟩

variable [StringHash]

/-- The machine gets from one state to another, and on the way there are always at least `depth` frames below the
running one. So the call with just `depth` frames below it is active all the way. -/
inductive StaysAbove (depth : Nat) : Machine → Machine → Prop where
  | refl {m : Machine} : depth ≤ m.callers.length → StaysAbove depth m m
  | head {m m₁ m' : Machine} : depth ≤ m.callers.length → MachineM.step m = .ok true m₁ →
      StaysAbove depth m₁ m' → StaysAbove depth m m'

theorem StaysAbove.depth_le {depth : Nat} {m m' : Machine} (h : StaysAbove depth m m') :
    depth ≤ m.callers.length := by
  cases h with
  | refl hdepth => exact hdepth
  | head hdepth _ _ => exact hdepth

/-- An active call never goes back. -/
theorem Safe.activeIn_of_staysAbove {m m₁ m' : Machine} {above : List Frame} {ip : Nat} (h : m₁.Safe)
    (hactive : m.ActiveIn above ip m₁) (hstays : StaysAbove m.callers.length m₁ m') :
    ∃ above' ip', m.ActiveIn above' ip' m' ∧ ip ≤ ip' := by
  induction hstays generalizing above ip with
  | refl => exact ⟨above, ip, hactive, Nat.le_refl _⟩
  | head _ hstep hrest ih =>
      obtain ⟨above₂, ip₂, hactive₂, hle, -⟩ := hactive.goes (h.goes hstep) hrest.depth_le
      obtain ⟨above', ip', hactive', hle'⟩ := ih (h.steps (.one hstep)).1 hactive₂
      exact ⟨above', ip', hactive', Nat.le_trans hle hle'⟩

/-- **Once at most**: where a call is to execute another instruction of its own, it is behind all those that it
has executed. -/
theorem Safe.ip_lt_of_staysAbove {m m₁ m' : Machine} (h : m.Safe) (hstep : MachineM.step m = .ok true m₁)
    (hstays : StaysAbove m.callers.length m₁ m') (hdepth : m'.callers.length = m.callers.length) :
    m.frame.ip < m'.frame.ip := by
  have hself : m.ActiveIn [] m.frame.ip m := rfl
  obtain ⟨above₁, ip₁, hactive₁, -, hlt⟩ := hself.goes (h.goes hstep) hstays.depth_le
  obtain ⟨above', ip', hactive', hle⟩ := (h.steps (.one hstep)).1.activeIn_of_staysAbove hactive₁ hstays
  rw [ActiveIn] at hactive'
  have hnil : above' = [] := by
    have hlength := congrArg List.length hactive'
    simp only [List.length_cons, List.length_append] at hlength
    exact List.eq_nil_of_length_eq_zero (by omega)
  rw [hnil, List.nil_append, List.cons.injEq] at hactive'
  have hip : m'.frame.ip = ip' := by rw [hactive'.1]
  rw [hip]
  exact Nat.lt_of_lt_of_le (hlt rfl) hle

end Machine

end ScriptLang
