import ScriptLang.Proofs.Machine.Moves
import ScriptLang.Proofs.Machine.Transitions

/-!
# Stretches of a call

What a stretch of code leaves when a call has got from its first to its last instruction, whatever it did on
the way: the code may store in slots of the call and call other functions, and it may contain a `return` that
has not been executed. `Machine.Stays` says that the call has not returned. Main statement:
`Machine.Safe.leaves` — the machine has the same calls as before and the values that the stretch is to
leave, and of the slots below them only those have changed that the stretch stores in.

The invariant is `Machine.Ongoing`: the calls above the one at hand work above its values, and so does this
one while it executes the stretch.
-/

namespace ScriptLang

open Instructions (heightAfter)

/-! ## Positions in code -/

/-- Values below those that instructions work on do not matter for them. -/
theorem Balanced.heightAfter_add {offset height : Nat} {is js : Instructions}
    (h : Balanced offset height (is ++ js)) (bottom : Nat) :
    heightAfter (bottom + height) is = bottom + heightAfter height is := by
  induction is generalizing offset height with
  | nil => rfl
  | cons i is ih =>
      obtain ⟨hpops, -, hrest⟩ := h
      have hafter : i.heightAfter (bottom + height) = bottom + i.heightAfter height := by
        simp only [Instruction.heightAfter]
        omega
      rw [Instructions.heightAfter_cons, hafter, ih hrest, Instructions.heightAfter_cons]

theorem Instructions.eq_nil_of_size {is : Instructions} (h : size is = 0) : is = [] := by
  cases is with
  | nil => rfl
  | cons i is =>
      have hpos := i.size_pos
      rw [size_cons] at h
      omega

/-- Of two places in the same code, the later one has the instructions in between before it. -/
theorem Instructions.append_of_size_le {pre post pre₁ post₁ : Instructions}
    (h : pre ++ post = pre₁ ++ post₁) (hle : size pre ≤ size pre₁) :
    ∃ between, pre₁ = pre ++ between ∧ post = between ++ post₁ := by
  rcases List.append_eq_append_iff.mp h with ⟨between, hpre, hpost⟩ | ⟨back, rfl, rfl⟩
  · exact ⟨between, hpre, hpost⟩
  · rw [size_append] at hle
    obtain rfl := eq_nil_of_size (show size back = 0 by omega)
    exact ⟨[], by simp, rfl⟩

/-- Where instructions stand in code that decodes completely, they are the first that are decoded. -/
theorem Code.Holds.append_of_decodesFrom {code : Code} {offset : Nat} {is js : Instructions}
    (h : code.Holds offset is) (hjs : code.DecodesFrom offset js) : ∃ rest, js = is ++ rest := by
  induction is generalizing offset js with
  | nil => exact ⟨js, rfl⟩
  | cons i is ih =>
      cases js with
      | nil =>
          have hend := Code.decode_of_size_le (Nat.le_of_eq (show offset = code.size from hjs).symm)
          rw [h.decode] at hend
          cases hend
      | cons j js =>
          obtain ⟨hdecode, hrest⟩ := hjs
          rw [h.decode] at hdecode
          cases hdecode
          obtain ⟨rest, rfl⟩ := ih h.tail hrest
          exact ⟨rest, rfl⟩

namespace Machine

variable {m m₁ m₂ m' : Machine} {i : Instruction} {is : Instructions} {height height₁ ip finish : Nat}
  {own : Nat → Prop} {above : List Frame}

/-- **Places**: a call that is somewhere between the first of some instructions and the end of the last one
is behind some of them, with the values that those leave. -/
theorem Running.between (h : m.Running height) (hholds : m.code.Holds m.frame.ip is)
    (hbalanced : Balanced m.frame.ip 0 is) (h₁ : m₁.Running height₁) (hb : m₁.bytecode = m.bytecode)
    (hframe : m₁.frame = { m.frame with ip }) (hle : m.frame.ip ≤ ip)
    (hend : ip ≤ m.frame.ip + Instructions.size is) :
    ∃ pre post, is = pre ++ post ∧ ip = m.frame.ip + Instructions.size pre ∧
      m₁.top = m.top + heightAfter 0 pre ∧ m₁.code.Holds m₁.frame.ip post := by
  have hcode : m₁.frame.code m₁.bytecode = m.frame.code m.bytecode := by rw [hframe, hb]; rfl
  obtain ⟨js, post, hat⟩ := h.typed
  obtain ⟨js₁, post₁, hat₁⟩ := h₁.typed
  -- both places are in the one list of instructions that the code decodes into
  have hjs : (m.frame.code m.bytecode).Decodes js :=
    hat.routine.holds.decodesFrom (by rw [Nat.zero_add]; exact hat.routine.size)
  have hjs₁ : (m₁.frame.code m₁.bytecode).Decodes js₁ :=
    hat₁.routine.holds.decodesFrom (by rw [Nat.zero_add]; exact hat₁.routine.size)
  rw [hcode] at hjs₁
  obtain rfl := hjs.unique hjs₁
  obtain ⟨pre, hpre, hip, hheight⟩ := hat.reached
  obtain ⟨pre₁, hpre₁, hip₁, hheight₁⟩ := hat₁.reached
  have hip' : ip = Instructions.size pre₁ := by rw [← hip₁, hframe]
  have hpost : (m.frame.code m.bytecode).DecodesFrom m.frame.ip post := by
    refine hat.holds.decodesFrom ?_
    rw [hip, ← hat.routine.size, hpre, Instructions.size_append]
  obtain ⟨rest, rfl⟩ := Code.Holds.append_of_decodesFrom hholds hpost
  obtain ⟨before, rfl, hbefore⟩ :=
    Instructions.append_of_size_le (hpre.symm.trans hpre₁) (by rw [← hip, ← hip']; exact hle)
  rw [Instructions.size_append, ← hip] at hip'
  obtain ⟨behind, rfl, -⟩ := Instructions.append_of_size_le hbefore.symm (by omega)
  refine ⟨before, behind, rfl, hip', ?_, ?_⟩
  · rw [Instructions.heightAfter_append, hheight] at hheight₁
    have hadd : heightAfter height before = height + heightAfter 0 before :=
      hbalanced.heightAfter_add height
    have htop : m₁.top = m.frame.base + m.frame.numLocals + height₁ := by
      rw [h₁.top, hframe]
      rfl
    rw [htop, ← hheight₁, hadd, h.top, Nat.add_assoc _ height]
  · rw [code_eq, hcode, hframe]
    show Code.Holds _ ip behind
    rw [hip']
    exact hholds.right

/-! ## Single steps -/

/-- What an instruction does to the calls, and which slots it leaves alone. -/
inductive Change (i : Instruction) (m m' : Machine) : Prop where
  | goes {ip : Nat} : m.frame.ip < ip → m'.frame = { m.frame with ip } → m'.callers = m.callers →
      (∀ j < m.top - i.pops, (∀ k, i = .setLocal k → j ≠ m.frame.base + k) → m'.slot j = m.slot j) →
      Change i m m'
  | enters {ip : Nat} : m.frame.ip < ip → m'.callers = { m.frame with ip } :: m.callers →
      m.top - i.pops < m'.frame.base → (∀ j < m.top, m'.slot j = m.slot j) → Change i m m'
  | leaves : i.isReturn = true → m.callers = m'.frame :: m'.callers →
      (∀ j < m.frame.base - 1, m'.slot j = m.slot j) → Change i m m'
  | ends : i.isReturn = true → m.callers = [] → Change i m m'

section

variable [StringHash]

theorem Fetched.change (h : m.Fetched height i)
    (hexecuted : (m.jumped (m.frame.ip + i.size)).Executed i m') : Change i m m' := by
  have hsize := i.size_pos
  have hnext : m.frame.ip < m.frame.ip + i.size := by omega
  cases hexecuted with
  | result => exact .goes hnext rfl rfl fun j hj _ => slot_setIfInBounds_of_ne _ (Nat.ne_of_lt hj)
  | pop | setGlobal => exact .goes hnext rfl rfl fun _ _ _ => rfl
  | @setLocal k =>
      exact .goes hnext rfl rfl fun j _ hne => slot_setIfInBounds_of_ne _ (hne k rfl)
  | @jump target => exact .goes (h.target target rfl).2.1 rfl rfl fun _ _ _ => rfl
  | @jumpNotTruthy target =>
      generalize Value.isTruthy _ = truthy
      cases truthy with
      | true => exact .goes hnext rfl rfl fun _ _ _ => rfl
      | false => exact .goes (h.target target rfl).2.1 rfl rfl fun _ _ _ => rfl
  | @call n closure htop =>
      refine .enters hnext rfl ?_ fun j hj => ?_
      · show m.top - (n + 1) < m.top - n
        have hle : n + 1 ≤ m.top := htop
        omega
      · exact congrArg (Option.getD · Value.null) (getElem?_clear hj _ _)
  | ended hv _ hcallers => exact .ends (isReturn_of_returned? hv) hcallers
  | left hv _ hcallers =>
      refine .leaves (isReturn_of_returned? hv) hcallers fun j hj => ?_
      exact slot_setIfInBounds_of_ne _ (Nat.ne_of_lt hj)

/-! ## Calls that have not returned -/

/-- The next instruction ends the running call, below which there are `depth` other frames. -/
def ReturnsFrom (depth : Nat) (m : Machine) : Prop :=
  m.callers.length = depth ∧
    ∃ i next, decode m.code m.frame.ip = .instruction i next ∧ i.isReturn = true

instance (depth : Nat) (m : Machine) : Decidable (m.ReturnsFrom depth) :=
  match hdecode : decode m.code m.frame.ip with
  | .instruction i next =>
    decidable_of_iff (m.callers.length = depth ∧ i.isReturn = true) <| by
      simp [ReturnsFrom, hdecode]
  | .finished | .unknown _ | .truncated => .isFalse <| by simp [ReturnsFrom, hdecode]

/-- A machine gets from one state to another, and the call with `depth` frames below its own executes no
`return` on the way. -/
inductive Stays (depth : Nat) : Machine → Machine → Prop where
  | refl (m : Machine) : Stays depth m m
  | head {m m₁ m' : Machine} : ¬ m.ReturnsFrom depth → MachineM.step m = .ok true m₁ →
      Stays depth m₁ m' → Stays depth m m'

/-- The machine after `n` steps in which the call with `depth` frames below its own does not return. -/
def stay? (depth : Nat) : Nat → Machine → Option Machine
  | 0, m => some m
  | n + 1, m =>
    if m.ReturnsFrom depth then none
    else match MachineM.step m with
      | .ok true m₁ => stay? depth n m₁
      | _ => none

theorem stays_of_stay? {depth : Nat} : ∀ {n : Nat} {m : Machine}, stay? depth n m = some m' →
    Stays depth m m'
  | 0, m, h => by
      cases h
      exact .refl _
  | n + 1, m, h => by
      rw [stay?] at h
      split at h
      · cases h
      · next hnot =>
          split at h
          · next m₁ hstep => exact .head hnot hstep (stays_of_stay? h)
          · cases h

theorem Stays.reaches {depth : Nat} (h : Stays depth m m') : m.Reaches m' := by
  induction h with
  | refl m => exact .refl m
  | head _ hstep _ ih => exact .trans (.step hstep) ih

end

/-- The machine `m'` has the calls of `m`, with `height` values more. Of the slots below these values only
those have changed that are slots `k` of the running call with `own k`. -/
structure Leaves (height : Nat) (own : Nat → Prop) (m m' : Machine) : Prop where
  top : m'.top = m.top + height
  frame : m'.frame = { m.frame with ip := m'.frame.ip }
  callers : m'.callers = m.callers
  slots : ∀ j < m.top, (∀ k, own k → j ≠ m.frame.base + k) → m'.slot j = m.slot j

/-- The call that is running in `m` is still going on in `m₁`, at `ip` and with the calls `above` that it has
made. Unless it is past the offset `finish`, these work above its values, and of the slots below them only
some of its own have changed. -/
structure Ongoing (m : Machine) (finish : Nat) (own : Nat → Prop) (above : List Frame) (ip : Nat)
    (m₁ : Machine) : Prop where
  frames : m₁.frame :: m₁.callers = above ++ { m.frame with ip } :: m.callers
  ip_le : m.frame.ip ≤ ip
  bases : ip ≤ finish → ∀ frame ∈ above, m.top < frame.base
  slots : ip ≤ finish → ∀ j < m.top, (∀ k, own k → j ≠ m.frame.base + k) → m₁.slot j = m.slot j

namespace Ongoing

theorem refl (m : Machine) (finish : Nat) (own : Nat → Prop) :
    m.Ongoing finish own [] m.frame.ip m :=
  ⟨rfl, Nat.le_refl _, by simp, fun _ _ _ _ => rfl⟩

theorem length_eq (h : m.Ongoing finish own above ip m₁) :
    m₁.callers.length = above.length + m.callers.length := by
  have hlength := congrArg List.length h.frames
  simp only [List.length_cons, List.length_append] at hlength
  omega

/-- **One step** of the call itself. Until it is at `finish`, it takes no values off the stack that `m` has,
and stores in slots of its own. -/
theorem step_running (h : m.Ongoing finish own [] ip m₁) (hchange : Change i m₁ m₂)
    (hreturn : i.isReturn = true → m₁.callers.length ≠ m.callers.length)
    (hcode : ip < finish → m.top + i.pops ≤ m₁.top ∧ ∀ k, i = .setLocal k → own k) :
    ∃ above₂ ip₂, m.Ongoing finish own above₂ ip₂ m₂ := by
  have hle := h.ip_le
  have hlength := h.length_eq
  obtain ⟨hframe, hcallers⟩ := List.cons.inj h.frames
  have hip : m₁.frame.ip = ip := by rw [hframe]
  cases hchange with
  | @goes ip₂ hlt hframe₂ hcallers₂ hkept =>
      refine ⟨[], ip₂, ?_, by omega, by simp, fun hfinish j hj hown => ?_⟩
      · rw [hframe₂, hcallers₂, hframe, hcallers]
        rfl
      · obtain ⟨hunder, hstores⟩ := hcode (by omega)
        have hne : ∀ k, i = .setLocal k → j ≠ m₁.frame.base + k := by
          intro k hk
          rw [hframe]
          exact hown k (hstores k hk)
        rw [hkept j (by omega) hne]
        exact h.slots (by omega) j hj hown
  | @enters ip₂ hlt hcallers₂ hbase₂ hkept =>
      refine ⟨[m₂.frame], ip₂, ?_, by omega, fun hfinish => ?_, fun hfinish j hj hown => ?_⟩
      · rw [hcallers₂, hframe, hcallers]
        rfl
      · obtain ⟨hunder, -⟩ := hcode (by omega)
        rw [List.forall_mem_singleton]
        omega
      · obtain ⟨hunder, -⟩ := hcode (by omega)
        rw [hkept j (by omega)]
        exact h.slots (by omega) j hj hown
  | leaves hi | ends hi => exact absurd (hlength.trans (Nat.zero_add _)) (hreturn hi)

/-- **One step** of a call that it has made. This one works above the values of `m`, whatever it does. -/
theorem step_called {callee : Frame} (h : m.Ongoing finish own (callee :: above) ip m₁)
    (hfetched : m₁.Fetched height i) (hchange : Change i m₁ m₂) :
    ∃ above₂ ip₂, m.Ongoing finish own above₂ ip₂ m₂ := by
  have htop := hfetched.running.top
  have hpops := hfetched.pops
  obtain ⟨hframe, hcallers⟩ := List.cons.inj h.frames
  rw [List.append_eq] at hcallers
  have hbases : ip ≤ finish → m.top < m₁.frame.base ∧ ∀ frame ∈ above, m.top < frame.base := by
    intro hfinish
    rw [hframe]
    exact List.forall_mem_cons.mp (h.bases hfinish)
  have hslots : ip ≤ finish → (∀ j < m₁.frame.base - 1, m₂.slot j = m₁.slot j) →
      ∀ j < m.top, (∀ k, own k → j ≠ m.frame.base + k) → m₂.slot j = m.slot j := by
    intro hfinish hkept j hj hown
    have hlow := (hbases hfinish).1
    rw [hkept j (by omega)]
    exact h.slots hfinish j hj hown
  cases hchange with
  | @goes ip₂ hlt hframe₂ hcallers₂ hkept =>
      refine ⟨m₂.frame :: above, ip, ?_, h.ip_le, fun hfinish => ?_, fun hfinish => ?_⟩
      · rw [hcallers₂, hcallers]
        rfl
      · rw [List.forall_mem_cons, hframe₂]
        exact hbases hfinish
      · exact hslots hfinish fun j hj => hkept j (by omega) fun k _ => by omega
  | @enters ip₂ hlt hcallers₂ hbase₂ hkept =>
      refine ⟨m₂.frame :: { m₁.frame with ip := ip₂ } :: above, ip, ?_, h.ip_le, fun hfinish => ?_,
        fun hfinish => ?_⟩
      · rw [hcallers₂, hcallers]
        rfl
      · have hlow := (hbases hfinish).1
        exact List.forall_mem_cons.mpr ⟨by omega, List.forall_mem_cons.mpr (hbases hfinish)⟩
      · exact hslots hfinish fun j hj => hkept j (by omega)
  | leaves hi hcallers₂ hkept =>
      exact ⟨above, ip, by rw [← hcallers₂, hcallers], h.ip_le, fun hfinish => (hbases hfinish).2,
        fun hfinish => hslots hfinish hkept⟩
  | ends hi hnil =>
      rw [hnil] at hcallers
      simp at hcallers

end Ongoing

/-! ## Whole stretches -/

/-- Between the first and the last instruction of a stretch, a call executes one of its instructions. -/
theorem Running.instruction_between (h : m.Running height) (hholds : m.code.Holds m.frame.ip is)
    (hbalanced : Balanced m.frame.ip 0 is) (h₁ : m₁.Running height₁) (hb : m₁.bytecode = m.bytecode)
    (hframe : m₁.frame = { m.frame with ip }) (hle : m.frame.ip ≤ ip)
    (hlt : ip < m.frame.ip + Instructions.size is) {next : Nat}
    (hdecode : decode m₁.code m₁.frame.ip = .instruction i next) :
    i ∈ is ∧ m.top + i.pops ≤ m₁.top := by
  obtain ⟨pre, post, rfl, hip, htop, hpost⟩ :=
    h.between hholds hbalanced h₁ hb hframe hle (Nat.le_of_lt hlt)
  cases post with
  | nil =>
      rw [List.append_nil] at hlt
      omega
  | cons j post =>
      rw [hpost.decode] at hdecode
      cases hdecode
      have hpops := hbalanced.right.1
      exact ⟨by simp, by omega⟩

/-- **On the way**: a call that does not return is ongoing, and all frames are typed. -/
theorem Stays.ongoing [StringHash] {depth : Nat} (hstays : Stays depth m₁ m') (hdepth : m.callers.length = depth)
    (hrunning : m.Running height) (hholds : m.code.Holds m.frame.ip is)
    (hbalanced : Balanced m.frame.ip 0 is) (hown : ∀ k, .setLocal k ∈ is → own k)
    (hfinish : finish = m.frame.ip + Instructions.size is) (hsafe : m₁.Safe)
    (hb : m₁.bytecode = m.bytecode) (hrunning₁ : m₁.Running height₁)
    (hongoing : m.Ongoing finish own above ip m₁) :
    ∃ above' ip' height', m.Ongoing finish own above' ip' m' ∧ m'.Running height' ∧
      m'.bytecode = m.bytecode := by
  induction hstays generalizing above ip height₁ with
  | refl => exact ⟨above, ip, height₁, hongoing, hrunning₁, hb⟩
  | @head m₁ m₂ m' hnot hstep _ ih =>
      have hsafe₂ := hsafe.steps (.one hstep)
      have hcases := hsafe.step_cases
      rw [hstep] at hcases
      cases hcases with
      | @executed _ i _ hfetched hdecode hexecuted =>
          have hreturn : i.isReturn = true → m₁.callers.length ≠ m.callers.length := fun hi hlength =>
            hnot ⟨hlength.trans hdepth, i, _, hdecode, hi⟩
          have hcallers : i.isReturn = true → m₁.callers ≠ [] := by
            intro hi hnil
            have hlength := hongoing.length_eq
            have hne := hreturn hi
            rw [hnil, List.length_nil] at hlength hne
            omega
          obtain ⟨above₂, ip₂, hongoing₂⟩ : ∃ above₂ ip₂, m.Ongoing finish own above₂ ip₂ m₂ := by
            have hchange := hfetched.change hexecuted
            cases above with
            | nil =>
                refine hongoing.step_running hchange hreturn fun hlt => ?_
                obtain ⟨hmem, htop⟩ := hrunning.instruction_between hholds hbalanced hfetched.running hb
                  (List.cons.inj hongoing.frames).1 hongoing.ip_le (hfinish ▸ hlt) hdecode
                exact ⟨htop, fun k hk => hown k (hk ▸ hmem)⟩
            | cons callee above => exact hongoing.step_called hfetched hchange
          obtain ⟨height₂, hrunning₂⟩ := hfetched.running_of_executed hexecuted hcallers
          exact ih hsafe₂.1 (hsafe₂.2.trans hb) hrunning₂ hongoing₂

/-- A machine that is to execute an instruction has not halted. -/
theorem Safe.running_of_holds (hm : m.Safe) (hholds : m.code.Holds m.frame.ip is) (hne : is ≠ []) :
    ∃ height, m.Running height := by
  rcases hm.control with hrunning | hhalted
  · exact hrunning
  · obtain ⟨i, is, rfl⟩ := List.exists_cons_of_ne_nil hne
    have hend := Code.decode_of_size_le hhalted.finished
    rw [hholds.decode] at hend
    cases hend

/-- **Stretches**: a call that has got from the first to the end of the last of some instructions, and has not
returned, is again what it was, with the values that the instructions leave. Of the slots below them only
those have changed that one of the instructions stores in. -/
theorem Safe.leaves [StringHash] (hm : m.Safe) (hholds : m.code.Holds m.frame.ip is) (hne : is ≠ [])
    (hbalanced : Balanced m.frame.ip 0 is) (hown : ∀ k, .setLocal k ∈ is → own k)
    (hstays : Stays m.callers.length m m') (hlength : m'.callers.length = m.callers.length)
    (hip : m'.frame.ip = m.frame.ip + Instructions.size is) :
    m.Leaves (heightAfter 0 is) own m' := by
  obtain ⟨height, hrunning⟩ := hm.running_of_holds hholds hne
  obtain ⟨above, ip, height', hongoing, hrunning', hb⟩ := hstays.ongoing rfl hrunning hholds hbalanced
    hown rfl hm rfl hrunning (.refl m _ own)
  have habove : above = [] := by
    have hsum := hongoing.length_eq
    exact List.eq_nil_of_length_eq_zero (by omega)
  have hframes := hongoing.frames
  rw [habove, List.nil_append, List.cons.injEq] at hframes
  obtain ⟨hframe, hcallers⟩ := hframes
  have hip' : m'.frame.ip = ip := by rw [hframe]
  obtain ⟨pre, post, rfl, hpre, htop, -⟩ := hrunning.between hholds hbalanced hrunning' hb hframe
    hongoing.ip_le (by omega)
  have hpost : post = [] := by
    rw [Instructions.size_append] at hip
    exact Instructions.eq_nil_of_size (by omega)
  rw [hpost, List.append_nil]
  exact ⟨htop, by rw [hip', hframe], hcallers, hongoing.slots (by omega)⟩

end Machine

end ScriptLang
