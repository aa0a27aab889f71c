import ScriptLang.Proofs.Bytecode.Stack
import ScriptLang.Machine

/-!
# Steps of the machine

What each instruction does to a machine, as equations between states.

Most instructions take some operands off the stack and put one value in their place, or fail.
`Instruction.result?` says which value that is, and `execute_result` that the machine does nothing else.
The other instructions store a value, jump, call a closure or end a call, and have an equation each.
-/

namespace ScriptLang

namespace MachineM

variable {α β : Type}

/-! ## The monad

A step reads and changes one state, or stops with a fault. Applied to a state, each of its parts is an
equation, and the proofs below run steps by rewriting with these. -/

/-- The second step runs on the state that the first one leaves, if that succeeds. -/
theorem bind_apply (x : MachineM α) (f : α → MachineM β) (m : Machine) :
    (x >>= f) m = match x m with
      | .ok a m' => f a m'
      | .error e m' => .error e m' := by
  show EStateM.bind x f m = _
  rw [EStateM.bind]
  cases x m <;> rfl

theorem pure_apply (a : α) (m : Machine) : (pure a : MachineM α) m = .ok a m := rfl

theorem get_apply (m : Machine) : (get : MachineM Machine) m = .ok m m := rfl

theorem set_apply (m m' : Machine) : (set m' : MachineM Unit) m = .ok () m' := rfl

theorem modify_apply (f : Machine → Machine) (m : Machine) :
    (modify f : MachineM Unit) m = .ok () (f m) := rfl

theorem fail_apply (e : RuntimeError) (m : Machine) : (fail e : MachineM α) m = .error (.error e) m := rfl

end MachineM

/-! ## The stack

The machine keeps a vector of slots and the number of those in use. The values above that number are still
there, but no instruction reads them as operands. -/

namespace Machine

/-- The value of a slot. -/
def slot (m : Machine) (k : Nat) : Value := m.stack[k]?.getD .null

/-- The `n` topmost values, the topmost one last. -/
def operands (m : Machine) (n : Nat) : List Value :=
  (List.range n).map fun k => m.slot (m.top - n + k)

/-- A machine without its `n` topmost values. -/
def dropped (m : Machine) (n : Nat) : Machine := { m with top := m.top - n }

/-- A machine with one more value. -/
def pushed (m : Machine) (v : Value) : Machine :=
  { m with stack := m.stack.setIfInBounds m.top v, top := m.top + 1 }

/-- A machine that goes on at an offset of the running code. -/
def jumped (m : Machine) (offset : Nat) : Machine := { m with frame := { m.frame with ip := offset } }

@[simp] theorem length_operands (m : Machine) (n : Nat) : (m.operands n).length = n := by
  simp [operands]

theorem operands_two (m : Machine) (h : 2 ≤ m.top) :
    m.operands 2 = [m.slot (m.top - 2), m.slot (m.top - 1)] := by
  have htop : m.top - 2 + 1 = m.top - 1 := by omega
  show [m.slot (m.top - 2), m.slot (m.top - 2 + 1)] = _
  rw [htop]

/-- The lowest operand by itself, such as the function of a call. -/
theorem operands_succ (m : Machine) (n : Nat) (h : n + 1 ≤ m.top) :
    m.operands (n + 1) = m.slot (m.top - 1 - n) :: m.operands n := by
  have hfirst : m.top - (n + 1) = m.top - 1 - n := by omega
  rw [operands, List.range_succ_eq_map, List.map_cons, List.map_map, hfirst]
  congr 1
  refine List.map_congr_left fun k _ => ?_
  have hslot : m.top - 1 - n + (k + 1) = m.top - n + k := by omega
  show m.slot (m.top - 1 - n + (k + 1)) = m.slot (m.top - n + k)
  rw [hslot]

end Machine

namespace MachineM

/-- A slot that exists can be set without proof that it does. -/
theorem set_eq_setIfInBounds {n : Nat} (stack : Vector Value n) {k : Nat} (v : Value) (h : k < n) :
    stack.set k v h = stack.setIfInBounds k v := by
  ext j hj
  rw [Vector.getElem_set, Vector.getElem_setIfInBounds]

theorem push_apply (v : Value) (m : Machine) :
    push v m = if m.top < stackSize then .ok () (m.pushed v)
      else .error (.error .stackOverflow) m := by
  simp only [push, bind_apply, get_apply]
  by_cases h : m.top < stackSize
  · rw [dif_pos h, if_pos h, set_apply, set_eq_setIfInBounds]
    rfl
  · rw [dif_neg h, if_neg h, fail_apply]

theorem pop_apply {m : Machine} (h : 1 ≤ m.top) :
    pop m = .ok (m.slot (m.top - 1)) (m.dropped 1) := by
  have htop : ¬ m.top = 0 := by omega
  simp only [pop, bind_apply, get_apply, if_neg htop]
  rfl

/-- Values are collected from the topmost one down. -/
theorem slots_eq (m : Machine) (start : Nat) : ∀ (n : Nat) (acc : List Value),
    slots m.stack start n acc = ((List.range n).map fun k => m.slot (start + k)) ++ acc
  | 0, _ => rfl
  | n + 1, acc => by
      rw [slots, slots_eq m start n, List.range_succ, List.map_append]
      simp [Machine.slot]

/-- Several values are popped at once, the lowest one first. -/
theorem popMany_apply {m : Machine} {n : Nat} (h : n ≤ m.top) :
    popMany n m = .ok (m.operands n) (m.dropped n) := by
  have htop : ¬ m.top < n := by omega
  simp only [popMany, bind_apply, get_apply, if_neg htop, slots_eq, List.append_nil]
  rfl

end MachineM

/-! ## Results -/

/-- The result of an arithmetic operation, or of joining two strings. -/
def Opcode.arithmeticResult (op : Opcode) : Value → Value → Except RuntimeError Value
  | .integer l, .integer r =>
    match op with
    | .add => .ok (.integer (l + r))
    | .sub => .ok (.integer (l - r))
    | .mul => .ok (.integer (l * r))
    | .div => if r = 0 then .error .divisionByZero else .ok (.integer (l / r))
    | _ => .error (.unknownOperator op .integer .integer)
  | .string l, .string r =>
    if op = .add then .ok (.string (l ++ r)) else .error (.unknownOperator op .string .string)
  | left, right => .error (.unsupportedBinaryTypes left.kind right.kind)

/-- The result of a comparison. -/
def Opcode.comparisonResult (op : Opcode) (left right : Value) : Except RuntimeError Value :=
  match op, left, right with
  | .greaterThan, .integer l, .integer r => .ok (.boolean (decide (r < l)))
  | .equal, _, _ => .ok (.boolean (left == right))
  | .notEqual, _, _ => .ok (.boolean (left != right))
  | _, _, _ => .error (.unknownOperator op left.kind right.kind)

section

variable [StringHash]

/-- The result of indexing. -/
def Value.elementResult (collection key : Value) : Except RuntimeError Value :=
  match collection.element key with
  | .ok v => .ok v
  | .error (.unusableHashKey kind) => .error (.unusableHashKey kind)
  | .error (.indexNotSupported kind) => .error (.indexNotSupported kind)

/-- The hash of keys and values that stand in turn. -/
def Value.hashResult (items : List Value) : Except RuntimeError Value :=
  match Value.hashOfPairs [] (MachineM.pairUp items) with
  | .ok v => .ok v
  | .error key => .error (.unusableHashKey key.kind)

/-- The result of changing the sign. -/
def Value.negationResult : Value → Except RuntimeError Value
  | .integer value => .ok (.integer (-value))
  | other => .error (.unsupportedNegation other.kind)

namespace Instruction

/-- What an instruction puts in the place of its operands. There is nothing if it does something else, or
if what it refers to does not exist. -/
def result? (i : Instruction) (m : Machine) (operands : List Value) :
    Option (Except RuntimeError Value) :=
  match i, operands with
  | .constant k, _ => m.bytecode.constants[k]?.map .ok
  | .add, [l, r] => some (Opcode.arithmeticResult .add l r)
  | .sub, [l, r] => some (Opcode.arithmeticResult .sub l r)
  | .mul, [l, r] => some (Opcode.arithmeticResult .mul l r)
  | .div, [l, r] => some (Opcode.arithmeticResult .div l r)
  | .equal, [l, r] => some (Opcode.comparisonResult .equal l r)
  | .notEqual, [l, r] => some (Opcode.comparisonResult .notEqual l r)
  | .greaterThan, [l, r] => some (Opcode.comparisonResult .greaterThan l r)
  | .bang, [v] => some (.ok (.boolean (!v.isTruthy)))
  | .minus, [v] => some v.negationResult
  | .true, _ => some (.ok (.boolean Bool.true))
  | .false, _ => some (.ok (.boolean Bool.false))
  | .null, _ => some (.ok .null)
  | .getGlobal k, _ => some (.ok (m.globals[k]?.getD .null))
  | .getLocal k, _ => m.stack[m.frame.base + k]?.map .ok
  | .getBuiltin k, _ => (Builtin.ofIndex? k).map fun b => .ok (.builtin b)
  | .getFree k, _ => m.frame.closure?.bind fun closure => closure.free[k]?.map .ok
  | .currentClosure, _ => m.frame.closure?.map fun closure => .ok closure.toValue
  | .array _, vs => some (.ok (.array vs))
  | .hash _, vs => some (Value.hashResult vs)
  | .index, [collection, key] => some (collection.elementResult key)
  | .closure k _, free =>
    match m.bytecode.constants[k]? with
    | some (.compiledFunction f) => some (.ok (.closure m.nextIdentity f free))
    | _ => none
  | .call _, callee :: arguments =>
    match callee with
    | .closure _ _ _ => none
    | .builtin b => some (.ok (b.result arguments))
    | other => some (.error (.notCallable other.kind))
  | _, _ => none

/-- The output behind an instruction. -/
def print (i : Instruction) (operands : List Value) (output : Output) : Output :=
  match i, operands with
  | .call _, .builtin b :: arguments => b.print arguments output
  | _, _ => output

/-- How many closures an instruction makes. -/
def closuresMade : Instruction → Nat
  | .closure _ _ => 1
  | _ => 0

end Instruction

end

/-- A machine whose operands were replaced by the result of an instruction. -/
def Machine.replaced (m : Machine) (i : Instruction) (v : Value) : Machine :=
  { m with
    stack := m.stack.setIfInBounds (m.top - i.pops) v
    top := m.top - i.pops + 1
    output := i.print (m.operands i.pops) m.output
    nextIdentity := m.nextIdentity + i.closuresMade }

namespace MachineM

/-- Two operands, the one below first. -/
theorem pop_pop_apply {f : Value → Value → MachineM Unit} {m : Machine} (h : 2 ≤ m.top) :
    (do let right ← pop; let left ← pop; f left right) m =
      f (m.slot (m.top - 2)) (m.slot (m.top - 1)) (m.dropped 2) := by
  have hdrop : (m.dropped 1).dropped 1 = m.dropped 2 := by
    simp [Machine.dropped, Nat.sub_sub]
  have hpop : pop (m.dropped 1) = .ok (m.slot (m.top - 2)) (m.dropped 2) := by
    rw [pop_apply (show 1 ≤ m.top - 1 by omega), hdrop]
    rfl
  simp only [bind_apply, pop_apply (show 1 ≤ m.top by omega), hpop]

/-- Putting a result on the stack, or failing. -/
def pushResult (r : Except RuntimeError Value) (m : Machine) : EStateM.Result Fault Machine Unit :=
  match r with
  | .ok v => push v m
  | .error e => .error (.error e) m

/-- The result for two integers is put on the stack, or the division by zero is reported. -/
theorem integerResult_bind_push (op : Opcode) (l r : Int64) (m : Machine) :
    (integerResult op l r >>= push) m =
      pushResult (op.arithmeticResult (.integer l) (.integer r)) m := by
  rw [bind_apply]
  cases op with
  | div =>
      simp only [integerResult, Opcode.arithmeticResult]
      by_cases hr : r = 0
      · rw [if_pos hr, if_pos hr]
        rfl
      · rw [if_neg hr, if_neg hr]
        rfl
  | _ => rfl

/-- An arithmetic instruction pops two operands and puts down their result. -/
theorem arithmetic_apply (op : Opcode) {m : Machine} (h : 2 ≤ m.top) :
    arithmetic op m =
      pushResult (op.arithmeticResult (m.slot (m.top - 2)) (m.slot (m.top - 1))) (m.dropped 2) := by
  refine (pop_pop_apply h).trans ?_
  cases hl : m.slot (m.top - 2) with
  | integer l =>
      cases hr : m.slot (m.top - 1) with
      | integer r => exact integerResult_bind_push op l r _
      | _ => rfl
  | string l =>
      cases hr : m.slot (m.top - 1) with
      | string r =>
          simp only [Opcode.arithmeticResult]
          by_cases hop : op = .add
          · rw [if_pos hop, if_pos hop]
            rfl
          · rw [if_neg hop, if_neg hop]
            rfl
      | _ => rfl
  | _ => rfl

theorem compare_apply (op : Opcode) {m : Machine} (h : 2 ≤ m.top) :
    compare op m =
      pushResult (op.comparisonResult (m.slot (m.top - 2)) (m.slot (m.top - 1))) (m.dropped 2) := by
  refine (pop_pop_apply h).trans ?_
  generalize m.slot (m.top - 2) = left
  generalize m.slot (m.top - 1) = right
  cases op with
  | greaterThan => cases left <;> cases right <;> rfl
  | _ => rfl

theorem index_apply [StringHash] {m : Machine} (h : 2 ≤ m.top) :
    execute .index m =
      pushResult ((m.slot (m.top - 2)).elementResult (m.slot (m.top - 1))) (m.dropped 2) := by
  refine (pop_pop_apply (f := fun collection key => element collection key >>= push) h).trans ?_
  rw [bind_apply, element, Value.elementResult]
  cases (m.slot (m.top - 2)).element (m.slot (m.top - 1)) with
  | ok v => rfl
  | error e => cases e <;> rfl

theorem buildHash_bind_push [StringHash] (items : List Value) (m : Machine) :
    (buildHash items >>= push) m = pushResult (Value.hashResult items) m := by
  rw [bind_apply, buildHash, Value.hashResult]
  cases Value.hashOfPairs [] (pairUp items) <;> rfl

/-- Taking one operand. -/
theorem pop_bind_apply {f : Value → MachineM Unit} {m : Machine} (h : 1 ≤ m.top) :
    (pop >>= f) m = f (m.slot (m.top - 1)) (m.dropped 1) := by
  rw [bind_apply, pop_apply h]

/-- Taking some operands. -/
theorem popMany_bind_apply {f : List Value → MachineM Unit} {m : Machine} {n : Nat} (h : n ≤ m.top) :
    (popMany n >>= f) m = f (m.operands n) (m.dropped n) := by
  rw [bind_apply, popMany_apply h]

variable [StringHash]

/-- Instructions with a result that leave the output and the number of closures alone. -/
theorem execute_eq_pushResult {i : Instruction} {m : Machine} {r : Except RuntimeError Value}
    (h : i.result? m (m.operands i.pops) = some r) (hpops : i.pops ≤ m.top)
    (hcall : i.opcode ≠ .call) (hclosure : i.opcode ≠ .closure) :
    execute i m = pushResult r (m.dropped i.pops) := by
  cases i with
  | constant k =>
      obtain ⟨v, hv, rfl⟩ := Option.map_eq_some_iff.mp h
      simp only [execute, bind_apply, get_apply, hv]
      rfl
  | add =>
      cases Option.some.inj (Machine.operands_two m hpops ▸ h)
      exact arithmetic_apply .add hpops
  | sub =>
      cases Option.some.inj (Machine.operands_two m hpops ▸ h)
      exact arithmetic_apply .sub hpops
  | mul =>
      cases Option.some.inj (Machine.operands_two m hpops ▸ h)
      exact arithmetic_apply .mul hpops
  | div =>
      cases Option.some.inj (Machine.operands_two m hpops ▸ h)
      exact arithmetic_apply .div hpops
  | equal =>
      cases Option.some.inj (Machine.operands_two m hpops ▸ h)
      exact compare_apply .equal hpops
  | notEqual =>
      cases Option.some.inj (Machine.operands_two m hpops ▸ h)
      exact compare_apply .notEqual hpops
  | greaterThan =>
      cases Option.some.inj (Machine.operands_two m hpops ▸ h)
      exact compare_apply .greaterThan hpops
  | index =>
      cases Option.some.inj (Machine.operands_two m hpops ▸ h)
      exact index_apply hpops
  | bang =>
      cases h
      exact pop_bind_apply hpops
  | minus =>
      cases h
      refine (pop_bind_apply hpops).trans ?_
      show _ = pushResult (m.slot (m.top - 1)).negationResult (m.dropped 1)
      cases m.slot (m.top - 1) <;> rfl
  | true => cases h; rfl
  | false => cases h; rfl
  | null => cases h; rfl
  | getGlobal k => cases h; rfl
  | getLocal k =>
      obtain ⟨v, hv, rfl⟩ := Option.map_eq_some_iff.mp h
      simp only [execute, bind_apply, get_apply, hv]
      rfl
  | getBuiltin k =>
      obtain ⟨b, hb, rfl⟩ := Option.map_eq_some_iff.mp h
      simp only [execute, hb]
      rfl
  | getFree k =>
      obtain ⟨closure, hclosure, hget⟩ := Option.bind_eq_some_iff.mp h
      obtain ⟨v, hv, rfl⟩ := Option.map_eq_some_iff.mp hget
      simp only [execute, bind_apply, get_apply, hclosure, hv]
      rfl
  | currentClosure =>
      obtain ⟨closure, hclosure, rfl⟩ := Option.map_eq_some_iff.mp h
      simp only [execute, bind_apply, get_apply, hclosure]
      rfl
  | array n =>
      cases h
      exact popMany_bind_apply hpops
  | hash n =>
      cases h
      refine (popMany_bind_apply hpops).trans ?_
      exact buildHash_bind_push _ _
  | call n => exact absurd rfl hcall
  | closure k n => exact absurd rfl hclosure
  | _ => cases h

/-- A closure takes its captured values off the stack and gets an identity of its own. -/
theorem pushClosure_apply {k n : Nat} {m : Machine} {f : CompiledFunction} (h : n ≤ m.top)
    (hf : m.bytecode.constants[k]? = some (.compiledFunction f)) :
    execute (.closure k n) m =
      if m.top - n < stackSize then
        .ok () (m.replaced (.closure k n) (.closure m.nextIdentity f (m.operands n)))
      else .error (.error .stackOverflow) (m.dropped n) := by
  have hpush : execute (.closure k n) m = (push (.closure m.nextIdentity f (m.operands n)) >>= fun _ =>
      modify fun m => { m with nextIdentity := m.nextIdentity + 1 }) (m.dropped n) := by
    simp only [execute, pushClosure, bind_apply, get_apply, hf, popMany_apply h]
  rw [hpush, bind_apply, push_apply]
  by_cases hroom : (m.dropped n).top < stackSize
  · rw [if_pos hroom, if_pos (show m.top - n < stackSize from hroom)]
    rfl
  · rw [if_neg hroom, if_neg (show ¬ m.top - n < stackSize from hroom)]

/-- A built-in function replaces itself and its arguments. -/
theorem callBuiltin_apply {n : Nat} {m : Machine} {b : Builtin} (h : n + 1 ≤ m.top)
    (hb : m.slot (m.top - 1 - n) = .builtin b) :
    execute (.call n) m =
      if m.top - (n + 1) < stackSize then
        .ok () (m.replaced (.call n) (b.result (m.operands n)))
      else .error (.error .stackOverflow) (m.dropped (n + 1)) := by
  have htop : ¬ m.top ≤ n := by omega
  have hslot : m.stack[m.top - 1 - n]?.getD .null = .builtin b := hb
  have hops : m.operands (Instruction.call n).pops = .builtin b :: m.operands n := by
    rw [← hb]
    exact Machine.operands_succ m n h
  have hdrop : { m.dropped n with top := (m.dropped n).top - 1 } = m.dropped (n + 1) := by
    simp only [Machine.dropped, Nat.sub_sub]
  have hpush : execute (.call n) m = (push (b.result (m.operands n)) >>= fun _ =>
      modify fun m' => { m' with output := b.print (m.operands n) m'.output }) (m.dropped (n + 1)) := by
    simp only [execute, call, bind_apply, get_apply, if_neg htop, hslot, callBuiltin,
      popMany_apply (show n ≤ m.top by omega), modify_apply, hdrop]
  rw [hpush, bind_apply, push_apply]
  by_cases hroom : (m.dropped (n + 1)).top < stackSize
  · rw [if_pos hroom, if_pos (show m.top - (n + 1) < stackSize from hroom), Machine.replaced, hops]
    rfl
  · rw [if_neg hroom, if_neg (show ¬ m.top - (n + 1) < stackSize from hroom)]

/-- What is neither a closure nor a built-in function cannot be called. -/
theorem call_notCallable {n : Nat} {m : Machine} {v : Value} (h : n + 1 ≤ m.top)
    (hv : m.slot (m.top - 1 - n) = v) (hclosure : v.kind ≠ .closure) (hbuiltin : v.kind ≠ .builtin) :
    execute (.call n) m = .error (.error (.notCallable v.kind)) m := by
  have htop : ¬ m.top ≤ n := by omega
  have hslot : m.stack[m.top - 1 - n]?.getD .null = v := hv
  simp only [execute, call, bind_apply, get_apply, if_neg htop, hslot]
  cases v with
  | closure => exact absurd rfl hclosure
  | builtin => exact absurd rfl hbuiltin
  | _ => rfl

/-- **Results**: an instruction with a result puts it in the place of its operands, or it fails and at most
takes them off the stack. -/
theorem execute_result {i : Instruction} {m : Machine} {r : Except RuntimeError Value}
    (h : i.result? m (m.operands i.pops) = some r) (hpops : i.pops ≤ m.top) :
    ∃ n, execute i m =
      match r with
      | .error e => .error (.error e) (m.dropped n)
      | .ok v =>
        if m.top - i.pops < stackSize then .ok () (m.replaced i v)
        else .error (.error .stackOverflow) (m.dropped n) := by
  by_cases hcall : i.opcode = .call
  · cases i with
    | call n =>
        have hops : m.operands (Instruction.call n).pops = m.slot (m.top - 1 - n) :: m.operands n :=
          Machine.operands_succ m n hpops
        rw [hops] at h
        cases hcallee : m.slot (m.top - 1 - n) with
        | closure identity f free =>
            rw [hcallee] at h
            cases h
        | builtin b =>
            rw [hcallee] at h
            cases h
            exact ⟨n + 1, callBuiltin_apply hpops hcallee⟩
        | _ =>
            rw [hcallee] at h
            cases h
            exact ⟨0, call_notCallable hpops hcallee (by simp [Value.kind]) (by simp [Value.kind])⟩
    | _ => cases hcall
  · by_cases hclosure : i.opcode = .closure
    · cases i with
      | closure k n =>
          simp only [Instruction.result?] at h
          cases hk : m.bytecode.constants[k]? with
          | none => simp [hk] at h
          | some v =>
              cases v with
              | compiledFunction f =>
                  simp only [hk, Option.some.injEq] at h
                  subst h
                  exact ⟨n, pushClosure_apply hpops hk⟩
              | _ => simp [hk] at h
      | _ => cases hclosure
    · refine ⟨i.pops, ?_⟩
      rw [execute_eq_pushResult h hpops hcall hclosure]
      cases r with
      | error e => rfl
      | ok v =>
          refine (push_apply v (m.dropped i.pops)).trans ?_
          cases i <;> first | rfl | exact absurd rfl hcall | exact absurd rfl hclosure

/-! ## The other instructions

They have no result in the sense above: they store a value, jump, or change the frame. -/

theorem execute_pop {m : Machine} (h : 1 ≤ m.top) : execute .pop m = .ok () (m.dropped 1) := by
  show EStateM.map (fun _ => ()) pop m = _
  rw [EStateM.map, pop_apply h]

/-- Storing a global takes its value off the stack. -/
theorem execute_setGlobal {k : Nat} {m : Machine} (h : 1 ≤ m.top) :
    execute (.setGlobal k) m = .ok ()
      { m.dropped 1 with globals := m.globals.setIfInBounds k (m.slot (m.top - 1)) } :=
  pop_bind_apply h

/-- Storing a local writes to a slot of the frame, below the operands. -/
theorem execute_setLocal {k : Nat} {m : Machine} (h : 1 ≤ m.top) (hk : m.frame.base + k < stackSize) :
    execute (.setLocal k) m = .ok ()
      { m.dropped 1 with
        stack := m.stack.setIfInBounds (m.frame.base + k) (m.slot (m.top - 1)) } := by
  refine (pop_bind_apply h).trans ?_
  rw [bind_apply, get_apply]
  have hk' : (m.dropped 1).frame.base + k < stackSize := hk
  show (if h : (m.dropped 1).frame.base + k < stackSize then _ else _ : MachineM Unit) (m.dropped 1) = _
  rw [dif_pos hk', set_apply, set_eq_setIfInBounds]
  rfl

theorem execute_jump (target : Nat) (m : Machine) : execute (.jump target) m = .ok () (m.jumped target) :=
  rfl

/-- A conditional jump takes the condition off the stack, whichever way it goes. -/
theorem execute_jumpNotTruthy {target : Nat} {m : Machine} (h : 1 ≤ m.top) :
    execute (.jumpNotTruthy target) m = .ok ()
      (if (m.slot (m.top - 1)).isTruthy then m.dropped 1 else (m.dropped 1).jumped target) := by
  refine (pop_bind_apply h).trans ?_
  cases (m.slot (m.top - 1)).isTruthy <;> rfl

end MachineM

/-- A machine that has entered a closure with the `n` topmost values as its arguments. -/
def Machine.entered (m : Machine) (closure : Closure) (n : Nat) : Machine :=
  { m with
    stack := MachineM.clear m.top (m.top - n + closure.function.numLocals - m.top) m.stack
    top := m.top - n + closure.function.numLocals
    frame := { closure? := some closure, base := m.top - n }
    callers := m.frame :: m.callers }

namespace MachineM

variable [StringHash]

/-- What calling a closure comes to, whatever its function is. -/
theorem execute_callClosure_eq {n : Nat} {m : Machine} {closure : Closure} (h : n + 1 ≤ m.top)
    (hcallee : m.slot (m.top - 1 - n) = closure.toValue) :
    execute (.call n) m =
      if n ≠ closure.function.numParameters then
        .error (.error (.wrongArgumentCount closure.function.numParameters n)) m
      else if maxFrames ≤ m.callers.length + 1 then .error (.error .frameOverflow) m
      else if slotBound ≤ m.top - n + closure.function.numLocals then
        .error (.malformed .function) m
      else if stackSize < m.top - n + closure.function.numLocals then
        .error (.error .stackOverflow) m
      else if m.top - n + closure.function.numLocals < m.top then .error (.malformed .function) m
      else .ok () (m.entered closure n) := by
  have htop : ¬ m.top ≤ n := by omega
  have hslot : m.stack[m.top - 1 - n]?.getD .null = closure.toValue := hcallee
  have hcall : execute (.call n) m = callClosure closure n m := by
    simp only [execute, call, bind_apply, get_apply, if_neg htop, hslot]
    rfl
  rw [hcall, callClosure]
  split
  · rfl
  · simp only [bind_apply, get_apply]
    split
    · rfl
    · split
      · rfl
      · split
        · rfl
        · split <;> rfl

/-- A closure is entered, unless a limit is reached or the number of arguments is wrong. -/
theorem execute_callClosure {n : Nat} {m : Machine} {closure : Closure} (h : n + 1 ≤ m.top)
    (hcallee : m.slot (m.top - 1 - n) = closure.toValue)
    (hparameters : closure.function.numParameters ≤ closure.function.numLocals)
    (hbound : n = closure.function.numParameters →
      m.top - n + closure.function.numLocals < slotBound) :
    execute (.call n) m =
      if n ≠ closure.function.numParameters then
        .error (.error (.wrongArgumentCount closure.function.numParameters n)) m
      else if maxFrames ≤ m.callers.length + 1 then .error (.error .frameOverflow) m
      else if stackSize < m.top - n + closure.function.numLocals then
        .error (.error .stackOverflow) m
      else .ok () (m.entered closure n) := by
  rw [execute_callClosure_eq h hcallee]
  by_cases hn : n = closure.function.numParameters
  · have hlow : ¬ m.top - n + closure.function.numLocals < m.top := by omega
    rw [if_neg (Nat.not_le.mpr (hbound hn)), if_neg hlow]
  · rw [if_pos hn, if_pos hn]

theorem execute_return (m : Machine) : execute .return m = returnWith .null m := rfl

theorem execute_returnValue {m : Machine} (h : 1 ≤ m.top) :
    execute .returnValue m = returnWith (m.slot (m.top - 1)) (m.dropped 1) := pop_bind_apply h

omit [StringHash] in
/-- A `return` in the main program ends it. -/
theorem returnWith_main {v : Value} {m : Machine} (h : m.callers = []) :
    returnWith v m = .ok ()
      { m with
        stack := m.stack.setIfInBounds m.top v
        frame := { m.frame with ip := m.code.size } } := by
  simp only [returnWith, bind_apply, get_apply, h, set_apply]

omit [StringHash] in
/-- A `return` in a function goes on behind the call, with the result in the slot of the function. -/
theorem returnWith_call {v : Value} {m : Machine} {caller : Frame} {callers : List Frame}
    (h : m.callers = caller :: callers) (hbase : m.frame.base - 1 < stackSize) :
    returnWith v m = .ok ()
      { m with
        stack := m.stack.setIfInBounds (m.frame.base - 1) v
        top := m.frame.base - 1 + 1
        frame := caller
        callers } := by
  simp only [returnWith, bind_apply, get_apply, h, set_apply, push_apply]
  exact if_pos hbase

/-! ## Whole steps

One step decodes the instruction at the instruction pointer, moves the pointer behind it, and executes it. -/

/-- The instruction runs with the pointer already behind it. -/
theorem step_of_decode {m : Machine} {i : Instruction} {next : Nat}
    (h : decode m.code m.frame.ip = .instruction i next) :
    step m = match execute i (m.jumped next) with
      | .ok _ m' => .ok true m'
      | .error e m' => .error e m' := by
  have hjump : jump next m = .ok () (m.jumped next) := rfl
  simp only [step, bind_apply, get_apply, h, hjump, pure_apply]
  cases execute i (m.jumped next) <;> rfl

/-- At the end of the code there is nothing to do. -/
theorem step_finished {m : Machine} (h : decode m.code m.frame.ip = .finished) :
    step m = .ok false m := by
  simp only [step, bind_apply, get_apply, h]
  rfl

end MachineM

end ScriptLang
