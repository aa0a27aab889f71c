import ScriptLang.Proofs.Compiler.Jobs

/-!
# The record of the last instruction

An emitter remembers the last two instructions that it has written. After a `pop` is taken back the older record is
out of date, until the next instruction is written. It is asked again only behind another `pop`, which is written
behind the code of an expression, and no code of an expression ends with a `pop`. Main statement:
`Compiler.last_instruction_right`.
-/

namespace ScriptLang

/-! ## Records of instructions

A record lists the operations that were written and their positions, in order. It says more than the bytes,
which could be read in another way from the middle of an instruction. -/

theorem Instruction.opcode_eq_pop_iff {i : Instruction} : i.opcode = .pop ↔ i = .pop := by
  cases i <;> simp [opcode]

theorem Symbol.loadInstruction_ne_pop (symbol : Symbol) : symbol.loadInstruction ≠ .pop := by
  unfold loadInstruction
  cases symbol.place <;> exact Instruction.noConfusion

theorem Symbol.storeInstruction_ne_pop (symbol : Symbol) : symbol.storeInstruction ≠ .pop := by
  unfold storeInstruction
  cases symbol.place <;> exact Instruction.noConfusion

theorem Operator.unaryInstruction_ne_pop {operator : Operator} {i : Instruction}
    (h : operator.unaryInstruction = .ok i) : i ≠ .pop := by
  cases operator <;> cases h <;> exact Instruction.noConfusion

theorem Operator.binaryInstruction_ne_pop {operator : Operator} {i : Instruction}
    (h : operator.binaryInstruction = .ok i) : i ≠ .pop := by
  cases operator <;> cases h <;> exact Instruction.noConfusion

namespace Instructions

variable {is js : Instructions} {i k : Instruction} {ls : List Emitted} {l : Emitted}

/-- The records of some instructions that stand from a position on. -/
def emittedFrom : Nat → Instructions → List Emitted
  | _, [] => []
  | position, i :: is => ⟨i.opcode, position⟩ :: emittedFrom (position + i.size) is

/-- The records of the instructions of some code. -/
def emitted (is : Instructions) : List Emitted := emittedFrom 0 is

/-- Records of two lists of instructions, one behind the other. -/
theorem emittedFrom_append (position : Nat) (is js : Instructions) :
    emittedFrom position (is ++ js) = emittedFrom position is ++ emittedFrom (position + size is) js := by
  induction is generalizing position with
  | nil => rfl
  | cons i is ih => simp [emittedFrom, ih, Nat.add_assoc]

theorem emitted_concat (is : Instructions) (i : Instruction) :
    emitted (is ++ [i]) = emitted is ++ [⟨i.opcode, size is⟩] := by
  simp [emitted, emittedFrom_append, emittedFrom]

/-- The records do not tell instructions of one operation apart. -/
theorem emitted_replace (h : i.opcode = k.opcode) (is js : Instructions) :
    emitted (is ++ i :: js) = emitted (is ++ k :: js) := by
  simp [emitted, emittedFrom_append, emittedFrom, Instruction.size_eq, h]

theorem emitted_eq_concat (h : emitted is = ls ++ [l]) :
    ∃ js i, is = js ++ [i] ∧ emitted js = ls ∧ l = ⟨i.opcode, size js⟩ := by
  obtain rfl | ⟨js, i, rfl⟩ := is.eq_nil_or_concat
  · simp [emitted, emittedFrom] at h
  · rw [List.concat_eq_append, emitted_concat] at h
    obtain ⟨hjs, hl⟩ := List.append_inj' h rfl
    exact ⟨js, i, List.concat_eq_append, hjs, (List.singleton_inj.mp hl).symm⟩

theorem exists_of_mem_emittedFrom {position : Nat} (h : l ∈ emittedFrom position is) :
    ∃ js i ks, is = js ++ i :: ks ∧ l = ⟨i.opcode, position + size js⟩ := by
  induction is generalizing position with
  | nil => cases h
  | cons i is ih =>
      rcases List.mem_cons.mp h with rfl | h
      · exact ⟨[], i, is, rfl, rfl⟩
      · obtain ⟨js, k, ks, rfl, rfl⟩ := ih h
        exact ⟨i :: js, k, ks, rfl, by simp [Nat.add_assoc]⟩

/-- Each record is of an instruction at its position. -/
theorem exists_of_mem_emitted (h : l ∈ emitted is) :
    ∃ js i ks, is = js ++ i :: ks ∧ l = ⟨i.opcode, size js⟩ := by
  obtain ⟨js, i, ks, his, hl⟩ := exists_of_mem_emittedFrom h
  exact ⟨js, i, ks, his, by rwa [Nat.zero_add] at hl⟩

end Instructions

/-- The last instruction of some code is not a `pop`. -/
def LastNotPop (ls : List Emitted) : Prop := ∀ l ∈ ls.getLast?, l.opcode ≠ .pop

theorem lastNotPop_concat {ls : List Emitted} {l : Emitted} : LastNotPop (ls ++ [l]) ↔ l.opcode ≠ .pop := by
  simp [LastNotPop]

/-! ## Emitters

The two fields of an emitter that remember instructions are the last two entries of its record. Each change of
the emitter comes with a change of the record. -/

/-- An emitter has written the instructions with certain records and remembers the last one. The one before is
remembered if the last one is a `pop`, and it is no `pop`. -/
structure Emitter.Recorded (e : Emitter) (ls : List Emitted) : Prop where
  code : ∃ is, e.code = Instructions.toCode is ∧ (∀ i ∈ is, i.Fits) ∧ Instructions.emitted is = ls
  last : e.last? = ls.getLast?
  previous : ∀ before l, ls = before ++ [l] → l.opcode = .pop →
    e.previous? = before.getLast? ∧ LastNotPop before

namespace Emitter.Recorded

open Instructions

variable {e : Emitter} {ls : List Emitted} {l : Emitted} {i : Instruction} {is js : Instructions}

theorem empty : Recorded {} [] where
  code := ⟨[], rfl, List.forall_mem_nil _, rfl⟩
  last := rfl
  previous before l h := by simp at h

/-- Two successive `pop` are never written. -/
theorem append (h : e.Recorded ls) (hfit : i.Fits) (hpop : i = .pop → LastNotPop ls) :
    (e.append i).Recorded (ls ++ [⟨i.opcode, e.position⟩]) where
  code := by
    obtain ⟨is, hcode, hfits, rfl⟩ := h.code
    refine ⟨is ++ [i], ?_, ?_, ?_⟩
    · rw [← Array.toList_inj, toList_append, hcode]
      simp [toCode]
    · exact List.forall_mem_append.mpr ⟨hfits, List.forall_mem_singleton.mpr hfit⟩
    · rw [emitted_concat, position, hcode, size_toCode]
  last := by
    rw [List.getLast?_concat]
    rfl
  previous before l hls hl := by
    obtain ⟨rfl, hlast⟩ := List.append_inj' hls rfl
    cases hlast
    exact ⟨h.last, hpop (Instruction.opcode_eq_pop_iff.mp hl)⟩

/-- What the emitter takes for the last operation is the last one of the record. -/
theorem endsWith_eq_true (h : e.Recorded ls) {op : Opcode} (hends : e.endsWith op = true) :
    ∃ before l, ls = before ++ [l] ∧ l.opcode = op := by
  rw [endsWith, h.last, Option.any_eq_true] at hends
  obtain ⟨l, hl, hop⟩ := hends
  obtain ⟨before, rfl⟩ := List.getLast?_eq_some_iff.mp hl
  exact ⟨before, l, rfl, of_decide_eq_true hop⟩

/-- The last instruction in front of the record of it. -/
theorem decompose (h : e.Recorded (ls ++ [l])) : ∃ is i, e.code = toCode (is ++ [i]) ∧
    (∀ j ∈ is, j.Fits) ∧ i.Fits ∧ emitted is = ls ∧ l = ⟨i.opcode, size is⟩ := by
  obtain ⟨_, hcode, hfits, hemitted⟩ := h.code
  obtain ⟨is, i, rfl, his, rfl⟩ := emitted_eq_concat hemitted
  obtain ⟨hfits, hfit⟩ := List.forall_mem_append.mp hfits
  exact ⟨is, i, hcode, hfits, List.forall_mem_singleton.mp hfit, his, rfl⟩

theorem last_eq (h : e.Recorded (ls ++ [l])) : e.last? = some l := by rw [h.last, List.getLast?_concat]

/-- Taking the last instruction back leaves the code of the others. -/
theorem code_removeLast {op : Opcode} (hlast : e.last? = some ⟨op, size is⟩) (hcode : e.code = toCode (is ++ [i])) :
    e.removeLast.code = toCode is := by
  have htoList : e.code.toList = encode is ++ i.encode := by rw [hcode]; simp [toCode]
  rw [removeLast, hlast, ← Array.toList_inj]
  exact Code.toList_truncate _ _ htoList

theorem code_returnLast (hlast : e.last? = some ⟨.pop, size is⟩) (hcode : e.code = toCode (is ++ [.pop])) :
    e.returnLast.code = toCode (is ++ [.returnValue]) := by
  have htoList : e.code.toList = encode is ++ Instruction.pop.encode ++ [] := by rw [hcode]; simp [toCode]
  rw [returnLast, hlast, ← Array.toList_inj]
  have hwrite := Code.toList_write_instruction _ _ htoList (j := .returnValue) rfl
  simpa [toCode, size] using hwrite

/-- A `pop` that is last is the last one of the instructions, and behind the one that is remembered before it. -/
theorem pop (h : e.Recorded (ls ++ [l])) (hpop : l.opcode = .pop) : ∃ is, e.code = toCode (is ++ [.pop]) ∧
    (∀ j ∈ is, j.Fits) ∧ emitted is = ls ∧ e.last? = some ⟨.pop, size is⟩ := by
  obtain ⟨is, i, hcode, hfits, -, his, rfl⟩ := h.decompose
  obtain rfl := Instruction.opcode_eq_pop_iff.mp hpop
  exact ⟨is, hcode, hfits, his, h.last_eq⟩

/-- The instruction in front of the `pop` is the last one then, and no `pop`. -/
theorem removeLast (h : e.Recorded (ls ++ [l])) (hpop : l.opcode = .pop) : e.removeLast.Recorded ls := by
  obtain ⟨is, hcode, hfits, his, hlast⟩ := h.pop hpop
  obtain ⟨hprevious, hnotPop⟩ := h.previous ls l rfl hpop
  constructor
  · exact ⟨is, code_removeLast hlast hcode, hfits, his⟩
  · rw [Emitter.removeLast, hlast]
    exact hprevious
  · rintro before l rfl hl
    exact absurd hl (lastNotPop_concat.mp hnotPop)

/-- The record has another operation at the same position. -/
theorem returnLast (h : e.Recorded (ls ++ [l])) (hpop : l.opcode = .pop) :
    e.returnLast.Recorded (ls ++ [⟨.returnValue, l.position⟩]) := by
  obtain ⟨is, hcode, hfits, his, hlast⟩ := h.pop hpop
  obtain rfl : l = ⟨.pop, size is⟩ := Option.some.inj (h.last_eq.symm.trans hlast)
  constructor
  · refine ⟨is ++ [.returnValue], code_returnLast hlast hcode, ?_, ?_⟩
    · exact List.forall_mem_append.mpr ⟨hfits, List.forall_mem_singleton.mpr rfl⟩
    · rw [emitted_concat, his]
      rfl
  · rw [Emitter.returnLast, hlast, List.getLast?_concat]
  · intro before l hls hl
    obtain ⟨-, hlast⟩ := List.append_inj' hls rfl
    cases hlast
    cases hl

/-- A jump is filled in where it stands, and the other instructions stay. -/
theorem code_patch (hcode : e.code = toCode (is ++ i :: js)) {k : Instruction} (hop : i.opcode = k.opcode) :
    (e.patch (size is) k).code = toCode (is ++ k :: js) := by
  have htoList : e.code.toList = encode is ++ i.encode ++ encode js := by rw [hcode]; simp [toCode]
  have hsize : i.size = k.size := by rw [i.size_eq, k.size_eq, hop]
  rw [← Array.toList_inj]
  exact (toList_patch htoList rfl hsize).trans (by simp [toCode])

/-- Filling in an operand leaves all records as they are. -/
theorem patch (h : e.Recorded ls) {k : Instruction} {position : Nat} (hmem : ⟨k.opcode, position⟩ ∈ ls)
    (hfit : k.Fits) : (e.patch position k).Recorded ls := by
  obtain ⟨_, hcode, hfits, rfl⟩ := h.code
  obtain ⟨is, i, js, rfl, heq⟩ := exists_of_mem_emitted hmem
  obtain ⟨hop, rfl⟩ := Emitted.mk.inj heq
  refine ⟨⟨is ++ k :: js, code_patch hcode hop.symm, ?_, (emitted_replace hop is js).trans ?_⟩, h.last, h.previous⟩
  · simp only [List.forall_mem_append, List.forall_mem_cons] at hfits ⊢
    exact ⟨hfits.1, hfit, hfits.2.2⟩
  · rfl

end Emitter.Recorded

/-- The last instruction is recorded as it stands, at the end of the code. -/
def Emitter.LastRecorded (e : Emitter) : Prop :=
  ∀ last, e.last? = some last →
    e.code[last.position]? = some last.opcode.toByte ∧ e.code.size = last.position + last.opcode.length

/-- A `pop` comes last, behind some instructions, and if an instruction is remembered as the one before the last, it
stands directly before the `pop`. -/
structure Emitter.EndsInPop (e : Emitter) (is : Instructions) : Prop where
  decodes : e.code.Decodes (is ++ [.pop])
  last : e.last? = some ⟨.pop, Instructions.size is⟩
  previous : ∀ l, e.previous? = some l → ∃ js i, is = js ++ [i] ∧ l = ⟨i.opcode, Instructions.size js⟩

namespace Emitter.Recorded

open Instructions

variable {e : Emitter} {ls : List Emitted}

theorem lastRecorded (h : e.Recorded ls) : e.LastRecorded := by
  intro last hlast
  rw [h.last] at hlast
  obtain ⟨before, rfl⟩ := List.getLast?_eq_some_iff.mp hlast
  obtain ⟨is, i, hcode, -, -, -, rfl⟩ := h.decompose
  constructor
  · rw [hcode, ← Array.getElem?_toList]
    simp [toCode, size, Instruction.encode]
  · rw [hcode, size_toCode, size_append, ← i.size_eq]
    simp

/-- Both edits of a `pop` that comes last leave the instructions before it as they are. -/
theorem endsInPop (h : e.Recorded ls) (hends : e.endsWith .pop = true) : ∃ is, e.EndsInPop is ∧
    e.removeLast.code.Decodes is ∧ e.returnLast.code.Decodes (is ++ [.returnValue]) := by
  obtain ⟨before, l, rfl, hpop⟩ := h.endsWith_eq_true hends
  obtain ⟨is, hcode, hfits, rfl, hlast⟩ := h.pop hpop
  have hfits_concat : ∀ k : Instruction, k.Fits → ∀ i ∈ is ++ [k], i.Fits := fun k hk =>
    List.forall_mem_append.mpr ⟨hfits, List.forall_mem_singleton.mpr hk⟩
  refine ⟨is, ⟨?_, hlast, fun l' hl' => ?_⟩, ?_, ?_⟩
  · rw [hcode]
    exact Code.decodes_toCode (hfits_concat .pop rfl)
  · rw [(h.previous _ l rfl hpop).1] at hl'
    obtain ⟨before, hbefore⟩ := List.getLast?_eq_some_iff.mp hl'
    obtain ⟨js, i, his, -, hl⟩ := emitted_eq_concat hbefore
    exact ⟨js, i, his, hl⟩
  · rw [code_removeLast hlast hcode]
    exact Code.decodes_toCode hfits
  · rw [code_returnLast hlast hcode]
    exact Code.decodes_toCode (hfits_concat .returnValue rfl)

/-- Filling in an operand leaves all other instructions as they are. -/
theorem decodes_patch (h : e.Recorded ls) {op : Opcode} {position : Nat} (hmem : ⟨op, position⟩ ∈ ls) :
    ∃ is i js, e.code.Decodes (is ++ i :: js) ∧ size is = position ∧ i.opcode = op ∧
      ∀ k : Instruction, k.opcode = op → k.Fits → (e.patch position k).code.Decodes (is ++ k :: js) := by
  obtain ⟨_, hcode, hfits, rfl⟩ := h.code
  obtain ⟨is, i, js, rfl, heq⟩ := exists_of_mem_emitted hmem
  obtain ⟨rfl, rfl⟩ := Emitted.mk.inj heq
  refine ⟨is, i, js, ?_, rfl, rfl, fun k hop hk => ?_⟩
  · rw [hcode]
    exact Code.decodes_toCode hfits
  · rw [code_patch hcode hop.symm]
    simp only [List.forall_mem_append, List.forall_mem_cons] at hfits
    exact Code.decodes_toCode (List.forall_mem_append.mpr ⟨hfits.1, List.forall_mem_cons.mpr ⟨hk, hfits.2.2⟩⟩)

end Emitter.Recorded

/-! ## What jobs rely on

A `pop` may be taken back or turned into a return, so what stands in front of it must be no `pop` as well; and
the jumps of an `if` must still stand where they were recorded when they are filled in. `Rely` says for the
jobs that are left what they need of the records. -/

namespace Job

/-- What a job needs to know about the code it goes on with: whether a `pop` may be written behind it, and where the
jumps stand that are to be filled in. -/
def Relies (notPop : Prop) (ls : List Emitted) : Job → Prop
  | .emit i => i = .pop → notPop
  | .fill position jump => ⟨jump.opcode, position⟩ ∈ ls
  | .otherwise position _ => ⟨.jumpNotTruthy, position⟩ ∈ ls
  | _ => True

/-- What is known about a `pop` at the end of the code behind a job. -/
def notPopBehind (notPop : Prop) : Job → Prop
  | .emit i => i ≠ .pop
  | .expr _ | .unary _ | .binary _ | .optional _ | .branches .. | .otherwise .. | .endBranch | .leave _
  | .closure .. => True
  | .fill .. => notPop
  | _ => False

/-- The functions that are open behind a job. -/
def opened (around : List (List Emitted)) : Job → List (List Emitted)
  | .leave _ => around.tail
  | _ => around

end Job

/-- Some jobs can rely on the records of the functions that are open, the innermost first. -/
def Rely : Prop → List Job → List (List Emitted) → Prop
  | _, [], _ => True
  | notPop, job :: jobs, records =>
    job.Relies notPop (records.headD []) ∧ Rely (job.notPopBehind notPop) jobs (job.opened records)

namespace Rely

variable {notPop notPop' : Prop} {job : Job} {jobs : List Job} {ls ls' : List Emitted} {records : List (List Emitted)}

theorem mono (h : Rely notPop jobs records) (hmono : notPop → notPop') : Rely notPop' jobs records := by
  induction jobs generalizing notPop notPop' records with
  | nil => exact trivial
  | cons job jobs ih =>
      refine ⟨?_, ih h.2 ?_⟩
      · cases job with
        | emit i => exact fun hi => hmono (h.1 hi)
        | _ => exact h.1
      · cases job with
        | fill position jump => exact hmono
        | _ => exact id

/-- Behind an instruction other than `pop`, a `pop` may be written. -/
theorem emit {i : Instruction} (hi : i ≠ .pop) (h : Rely notPop' jobs records) :
    Rely notPop (.emit i :: jobs) records :=
  ⟨(absurd · hi), h.mono fun _ => hi⟩

/-- A jump stays where it is if only other instructions change. -/
theorem grow (h : Rely notPop jobs (ls :: records)) (hgrow : ∀ l ∈ ls, l.opcode ≠ .pop → l ∈ ls') :
    Rely notPop jobs (ls' :: records) := by
  induction jobs generalizing notPop with
  | nil => exact trivial
  | cons job jobs ih =>
      constructor
      · cases job with
        | fill position jump => exact hgrow _ h.1 (by cases jump <;> exact Opcode.noConfusion)
        | otherwise position alternative => exact hgrow _ h.1 Opcode.noConfusion
        | _ => exact h.1
      · cases job with
        | leave numParameters => exact h.2
        | _ => exact ih h.2

end Rely

/-! ## Steps of a compilation -/

/-- The functions that are open have written the instructions with certain records, the innermost first. -/
def Assembly.Recorded (a : Assembly) (records : List (List Emitted)) : Prop :=
  List.Forall₂ Emitter.Recorded (a.emitter :: a.around) records

/-- All records are right at a point, and the jobs that are left can rely on them. -/
def Point.Recorded : Point → Prop
  | .ongoing jobs a => ∃ ls records, a.Recorded (ls :: records) ∧ Rely (LastNotPop ls) jobs (ls :: records)
  | .failed _ a => ∃ records, a.Recorded records

namespace Point.Recorded

open CompileM

variable {a : Assembly} {i : Instruction} {left jobs : List Job} {ls : List Emitted} {records : List (List Emitted)}

/-- Nothing is written. -/
theorem pure (h : a.Recorded (ls :: records)) (hrely : Rely (LastNotPop ls) (left ++ jobs) (ls :: records)) :
    (advance jobs ((Pure.pure left : CompileM (List Job)) a)).Recorded := ⟨ls, records, h, hrely⟩

/-- One instruction is written. -/
theorem emit (h : a.Recorded (ls :: records)) (hpop : i = .pop → LastNotPop ls)
    (hrely : Rely (i ≠ .pop) (left ++ jobs) ((ls ++ [⟨i.opcode, a.emitter.position⟩]) :: records)) :
    (advance jobs ((do CompileM.emit i; return left) a)).Recorded := by
  obtain ⟨hemitter, haround⟩ := List.forall₂_cons.mp h
  rw [bind_apply, emit_apply]
  cases hfit : i.overflow? with
  | some overflow => exact ⟨_, h⟩
  | none =>
      refine ⟨_, records, List.forall₂_cons.mpr ⟨hemitter.append hfit hpop, haround⟩, hrely.mono ?_⟩
      exact fun hi => lastNotPop_concat.mpr (mt Instruction.opcode_eq_pop_iff.mp hi)

/-- One instruction is written that none of the jobs behind it is about. -/
theorem emit_done (h : a.Recorded (ls :: records)) (hi : i ≠ .pop) {notPop : Prop}
    (hrely : Rely notPop (left ++ jobs) (ls :: records)) :
    (advance jobs ((do CompileM.emit i; return left) a)).Recorded := by
  refine emit h (absurd · hi) ((hrely.mono fun _ => hi).grow fun l hl _ => ?_)
  exact List.mem_append_left _ hl

theorem loadName (h : a.Recorded (ls :: records)) (hrely : Rely True jobs (ls :: records)) (name : String) :
    (advance jobs ((do CompileM.loadName name; return []) a)).Recorded := by
  cases hresolve : a.symbols.resolve? name with
  | none =>
      rw [bind_apply, loadName_of_none hresolve]
      exact ⟨_, h⟩
  | some p =>
      rw [bind_apply, loadName_of_some hresolve, load_eq_emit, ← bind_apply]
      exact emit_done h p.1.loadInstruction_ne_pop hrely

/-- The first step of an expression. -/
theorem expr (h : a.Recorded (ls :: records)) (hrely : Rely True jobs (ls :: records)) (e : Expr) :
    (advance jobs (e.step a)).Recorded := by
  cases e with
  | identifier name => exact loadName h hrely name
  | integer | string => exact emit_done (a := { a with constants := _ }) h Instruction.noConfusion hrely
  | boolean value => cases value <;> exact pure h (hrely.emit Instruction.noConfusion)
  | array elements => exact pure h ⟨trivial, hrely.emit Instruction.noConfusion⟩
  | hash ps => exact pure h ⟨trivial, hrely.emit Instruction.noConfusion⟩
  | unary operator operand => exact pure h ⟨trivial, trivial, hrely⟩
  | binary left operator right =>
      rw [Expr.step, bind_apply]
      obtain hok | ⟨e, herror⟩ := checkLiteralOperands_apply left right operator a
      · rw [hok]
        by_cases hless : operator = .lessThan
        · rw [if_pos hless]
          exact pure h ⟨trivial, trivial, trivial, hrely⟩
        · rw [if_neg hless]
          exact pure h ⟨trivial, trivial, trivial, hrely⟩
      · rw [herror]
        exact ⟨_, h⟩
  | «if» condition consequence alternative => exact pure h ⟨trivial, trivial, hrely⟩
  | function name parameters body =>
      rw [Expr.step, bind_apply, beginFunction_apply]
      exact ⟨[], _, .cons .empty h, trivial, trivial, trivial, trivial, hrely⟩
  | call callee arguments => exact pure h ⟨trivial, trivial, hrely.emit Instruction.noConfusion⟩
  | index collection key => exact pure h ⟨trivial, trivial, hrely.emit Instruction.noConfusion⟩

/-- The instruction of an operator. -/
theorem operation (h : a.Recorded (ls :: records)) (hrely : Rely True jobs (ls :: records))
    (x : Except CompileError Instruction) (hx : ∀ i, x = .ok i → i ≠ .pop) :
    (advance jobs (((MonadExcept.ofExcept x >>= CompileM.emit) >>= fun _ => Pure.pure []) a)).Recorded := by
  cases x with
  | error e => exact ⟨_, h⟩
  | ok i => exact emit_done h (hx i rfl) hrely

theorem store {notPop : Prop} (h : a.Recorded (ls :: records)) (hrely : Rely notPop jobs (ls :: records))
    (name : String) : (advance jobs ((do CompileM.store name; return []) a)).Recorded := by
  rw [bind_apply, store_apply, ← bind_apply]
  exact emit_done h (Symbol.storeInstruction_ne_pop _) hrely

/-- Both jumps of an `if` are known from where they are written. -/
theorem branches (h : a.Recorded (ls :: records)) (hrely : Rely True jobs (ls :: records))
    (consequence : List Stmt) (alternative : Option (List Stmt)) :
    (advance jobs ((Job.branches consequence alternative).step a)).Recorded := by
  have hmem : (⟨.jumpNotTruthy, a.emitter.position⟩ : Emitted) ∈ ls ++ [⟨.jumpNotTruthy, a.emitter.position⟩] :=
    List.mem_append_right _ (List.mem_singleton_self _)
  have hgrow := hrely.grow fun l hl _ => List.mem_append_left [⟨.jumpNotTruthy, a.emitter.position⟩] hl
  exact emit (i := .jumpNotTruthy 9999) h (absurd · Instruction.noConfusion) ⟨trivial, trivial, hmem, hgrow⟩

/-- The first jump of an `if` is still where it was recorded. -/
theorem otherwise {position : Nat} (h : a.Recorded (ls :: records))
    (hmem : ⟨.jumpNotTruthy, position⟩ ∈ ls) (hrely : Rely True jobs (ls :: records))
    (alternative : Option (List Stmt)) :
    (advance jobs ((Job.otherwise position alternative).step a)).Recorded := by
  have hmem' : (⟨.jump, a.emitter.position⟩ : Emitted) ∈ ls ++ [⟨.jump, a.emitter.position⟩] :=
    List.mem_append_right _ (List.mem_singleton_self _)
  have hgrow := hrely.grow fun l hl _ => List.mem_append_left [⟨.jump, a.emitter.position⟩] hl
  exact emit (i := .jump 9999) h (absurd · Instruction.noConfusion) ⟨List.mem_append_left _ hmem, trivial, hmem', hgrow⟩

theorem fill {position : Nat} {jump : Jump} (h : a.Recorded (ls :: records))
    (hmem : ⟨jump.opcode, position⟩ ∈ ls) (hrely : Rely (LastNotPop ls) jobs (ls :: records)) :
    (advance jobs ((Job.fill position jump).step a)).Recorded := by
  obtain ⟨hemitter, haround⟩ := List.forall₂_cons.mp h
  rw [Job.step_fill]
  cases hfit : (jump.instruction a.emitter.position).overflow? with
  | some overflow => exact ⟨_, h⟩
  | none =>
      rw [← jump.opcode_instruction a.emitter.position] at hmem
      exact ⟨ls, records, .cons (hemitter.patch hmem hfit) haround, hrely⟩

/-- An instruction in front of a `pop` that is taken back or turned into another. -/
theorem mem_of_ne_pop {l last : Emitted} (hlast : last.opcode = .pop) (hl : l ∈ ls ++ [last]) (hpop : l.opcode ≠ .pop) :
    l ∈ ls := by
  rcases List.mem_append.mp hl with hl | hl
  · exact hl
  · exact absurd (List.mem_singleton.mp hl ▸ hlast) hpop

/-- Taking a `pop` back leaves what the jobs behind it rely on. -/
theorem endBranch (h : a.Recorded (ls :: records)) (hrely : Rely True jobs (ls :: records)) :
    (advance jobs (Job.endBranch.step a)).Recorded := by
  obtain ⟨hemitter, haround⟩ := List.forall₂_cons.mp h
  cases hends : a.emitter.endsWith .pop with
  | false =>
      rw [Job.step_endBranch_of_false hends]
      exact emit_done h Instruction.noConfusion hrely
  | true =>
      obtain ⟨before, last, rfl, hlast⟩ := hemitter.endsWith_eq_true hends
      rw [Job.step_endBranch_of_true hends]
      refine ⟨before, records, .cons (hemitter.removeLast hlast) haround, ?_⟩
      exact (hrely.mono fun _ => (hemitter.previous before last rfl hlast).2).grow fun _ => mem_of_ne_pop hlast

theorem returnLast (h : a.Recorded (ls :: records)) (hrely : Rely False jobs (ls :: records)) :
    (advance jobs (Job.returnLast.step a)).Recorded := by
  obtain ⟨hemitter, haround⟩ := List.forall₂_cons.mp h
  cases hends : a.emitter.endsWith .pop with
  | false =>
      rw [Job.step_returnLast_of_false hends]
      exact ⟨ls, records, h, hrely.mono False.elim⟩
  | true =>
      obtain ⟨before, last, rfl, hlast⟩ := hemitter.endsWith_eq_true hends
      rw [Job.step_returnLast_of_true hends]
      refine ⟨_, records, .cons (hemitter.returnLast hlast) haround, ?_⟩
      refine (hrely.mono False.elim).grow fun l hl hpop => ?_
      exact List.mem_append_left _ (mem_of_ne_pop hlast hl hpop)

theorem finish (h : a.Recorded (ls :: records)) (hrely : Rely False jobs (ls :: records)) :
    (advance jobs (Job.finish.step a)).Recorded := by
  cases hends : a.emitter.endsWith .returnValue with
  | false =>
      rw [Job.step_finish_of_false hends]
      exact emit_done h Instruction.noConfusion hrely
  | true =>
      rw [Job.step_finish_of_true hends]
      exact ⟨ls, records, h, hrely.mono False.elim⟩

/-- The function around goes on where it was left. -/
theorem leave (h : a.Recorded (ls :: records)) (hrely : Rely True jobs records) (numParameters : Nat) :
    (advance jobs ((Job.leave numParameters).step a)).Recorded := by
  obtain ⟨constants, symbols, emitter, around⟩ := a
  obtain ⟨-, haround⟩ := List.forall₂_cons.mp h
  cases haround with
  | nil => exact ⟨_, h⟩
  | @cons outer ls' around records houter haround =>
      have hafter : ∀ symbols, Assembly.Recorded ⟨constants, symbols, outer, around⟩ (ls' :: records) :=
        fun _ => .cons houter haround
      cases hleave : symbols.leave? with
      | none =>
          have hstep : (Job.leave numParameters).step ⟨constants, symbols, emitter, outer :: around⟩ =
              .error .outermostTable ⟨constants, symbols, outer, around⟩ := by
            simp only [Job.step, endFunction, bind_apply, get_apply, hleave]
            rfl
          rw [hstep]
          exact ⟨_, hafter symbols⟩
      | some symbols' =>
          have hstep : (Job.leave numParameters).step ⟨constants, symbols, emitter, outer :: around⟩ =
              .ok [.loads symbols.inner.captures, .closure emitter.code symbols.inner numParameters]
                ⟨constants, symbols', outer, around⟩ := by
            simp only [Job.step, endFunction, bind_apply, get_apply, hleave]
            rfl
          rw [hstep]
          exact ⟨ls', records, hafter symbols', trivial, trivial, hrely⟩

/-- **One step** keeps all records right. -/
theorem next : ∀ {p : Point}, p.Recorded → p.next.Recorded
  | .failed _ _, h | .ongoing [] _, h => h
  | .ongoing (job :: jobs) a, ⟨ls, records, h, hneeds, hrely⟩ => by
    show (advance jobs (job.step a)).Recorded
    cases job with
    | expr e => exact expr h hrely e
    | exprs es =>
        cases es with
        | nil => exact pure h (hrely.mono False.elim)
        | cons e es => exact pure h ⟨trivial, trivial, hrely⟩
    | pairs ps =>
        cases ps with
        | nil => exact pure h (hrely.mono False.elim)
        | cons pair ps => exact pure h ⟨trivial, trivial, trivial, hrely⟩
    | stmt s =>
        cases s with
        | «let» name value => exact pure h ⟨trivial, trivial, hrely⟩
        | «return» value? =>
            cases value? with
            | none => exact pure h (hrely.emit Instruction.noConfusion)
            | some value => exact pure h ⟨trivial, hrely.emit Instruction.noConfusion⟩
        | expr value => exact pure h ⟨trivial, fun _ => trivial, hrely.mono False.elim⟩
    | stmts ss =>
        cases ss with
        | nil => exact pure h (hrely.mono False.elim)
        | cons s ss => exact pure h ⟨trivial, trivial, hrely⟩
    | optional block =>
        cases block with
        | none => exact pure h (hrely.emit Instruction.noConfusion)
        | some block => exact pure h ⟨trivial, trivial, hrely⟩
    | emit i =>
        refine emit h hneeds (hrely.grow fun l hl _ => ?_)
        exact List.mem_append_left _ hl
    | unary operator => exact operation h hrely _ fun _ => Operator.unaryInstruction_ne_pop
    | binary operator => exact operation h hrely _ fun _ => Operator.binaryInstruction_ne_pop
    | store name => exact store h hrely name
    | branches consequence alternative => exact branches h hrely consequence alternative
    | otherwise position alternative => exact otherwise h hneeds hrely alternative
    | fill position jump => exact fill h hneeds hrely
    | endBranch => exact endBranch h hrely
    | returnLast => exact returnLast h hrely
    | finish => exact finish h hrely
    | leave numParameters => exact leave h hrely numParameters
    | loads symbols =>
        cases symbols with
        | nil => exact pure h (hrely.mono False.elim)
        | cons symbol symbols =>
            have hloads : Rely True ([.loads symbols] ++ jobs) (ls :: records) := ⟨trivial, hrely⟩
            rw [Job.step, load_eq_emit]
            exact emit_done h symbol.loadInstruction_ne_pop hloads
    | closure code table numParameters =>
        exact emit_done (a := { a with constants := _ }) h Instruction.noConfusion hrely

theorem lastRecorded {p : Point} (h : p.Recorded) : ∀ e ∈ p.emitters, e.LastRecorded := by
  have hall : ∀ {es : List Emitter} {records : List (List Emitted)}, List.Forall₂ Emitter.Recorded es records →
      ∀ e ∈ es, e.LastRecorded := by
    intro es records h
    induction h with
    | nil => exact List.forall_mem_nil _
    | cons hfirst _ ih => exact List.forall_mem_cons.mpr ⟨hfirst.lastRecorded, ih⟩
  cases p with
  | ongoing jobs a =>
      obtain ⟨ls, records, h, -⟩ := h
      exact hall h
  | failed e a =>
      obtain ⟨records, h⟩ := h
      exact hall h

/-- The code that is being written at a point where some job comes next. -/
theorem innermost {job : Job} (h : Point.Recorded (.ongoing (job :: jobs) a)) :
    ∃ ls, a.emitter.Recorded ls ∧ job.Relies (LastNotPop ls) ls := by
  obtain ⟨ls, records, h, hneeds, -⟩ := h
  exact ⟨ls, (List.forall₂_cons.mp h).1, hneeds⟩

end Point.Recorded

/-! ## Whole compilations -/

/-- What the record of the last instruction is good for at a point. -/
structure Point.LastInstructionRight (p : Point) : Prop where
  /-- In every function that is open, the last instruction is the recorded one. -/
  recorded : ∀ e ∈ p.emitters, e.LastRecorded
  /-- Where the end of a branch takes an instruction back, this is a `pop`, and no other instruction changes. -/
  removes : ∀ jobs a, p = .ongoing (.endBranch :: jobs) a → a.emitter.endsWith .pop = true →
    ∃ is, a.emitter.EndsInPop is ∧ p.next = .ongoing jobs { a with emitter := a.emitter.removeLast } ∧
      a.emitter.removeLast.code.Decodes is
  /-- Where the end of a body turns an instruction into `returnValue`, this is a `pop`, and no other one changes. -/
  returns : ∀ jobs a, p = .ongoing (.returnLast :: jobs) a → a.emitter.endsWith .pop = true →
    ∃ is, a.emitter.EndsInPop is ∧ p.next = .ongoing jobs { a with emitter := a.emitter.returnLast } ∧
      a.emitter.returnLast.code.Decodes (is ++ [.returnValue])
  /-- Where a target is filled in, a jump of this kind stands. If the target fits, no other instruction changes, and
  if not, none does. -/
  fills : ∀ position jump jobs a, p = .ongoing (.fill position jump :: jobs) a →
    ∃ is i js, a.emitter.code.Decodes (is ++ i :: js) ∧ Instructions.size is = position ∧ i.opcode = jump.opcode ∧
      ((jump.instruction a.emitter.position).Fits →
        p.next = .ongoing jobs
          { a with emitter := a.emitter.patch position (jump.instruction a.emitter.position) } ∧
        (a.emitter.patch position (jump.instruction a.emitter.position)).code.Decodes
          (is ++ jump.instruction a.emitter.position :: js)) ∧
      (¬ (jump.instruction a.emitter.position).Fits → ∃ e, p.next = .failed e a)

/-- Records give what is claimed of the last instructions. -/
theorem Point.Recorded.lastInstructionRight {p : Point} (h : p.Recorded) : p.LastInstructionRight where
  recorded := h.lastRecorded
  removes := by
    rintro jobs a rfl hends
    obtain ⟨ls, hls, -⟩ := h.innermost
    obtain ⟨is, hpop, hdecodes, -⟩ := hls.endsInPop hends
    refine ⟨is, hpop, ?_, hdecodes⟩
    rw [Point.next, Job.step_endBranch_of_true hends]
    rfl
  returns := by
    rintro jobs a rfl hends
    obtain ⟨ls, hls, -⟩ := h.innermost
    obtain ⟨is, hpop, -, hdecodes⟩ := hls.endsInPop hends
    refine ⟨is, hpop, ?_, hdecodes⟩
    rw [Point.next, Job.step_returnLast_of_true hends]
    rfl
  fills := by
    rintro position jump jobs a rfl
    obtain ⟨ls, hls, hmem⟩ := h.innermost
    obtain ⟨is, i, js, hdecodes, hsize, hop, hpatch⟩ := hls.decodes_patch hmem
    refine ⟨is, i, js, hdecodes, hsize, hop, fun hfit => ⟨?_, ?_⟩, fun hfit => ?_⟩
    · rw [Point.next, Job.step_fill, hfit]
      rfl
    · exact hpatch _ (jump.opcode_instruction _) hfit
    · obtain ⟨overflow, hoverflow⟩ := Option.ne_none_iff_exists'.mp hfit
      rw [Point.next, Job.step_fill, hoverflow]
      exact ⟨_, rfl⟩

namespace Compiler

variable (c : Compiler) (program : Program)

/-- Every point of a compilation is reached with all records right. -/
theorem point_recorded (n : Nat) : (c.point program n).Recorded := by
  induction n with
  | zero => exact ⟨[], [], .cons .empty .nil, trivial, trivial⟩
  | succ n ih =>
      rw [point, Function.iterate_succ_apply']
      exact ih.next

/-- **The record of the last instruction** is right whenever it is used, at every point from the start of a
compilation to its end. -/
theorem last_instruction_right :
    (∃ n, c.point program n = .behind [] (Stmt.compileAll program (Assembly.resume c))) ∧
      ∀ n, (c.point program n).LastInstructionRight :=
  ⟨c.exists_point_eq program, fun n => (c.point_recorded program n).lastInstructionRight⟩

/-- In `if (true) { 1 }` the `pop` behind `1` is taken back, and then the first jump is filled in. -/
example :
    let program : Program := [.expr (.if (.boolean true) [.expr (.integer 1)] none)]
    (∃ jobs a, initial.point program 11 = .ongoing (.endBranch :: jobs) a ∧ a.emitter.endsWith .pop = true) ∧
      ∃ jobs a, initial.point program 13 = .ongoing (.fill 1 .notTruthy :: jobs) a :=
  ⟨⟨_, _, rfl, rfl⟩, _, _, rfl⟩

end Compiler

end ScriptLang
