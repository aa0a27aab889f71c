import Mathlib.Algebra.Group.Nat.Defs
import ScriptLang.Proofs.Bytecode.Decoding
import ScriptLang.Proofs.Compiler.Emission

/-!
# Streams of instructions and back

An instruction may have operands that are too large for their widths. Its encoding is that of an instruction
whose operands fit, `Instruction.cut`, and nothing else can be read back from a stream. The listing of a stream
has one line for each instruction, and the compiler encodes an instruction only if nothing is cut off from it.

Main statement: `Instructions.round_trip`.
-/

namespace ScriptLang

/-! ## Operands cut to their widths -/

theorem Width.bound_eq (width : Width) : width.bound = 256 ^ width.size := by cases width <;> rfl

/-- What is left of an operand in its encoding. -/
theorem Width.encode_mod (width : Width) (operand : Nat) :
    width.encode (operand % width.bound) = width.encode operand := by
  have hbyte : UInt8.ofNat (operand % 256) = UInt8.ofNat operand := by
    apply UInt8.toNat.inj
    rw [UInt8.toNat_ofNat', UInt8.toNat_ofNat', Nat.mod_mod]
  have hhigh : UInt8.ofNat (operand % 65536 / 256) = UInt8.ofNat (operand / 256) := by
    apply UInt8.toNat.inj
    rw [UInt8.toNat_ofNat', UInt8.toNat_ofNat']
    omega
  have hlow : UInt8.ofNat (operand % 65536) = UInt8.ofNat operand := by
    apply UInt8.toNat.inj
    rw [UInt8.toNat_ofNat', UInt8.toNat_ofNat']
    omega
  cases width with
  | byte => exact congrArg (fun byte => [byte]) hbyte
  | word =>
      show [UInt8.ofNat (operand % 65536 / 256), UInt8.ofNat (operand % 65536)] = _
      rw [hhigh, hlow]
      rfl

/-- Operands of given widths, of each the lowest bytes. -/
def cutOperands (widths : List Width) (operands : List Nat) : List Nat :=
  List.zipWith (fun width operand => operand % 256 ^ width.size) widths operands

theorem length_cutOperands {widths : List Width} {operands : List Nat}
    (h : operands.length = widths.length) : (cutOperands widths operands).length = widths.length := by
  rw [cutOperands, List.length_zipWith, h, Nat.min_self]

/-- What is cut off is not encoded anyway. -/
theorem encodeOperands_cut : ∀ (widths : List Width) (operands : List Nat),
    encodeOperands widths (cutOperands widths operands) = encodeOperands widths operands
  | [], _ => rfl
  | _ :: _, [] => rfl
  | width :: widths, operand :: operands => by
      have hfirst := width.encode_mod operand
      rw [Width.bound_eq] at hfirst
      rw [cutOperands, List.zipWith_cons_cons, encodeOperands, encodeOperands, hfirst, ← cutOperands,
        encodeOperands_cut widths operands]

theorem cutOperands_lt : ∀ (widths : List Width) (operands : List Nat),
    ∀ p ∈ (cutOperands widths operands).zip widths, p.1 < p.2.bound
  | [], _ => by simp [cutOperands]
  | _ :: _, [] => by simp [cutOperands]
  | width :: widths, operand :: operands => by
      intro p hp
      rcases List.mem_cons.mp hp with rfl | hp
      · rw [Width.bound_eq]
        exact Nat.mod_lt _ (Nat.pow_pos (by decide))
      · exact cutOperands_lt widths operands p hp

/-- Operands that fit are not cut. -/
theorem cutOperands_of_lt : ∀ {widths : List Width} {operands : List Nat},
    operands.length = widths.length → (∀ p ∈ operands.zip widths, p.1 < p.2.bound) →
    cutOperands widths operands = operands
  | [], [], _, _ => rfl
  | width :: widths, operand :: operands, hlength, hfit => by
      rw [List.zip_cons_cons, List.forall_mem_cons, Width.bound_eq] at hfit
      rw [cutOperands, List.zipWith_cons_cons, Nat.mod_eq_of_lt hfit.1, ← cutOperands,
        cutOperands_of_lt (Nat.succ.inj hlength) hfit.2]

/-! ## Instructions cut to their widths -/

namespace Instruction

/-- An operation and operands make an instruction if the number of the operands is right. -/
theorem exists_of_length {op : Opcode} {operands : List Nat} :
    (∃ i : Instruction, i.opcode = op ∧ i.operands = operands) ↔ operands.length = op.widths.length := by
  constructor
  · rintro ⟨i, rfl, rfl⟩
    exact i.length_operands
  · intro h
    obtain ⟨i, hi⟩ := Option.ne_none_iff_exists'.mp (of?_ne_none h)
    exact ⟨i, of?_eq_some hi⟩

/-- An instruction is its operation with its operands. -/
theorem ext_operands {i j : Instruction} (hopcode : i.opcode = j.opcode)
    (hoperands : i.operands = j.operands) : i = j := by
  have hof := i.of?_opcode_operands
  rw [hopcode, hoperands, of?_opcode_operands] at hof
  exact (Option.some.inj hof).symm

/-- What is left of an instruction in its encoding: of each operand the lowest bytes. -/
def cut (i : Instruction) : Instruction := (of? i.opcode (cutOperands i.opcode.widths i.operands)).getD i

variable (i : Instruction)

theorem of?_cut : of? i.opcode (cutOperands i.opcode.widths i.operands) = some i.cut := by
  obtain ⟨j, hj⟩ := Option.ne_none_iff_exists'.mp (of?_ne_none (length_cutOperands i.length_operands))
  rw [cut, hj, Option.getD_some]

@[simp] theorem opcode_cut : i.cut.opcode = i.opcode := (of?_eq_some i.of?_cut).1

@[simp] theorem operands_cut : i.cut.operands = cutOperands i.opcode.widths i.operands :=
  (of?_eq_some i.of?_cut).2

@[simp] theorem encode_cut : i.cut.encode = i.encode := by
  rw [encode, encode, opcode_cut, operands_cut, encodeOperands_cut]

theorem fits_cut : i.cut.Fits := by
  apply Fits.of_operand_lt
  rw [opcode_cut, operands_cut]
  exact cutOperands_lt _ _

variable {i}

/-- Nothing is cut off from an instruction that fits. -/
theorem Fits.cut_eq (h : i.Fits) : i.cut = i :=
  ext_operands i.opcode_cut (i.operands_cut.trans (cutOperands_of_lt i.length_operands h.operand_lt))

/-- The first operand that does not fit. -/
theorem overflow?_eq_some {operand : Nat} {width : Width} (h : i.overflow? = some (operand, width)) :
    256 ^ width.size ≤ operand ∧ ∃ before after,
      i.operands.zip i.opcode.widths = before ++ (operand, width) :: after ∧
        ∀ p ∈ before, p.1 < 256 ^ p.2.size := by
  obtain ⟨hlarge, before, after, heq, hbefore⟩ := List.find?_eq_some_iff_append.mp h
  rw [← Width.bound_eq]
  refine ⟨of_decide_eq_true hlarge, before, after, heq, fun p hp => ?_⟩
  have hsmall := hbefore p hp
  rw [← Width.bound_eq]
  simpa using hsmall

end Instruction

/-! ## Streams -/

namespace Instructions

theorem length_le_size (is : Instructions) : is.length ≤ size is := by
  induction is with
  | nil => exact Nat.le_refl 0
  | cons i is ih =>
      have hpos := i.size_pos
      rw [List.length_cons, size_cons]
      omega

theorem encode_map_cut (is : Instructions) : encode (is.map Instruction.cut) = encode is := by
  induction is with
  | nil => rfl
  | cons i is ih => rw [List.map_cons, encode_cons, encode_cons, Instruction.encode_cut, ih]

/-- Encoded instructions, put together one behind the other. -/
theorem ofParts_encode (is : Instructions) : Code.ofParts (is.map Instruction.encode) = toCode is := by
  have hfold : ∀ (parts : List (List UInt8)) (code : Code),
      (parts.foldl Array.appendList code).toList = code.toList ++ parts.flatten := by
    intro parts
    induction parts with
    | nil => simp
    | cons part parts ih =>
        intro code
        rw [List.foldl_cons, ih, List.flatten_cons, ← List.append_assoc]
        congr 1
        exact Array.toList_appendList
  apply Array.toList_inj.mp
  rw [Code.ofParts, hfold, toCode, encode, List.flatMap_def]
  rfl

/-- **Decoding** what was encoded gives the instructions as far as they are not cut, and nothing else. -/
theorem decodes_toCode_iff (is js : Instructions) :
    (toCode is).Decodes js ↔ js = is.map Instruction.cut := by
  have hdecodes : (toCode is).Decodes (is.map Instruction.cut) := by
    rw [toCode, ← encode_map_cut]
    apply Code.decodes_toCode
    intro i hi
    obtain ⟨j, -, rfl⟩ := List.mem_map.mp hi
    exact j.fits_cut
  constructor
  · exact fun h => Code.DecodesFrom.unique h hdecodes
  · rintro rfl
    exact hdecodes

end Instructions

/-! ## Listings -/

namespace Code

/-- An offset is written in decimal digits, at least four of them. -/
theorem offsetText_spec (offset : Nat) :
    4 ≤ (offsetText offset).length ∧ (∀ c ∈ (offsetText offset).toList, c.isDigit = true) ∧
      Nat.ofDigitChars 10 (offsetText offset).toList 0 = offset := by
  have hdigits : (toString offset).toList = Nat.toDigits 10 offset := Nat.toList_repr
  have htext : (offsetText offset).toList =
      List.replicate (4 - (toString offset).length) '0' ++ Nat.toDigits 10 offset := by
    rw [offsetText, String.toList_append, String.toList_ofList, hdigits]
  refine ⟨?_, ?_, ?_⟩
  · rw [← String.length_toList, htext, ← String.length_toList, hdigits, List.length_append,
      List.length_replicate]
    omega
  · intro c hc
    rw [htext, List.mem_append] at hc
    rcases hc with hzero | hdigit
    · rw [List.eq_of_mem_replicate hzero]
      rfl
    · exact Nat.isDigit_of_mem_toDigits (by decide) (by decide) hdigit
  · rw [htext, Nat.ofDigitChars_append, Nat.ofDigitChars_replicate_zero, Nat.mul_zero,
      Nat.ofDigitChars_ten_toDigits]

/-- What is in neither of the texts nor in what separates them is not in the whole. -/
theorem not_mem_intercalate {c : Char} {separator : String} (hseparator : c ∉ separator.toList) :
    ∀ {texts : List String}, (∀ text ∈ texts, c ∉ text.toList) → c ∉ (separator.intercalate texts).toList
  | [], _ => by simp
  | [text], h => by simpa using h
  | text :: next :: texts, h => by
      obtain ⟨hfirst, hrest⟩ := List.forall_mem_cons.mp h
      have ih := not_mem_intercalate hseparator hrest
      rw [String.toList_intercalate] at ih ⊢
      simp only [List.map_cons, List.intercalate, List.intersperse_cons_cons, List.flatten_cons,
        List.mem_append, not_or] at ih ⊢
      exact ⟨hfirst, hseparator, ih⟩

/-- The line of an instruction is one line. -/
theorem newline_not_mem_lineText (offset : Nat) (i : Instruction) :
    '\n' ∉ (lineText offset i).toList := by
  have hdigit : ∀ {text : String}, (∀ c ∈ text.toList, c.isDigit = true) → '\n' ∉ text.toList :=
    fun h hmem => Bool.noConfusion (h _ hmem)
  rw [lineText]
  refine not_mem_intercalate (by decide) fun text htext => ?_
  rcases List.mem_cons.mp htext with rfl | htext
  · exact hdigit (offsetText_spec offset).2.1
  rcases List.mem_cons.mp htext with rfl | htext
  · cases i.opcode <;> decide
  · obtain ⟨operand, -, rfl⟩ := List.mem_map.mp htext
    refine hdigit fun c hc => ?_
    rw [Nat.toString_eq_repr, Nat.toList_repr] at hc
    exact Nat.isDigit_of_mem_toDigits (by decide) (by decide) hc

/-- Code that decodes into some instructions from an offset on has a line for each of them. -/
theorem lines?_of_decodesFrom {code : Code} : ∀ {is : Instructions} {n offset : Nat} (acc : List String),
    code.DecodesFrom offset is → is.length ≤ n →
    lines? n code offset acc = some (acc.reverse ++
      is.mapIdx fun k i => lineText (offset + Instructions.size (is.take k)) i)
  | [], 0, _, acc, _, _ => by simp [lines?]
  | [], n + 1, offset, acc, h, _ => by
      simp [lines?, decode_of_size_le (Nat.le_of_eq h.symm)]
  | i :: is, n + 1, offset, acc, h, hn => by
      have ih := lines?_of_decodesFrom (lineText offset i :: acc) h.2 (Nat.le_of_succ_le_succ hn)
      rw [lines?, h.1]
      simp only
      rw [ih]
      simp [List.mapIdx_cons, Nat.add_assoc]

/-- **The listing** of encoded instructions. -/
theorem listing?_toCode (is : Instructions) :
    (Instructions.toCode is).listing? =
      some (is.mapIdx fun k i => lineText (Instructions.size (is.take k)) i.cut) := by
  have hdecodes := (Instructions.decodes_toCode_iff is _).mpr rfl
  have hlength : (is.map Instruction.cut).length ≤ (Instructions.toCode is).size := by
    rw [List.length_map, Instructions.size_toCode]
    exact Instructions.length_le_size is
  have hsize : ∀ js : Instructions,
      Instructions.size (js.map Instruction.cut) = Instructions.size js :=
    fun js => congrArg List.length (Instructions.encode_map_cut js)
  rw [listing?, lines?_of_decodesFrom [] hdecodes hlength, List.reverse_nil, List.nil_append]
  apply congrArg some
  apply List.ext_getElem?
  intro k
  rw [List.getElem?_mapIdx, List.getElem?_mapIdx, List.getElem?_map, Option.map_map]
  refine Option.map_congr fun i _ => ?_
  rw [Function.comp_apply, ← List.map_take, hsize, Nat.zero_add]

end Code

/-! ## The check of the compiler -/

namespace CompileM

/-- What the compiler does with an instruction, be it new or put in the place of another one: if all operands
fit, nothing is cut off and its bytes are written; otherwise the first operand that does not fit is named, and
nothing is written. -/
inductive Checked (i : Instruction) (position : Nat) (a : Assembly) : Prop where
  | fits : (∀ p ∈ i.operands.zip i.opcode.widths, p.1 < 256 ^ p.2.size) → i.cut = i →
      emit i a = .ok () { a with emitter := a.emitter.append i } →
      (a.emitter.append i).code.toList = a.emitter.code.toList ++ i.encode →
      patch position i a = .ok () { a with emitter := a.emitter.patch position i } →
      (a.emitter.patch position i).code = a.emitter.code.write position i.encode → Checked i position a
  | overflow {before after : List (Nat × Width)} {operand : Nat} {width : Width} :
      i.operands.zip i.opcode.widths = before ++ (operand, width) :: after →
      (∀ p ∈ before, p.1 < 256 ^ p.2.size) → 256 ^ width.size ≤ operand →
      emit i a = .error (.operandOverflow i.opcode operand width) a →
      patch position i a = .error (.operandOverflow i.opcode operand width) a → Checked i position a

/-- The check of the compiler passes operands that fit, and names the first one that does not. -/
theorem checked (i : Instruction) (position : Nat) (a : Assembly) : Checked i position a := by
  have hemit := emit_apply i a
  have hpatch := patch_apply position i a
  cases h : i.overflow? with
  | none =>
      rw [h] at hemit hpatch
      have hfits : i.Fits := h
      refine .fits (fun p hp => ?_) hfits.cut_eq hemit (a.emitter.toList_append i) hpatch rfl
      rw [← Width.bound_eq]
      exact hfits.operand_lt p hp
  | some p =>
      obtain ⟨operand, width⟩ := p
      rw [h] at hemit hpatch
      obtain ⟨hlarge, before, after, heq, hbefore⟩ := Instruction.overflow?_eq_some h
      exact .overflow heq hbefore hlarge hemit hpatch

end CompileM

/-! ## Main statement -/

/-- **Streams of instructions**: an operation with the right number of operands is an instruction, whatever the
operands are. Decoding the encodings of some instructions, one behind the other, gives these instructions and
nothing else, with each operand reduced to the width that it is encoded with; and the listing has one line for
each of them, with its offset in at least four digits, its name and its reduced operands. The compiler writes the
same bytes if no operand has to be reduced, and otherwise names the first one that does. -/
theorem Instructions.round_trip :
    (∀ op operands, (∃ i : Instruction, i.opcode = op ∧ i.operands = operands) ↔
      operands.length = op.widths.length) ∧
    (∀ is : Instructions,
      (∀ js, (Code.ofParts (is.map Instruction.encode)).Decodes js ↔ js = is.map Instruction.cut) ∧
        (Code.ofParts (is.map Instruction.encode)).listing? =
          some (is.mapIdx fun k i => Code.lineText (size (is.take k)) i.cut)) ∧
    (∀ i : Instruction, i.size = i.opcode.length ∧ i.cut.opcode = i.opcode ∧
      i.cut.operands = List.zipWith (fun width operand => operand % 256 ^ width.size) i.opcode.widths i.operands) ∧
    (∀ offset i, 4 ≤ (Code.offsetText offset).length ∧
      (∀ c ∈ (Code.offsetText offset).toList, c.isDigit = true) ∧
        Nat.ofDigitChars 10 (Code.offsetText offset).toList 0 = offset ∧
          '\n' ∉ (Code.lineText offset i).toList) ∧
    ∀ i position a, CompileM.Checked i position a := by
  refine ⟨fun op operands => Instruction.exists_of_length, fun is => ?_, fun i => ?_, fun offset i => ?_,
    CompileM.checked⟩
  · rw [ofParts_encode]
    exact ⟨decodes_toCode_iff is, Code.listing?_toCode is⟩
  · exact ⟨i.size_eq, i.opcode_cut, i.operands_cut⟩
  · obtain ⟨hlength, hdigits, hvalue⟩ := Code.offsetText_spec offset
    exact ⟨hlength, hdigits, hvalue, Code.newline_not_mem_lineText offset i⟩

/-- A stream whose second instruction is cut, with its listing. -/
example :
    let is : Instructions := [.add, .constant 65538, .closure 1 2]
    (Instructions.toCode is).listing? = some ["0000 OpAdd", "0001 OpConstant 2", "0004 OpClosure 1 2"] := by
  decide +kernel

end ScriptLang
