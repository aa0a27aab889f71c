import ScriptLang.Bytecode.Emitter

/-!
# Streams of instructions

Code is a list of instructions, encoded one behind the other. `Code.Holds code offset is` says that the
instructions `is` stand in `code` from `offset` on, and that their operands fit. Main statements:

* `Code.Holds.decode` — where instructions stand, the machine decodes the first one and finds the offset
  of the second one;
* `Code.decodes_toCode` — encoded instructions decode completely;
* `Code.toList_write_instruction` — overwriting an instruction by one of the same size changes nothing
  else.
-/

namespace ScriptLang

/-! ## Sizes and bytes

An instruction takes one byte for its operation and one or two for each operand, whatever the operand is.
Sizes therefore add up, and offsets can be computed without looking at the bytes. -/

namespace Instruction

/-- The number of bytes of an instruction. -/
def size (i : Instruction) : Nat := i.encode.length

/-- Every operand of an instruction fits its width. -/
def Fits (i : Instruction) : Prop := i.overflow? = none

theorem size_pos (i : Instruction) : 0 < i.size := by simp [size, encode]

end Instruction

/-- An operand takes as many bytes as its width says. -/
theorem Width.length_encode (width : Width) (operand : Nat) :
    (width.encode operand).length = width.size := by
  cases width <;> rfl

/-- Operands take as many bytes as their widths say, all together. -/
theorem length_encodeOperands : ∀ (widths : List Width) (operands : List Nat) (length : Nat),
    operands.length = widths.length →
    length + (encodeOperands widths operands).length =
      widths.foldl (fun length width => length + width.size) length
  | [], [], _, _ => rfl
  | width :: widths, operand :: operands, length, h => by
      have ih := length_encodeOperands widths operands (length + width.size) (by simpa using h)
      rw [encodeOperands, List.length_append, Width.length_encode, ← Nat.add_assoc, ih, List.foldl_cons]

/-- The number of bytes of an instruction depends on its operation alone. -/
theorem Instruction.size_eq (i : Instruction) : i.size = i.opcode.length := by
  rw [size, encode, List.length_cons, Nat.add_comm, length_encodeOperands _ _ 1 i.length_operands,
    Opcode.length]

/-- Instructions, one behind the other. -/
abbrev Instructions := List Instruction

namespace Instructions

/-- The bytes of some instructions. -/
def encode (is : Instructions) : List UInt8 := is.flatMap Instruction.encode

/-- The number of bytes of some instructions. -/
def size (is : Instructions) : Nat := (encode is).length

/-- The code that consists of some instructions. -/
def toCode (is : Instructions) : Code := (encode is).toArray

@[simp] theorem encode_nil : encode [] = [] := rfl

@[simp] theorem encode_cons (i : Instruction) (is : Instructions) :
    encode (i :: is) = i.encode ++ encode is := by simp [encode]

/-- The code of two lists of instructions is the code of the first and that of the second. -/
@[simp] theorem encode_append (is js : Instructions) : encode (is ++ js) = encode is ++ encode js := by
  simp [encode]

@[simp] theorem size_nil : size [] = 0 := rfl

@[simp] theorem size_cons (i : Instruction) (is : Instructions) :
    size (i :: is) = i.size + size is := by simp [size, Instruction.size]

@[simp] theorem size_append (is js : Instructions) : size (is ++ js) = size is + size js := by
  simp [size]

@[simp] theorem size_toCode (is : Instructions) : (toCode is).size = size is := by
  simp [toCode, size]

end Instructions

/-! ## Decoding what was encoded

An operand that fits its width is read back as it was written. Larger ones are cut off, which is why the
compiler checks them. -/

/-- An operand that fits is read back from anywhere in the code. -/
theorem Width.decode?_encode {code : Array UInt8} {width : Width} {operand : Nat}
    (pre post : List UInt8) (h : code.toList = pre ++ width.encode operand ++ post)
    (hfit : operand < width.bound) : width.decode? code pre.length = some operand := by
  have hget : ∀ n : Nat, code[n]? = (pre ++ width.encode operand ++ post)[n]? := by
    intro n
    rw [← h, Array.getElem?_toList]
  cases width with
  | byte =>
      have hlt : operand < 256 := hfit
      have hb : code[pre.length]? = some (UInt8.ofNat operand) := by
        rw [hget]; simp [Width.encode]
      simp only [Width.decode?, hb]
      show some (UInt8.ofNat operand).toNat = _
      rw [UInt8.toNat_ofNat', Nat.mod_eq_of_lt hlt]
  | word =>
      have hlt : operand < 65536 := hfit
      have hhigh : code[pre.length]? = some (UInt8.ofNat (operand / 256)) := by
        rw [hget]; simp [Width.encode]
      have hlow : code[pre.length + 1]? = some (UInt8.ofNat operand) := by
        rw [hget]; simp [Width.encode]
      simp only [Width.decode?, hhigh, hlow]
      show some (256 * (UInt8.ofNat (operand / 256)).toNat + (UInt8.ofNat operand).toNat) = _
      rw [UInt8.toNat_ofNat', UInt8.toNat_ofNat']
      congr 1
      omega

/-- Operands that fit are read back from their bytes. -/
theorem decodeOperands?_encode {code : Array UInt8} (post : List UInt8) :
    ∀ (widths : List Width) (operands : List Nat) (pre : List UInt8),
      operands.length = widths.length →
      (∀ p ∈ operands.zip widths, p.1 < p.2.bound) →
      code.toList = pre ++ encodeOperands widths operands ++ post →
      decodeOperands? code pre.length widths =
        some (operands, pre.length + (encodeOperands widths operands).length)
  | [], [], pre, _, _, _ => by simp [decodeOperands?, encodeOperands]
  | width :: widths, operand :: operands, pre, hlen, hfit, h => by
      have hfirst : operand < width.bound := hfit (operand, width) (by simp)
      have hrest : ∀ p ∈ operands.zip widths, p.1 < p.2.bound := fun p hp =>
        hfit p (by simp [hp])
      have hdec : width.decode? code pre.length = some operand :=
        Width.decode?_encode pre (encodeOperands widths operands ++ post)
          (by rw [h]; simp [encodeOperands]) hfirst
      have ih := decodeOperands?_encode post widths operands (pre ++ width.encode operand)
        (by simpa using hlen) hrest (by rw [h]; simp [encodeOperands])
      simp only [List.length_append, Width.length_encode] at ih
      simp [decodeOperands?, hdec, ih, encodeOperands, Width.length_encode, Nat.add_assoc]

/-- Operands that fit are below the bounds of their widths. -/
theorem Instruction.Fits.operand_lt {i : Instruction} (h : i.Fits) :
    ∀ p ∈ i.operands.zip i.opcode.widths, p.1 < p.2.bound := by
  intro p hp
  have hnone := List.find?_eq_none.mp h p hp
  simpa using hnone

/-- Operands below the bounds fit. -/
theorem Instruction.Fits.of_operand_lt {i : Instruction}
    (h : ∀ p ∈ i.operands.zip i.opcode.widths, p.1 < p.2.bound) : i.Fits := by
  apply List.find?_eq_none.mpr
  intro p hp
  simpa using h p hp

/-! ## Instructions at an offset -/

namespace Code

/-- Some instructions stand in the code from an offset on, and their operands fit. -/
def Holds (code : Code) (offset : Nat) (is : Instructions) : Prop :=
  (∃ pre post, code.toList = pre ++ Instructions.encode is ++ post ∧ pre.length = offset) ∧
    ∀ i ∈ is, i.Fits

namespace Holds

variable {code : Code} {offset : Nat} {i : Instruction} {is js : Instructions}

/-- The first of two lists of instructions stands at the offset. -/
theorem left (h : code.Holds offset (is ++ js)) : code.Holds offset is := by
  obtain ⟨⟨pre, post, hcode, hlen⟩, hfits⟩ := h
  refine ⟨⟨pre, Instructions.encode js ++ post, ?_, hlen⟩, fun i hi => hfits i (by simp [hi])⟩
  simpa using hcode

theorem right (h : code.Holds offset (is ++ js)) :
    code.Holds (offset + Instructions.size is) js := by
  obtain ⟨⟨pre, post, hcode, hlen⟩, hfits⟩ := h
  refine ⟨⟨pre ++ Instructions.encode is, post, ?_, ?_⟩, fun i hi => hfits i (by simp [hi])⟩
  · simpa using hcode
  · simp [hlen, Instructions.size]

theorem head (h : code.Holds offset (i :: is)) : code.Holds offset [i] := by
  rw [← List.singleton_append] at h
  exact h.left

theorem tail (h : code.Holds offset (i :: is)) : code.Holds (offset + i.size) is := by
  rw [← List.singleton_append] at h
  simpa using h.right

/-- Where instructions stand, the first one is decoded. -/
theorem decode (h : code.Holds offset (i :: is)) :
    decode code offset = .instruction i (offset + i.size) := by
  obtain ⟨⟨pre, post, hcode, rfl⟩, hfits⟩ := h
  have hfit : i.Fits := hfits i (by simp)
  have hbyte : code[pre.length]? = some i.opcode.toByte := by
    rw [← Array.getElem?_toList, hcode]
    simp [Instruction.encode]
  have hbytes : code.toList = pre ++ [i.opcode.toByte] ++
      encodeOperands i.opcode.widths i.operands ++ (Instructions.encode is ++ post) := by
    rw [hcode]
    simp [Instruction.encode]
  have hoperands := decodeOperands?_encode _ _ _ _ i.length_operands hfit.operand_lt hbytes
  simp only [List.length_append, List.length_singleton] at hoperands
  simp only [ScriptLang.decode, hbyte, Opcode.ofByte?_toByte, hoperands,
    Instruction.of?_opcode_operands]
  simp [Instruction.size, Instruction.encode, Nat.add_assoc, Nat.add_comm 1]

/-- Instructions that stand in the code do not reach beyond its end. -/
theorem size_le (h : code.Holds offset is) : offset + Instructions.size is ≤ code.size := by
  obtain ⟨⟨pre, post, hcode, rfl⟩, -⟩ := h
  have hlen := congrArg List.length hcode
  simp only [Array.length_toList, List.length_append] at hlen
  simp only [Instructions.size]
  omega

end Holds

/-- Nothing is decoded at the end of the code. -/
theorem decode_of_size_le {code : Code} {offset : Nat} (h : code.size ≤ offset) :
    decode code offset = .finished := by
  simp [ScriptLang.decode, Array.getElem?_eq_none h]

/-- Only the end of the code is decoded as the end. -/
theorem size_le_of_decode {code : Code} {offset : Nat} (h : decode code offset = .finished) :
    code.size ≤ offset := by
  unfold ScriptLang.decode at h
  split at h
  · next hnone => exact Array.getElem?_eq_none_iff.mp hnone
  · split at h
    · cases h
    · split at h
      · cases h
      · split at h <;> cases h

theorem holds_toCode {is : Instructions} (h : ∀ i ∈ is, i.Fits) :
    (Instructions.toCode is).Holds 0 is :=
  ⟨⟨[], [], by simp [Instructions.toCode], rfl⟩, h⟩

/-! ## Whole instructions -/

/-- The code from an offset on decodes into some instructions, and ends with the last one. -/
def DecodesFrom (code : Code) : Nat → Instructions → Prop
  | offset, [] => offset = code.size
  | offset, i :: is =>
    decode code offset = .instruction i (offset + i.size) ∧ DecodesFrom code (offset + i.size) is

/-- Code decodes completely into some instructions. -/
def Decodes (code : Code) (is : Instructions) : Prop := code.DecodesFrom 0 is

/-- Instructions that reach the end of the code are all that it decodes to. -/
theorem Holds.decodesFrom {code : Code} {offset : Nat} {is : Instructions}
    (h : code.Holds offset is) (hsize : offset + Instructions.size is = code.size) :
    code.DecodesFrom offset is := by
  induction is generalizing offset with
  | nil => exact hsize
  | cons i is ih =>
      refine ⟨h.decode, ih h.tail ?_⟩
      rw [← hsize, Instructions.size_cons, Nat.add_assoc]

/-- Code decodes into one list of instructions only. -/
theorem DecodesFrom.unique {code : Code} {offset : Nat} {is js : Instructions}
    (h₁ : code.DecodesFrom offset is) (h₂ : code.DecodesFrom offset js) : is = js := by
  induction is generalizing offset js with
  | nil =>
      cases js with
      | nil => rfl
      | cons j js =>
          have hend := decode_of_size_le (Nat.le_of_eq (Eq.symm h₁))
          rw [h₂.1] at hend
          cases hend
  | cons i is ih =>
      cases js with
      | nil =>
          have hend := decode_of_size_le (Nat.le_of_eq (Eq.symm h₂))
          rw [h₁.1] at hend
          cases hend
      | cons j js =>
          have hfirst := h₁.1.symm.trans h₂.1
          simp only [Decoded.instruction.injEq] at hfirst
          obtain ⟨rfl, -⟩ := hfirst
          rw [ih h₁.2 h₂.2]

/-- Instructions that fit are decoded from their encoding. -/
theorem decodes_toCode {is : Instructions} (h : ∀ i ∈ is, i.Fits) :
    (Instructions.toCode is).Decodes is :=
  (holds_toCode h).decodesFrom (by simp)

/-- Code refers to fewer captured values than `n`. -/
def FreeBelow (code : Code) (n : Nat) : Prop :=
  ∃ is, code.Decodes is ∧ ∀ k, .getFree k ∈ is → k < n

/-! ## Edits

The two changes that the compiler makes to code it has written: bytes in the middle are overwritten, and bytes
at the end are cut off. -/

/-- Overwriting bytes leaves those in front and behind as they are. -/
theorem toList_write (bytes : List UInt8) : ∀ (code : Code) (pre old post : List UInt8),
    old.length = bytes.length → code.toList = pre ++ old ++ post →
    (write code pre.length bytes).toList = pre ++ bytes ++ post := by
  induction bytes with
  | nil =>
      intro code pre old post hlen h
      have hold : old = [] := List.eq_nil_of_length_eq_zero hlen
      simpa [write, hold] using h
  | cons byte bytes ih =>
      intro code pre old post hlen h
      obtain ⟨first, old, rfl⟩ : ∃ first rest, old = first :: rest :=
        List.exists_cons_of_length_eq_add_one (by simpa using hlen)
      have hset : (code.setIfInBounds pre.length byte).toList = (pre ++ [byte]) ++ old ++ post := by
        rw [Array.toList_setIfInBounds, h]
        simp
      have ih := ih (code.setIfInBounds pre.length byte) (pre ++ [byte]) old post
        (by simpa using hlen) hset
      simpa [write] using ih

/-- An instruction in the middle is overwritten by another one of the same size. -/
theorem toList_write_instruction {code : Code} (pre post : List UInt8) {i j : Instruction}
    (h : code.toList = pre ++ i.encode ++ post) (hsize : i.size = j.size) :
    (write code pre.length j.encode).toList = pre ++ j.encode ++ post :=
  toList_write j.encode code pre i.encode post hsize h

theorem toList_truncate {code : Code} (pre post : List UInt8) (h : code.toList = pre ++ post) :
    (truncate code pre.length).toList = pre := by
  simp [truncate, h]

end Code

end ScriptLang
