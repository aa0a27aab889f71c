import ScriptLang.Proofs.Bytecode.Stream

/-!
# Decoding of any bytes

What `decode` makes of bytes of which nothing is known, whoever wrote them and wherever a jump arrives in
them. Main statements:

* `decode_spec` — all that decoding can find: the end, an unknown byte, operands that are cut off, or an
  instruction that is as long as its encoding and whose operands fit;
* `decode_truncated_iff` — operands are cut off exactly where the code ends before the instruction does.
-/

namespace ScriptLang

/-! ## Operations -/

theorem Opcode.toByte_of_getElem?_table {k : Nat} {op : Opcode} (h : Opcode.table[k]? = some op) :
    op.toByte.toNat = k + 1 := by
  obtain ⟨hk, rfl⟩ := Array.getElem?_eq_some_iff.mp h
  have hall : ∀ k (hk : k < Opcode.table.size), Opcode.table[k].toByte.toNat = k + 1 := by decide
  exact hall k hk

/-- Only the byte of an operation stands for it. -/
theorem Opcode.toByte_of_ofByte? {byte : UInt8} {op : Opcode} (h : Opcode.ofByte? byte = some op) :
    op.toByte = byte := by
  rw [Opcode.ofByte?] at h
  split at h
  · cases h
  · next hne =>
      have hpos : byte.toNat ≠ 0 := fun hzero => hne (UInt8.toNat.inj hzero)
      apply UInt8.toNat.inj
      rw [Opcode.toByte_of_getElem?_table h]
      omega

/-- Different operations have different bytes. -/
theorem Opcode.toByte_inj {op op' : Opcode} (h : op.toByte = op'.toByte) : op = op' := by
  have hbyte := congrArg Opcode.ofByte? h
  simpa using hbyte

/-! ## Operands -/

variable {code : Array UInt8} {offset : Nat}

theorem Width.decode?_lt {width : Width} {operand : Nat} (h : width.decode? code offset = some operand) :
    operand < width.bound := by
  cases width with
  | byte =>
      obtain ⟨byte, -, hbyte⟩ := Option.bind_eq_some_iff.mp h
      cases hbyte
      exact byte.toNat_lt
  | word =>
      obtain ⟨high, -, h⟩ := Option.bind_eq_some_iff.mp h
      obtain ⟨low, -, hlow⟩ := Option.bind_eq_some_iff.mp h
      cases hlow
      have hhigh := high.toNat_lt
      have hlow := low.toNat_lt
      show 256 * high.toNat + low.toNat < 65536
      omega

/-- An operand is cut off if its last byte is missing. -/
theorem Width.decode?_eq_none_iff {width : Width} :
    width.decode? code offset = none ↔ code.size < offset + width.size := by
  cases width with
  | byte =>
      rw [Width.decode?, Width.size, ← Nat.succ_le_iff, Nat.succ_le_succ_iff,
        ← Array.getElem?_eq_none_iff]
      cases code[offset]? <;> simp
  | word =>
      rw [Width.decode?, Width.size, ← Nat.succ_le_iff, Nat.succ_le_succ_iff,
        ← Array.getElem?_eq_none_iff]
      cases hhigh : code[offset]? with
      | none =>
          -- behind a missing byte there is none either
          have hlow : code[offset + 1]? = none := by
            rw [Array.getElem?_eq_none_iff] at hhigh ⊢
            exact Nat.le_succ_of_le hhigh
          simp [hlow]
      | some high => cases code[offset + 1]? <;> simp

/-- The offset behind operands of given widths. -/
def Width.behind (widths : List Width) (offset : Nat) : Nat :=
  widths.foldl (fun offset width => offset + width.size) offset

theorem Width.behind_cons (width : Width) (widths : List Width) (offset : Nat) :
    behind (width :: widths) offset = behind widths (offset + width.size) := rfl

theorem Width.le_behind (widths : List Width) (offset : Nat) : offset ≤ behind widths offset := by
  induction widths generalizing offset with
  | nil => exact Nat.le_refl offset
  | cons width widths ih => exact Nat.le_trans (Nat.le_add_right _ _) (ih (offset + width.size))

theorem Width.add_behind (widths : List Width) (n offset : Nat) :
    n + behind widths offset = behind widths (n + offset) := by
  induction widths generalizing offset with
  | nil => rfl
  | cons width widths ih => rw [behind_cons, behind_cons, ih, Nat.add_assoc]

/-- Operands that can be read are as many as there are widths, fit them, and end in the code. -/
theorem decodeOperands?_eq_some {widths : List Width} {operands : List Nat} {next : Nat}
    (h : decodeOperands? code offset widths = some (operands, next)) :
    operands.length = widths.length ∧ next = Width.behind widths offset ∧
      ∀ p ∈ operands.zip widths, p.1 < p.2.bound := by
  induction widths generalizing offset operands next with
  | nil =>
      cases h
      exact ⟨rfl, rfl, by simp⟩
  | cons width widths ih =>
      obtain ⟨operand, hoperand, h⟩ := Option.bind_eq_some_iff.mp h
      obtain ⟨⟨rest, next'⟩, hrest, h⟩ := Option.bind_eq_some_iff.mp h
      cases h
      obtain ⟨hlength, hnext, hfit⟩ := ih hrest
      refine ⟨congrArg (· + 1) hlength, hnext, ?_⟩
      rintro p hp
      rcases List.mem_cons.mp hp with rfl | hp
      · exact Width.decode?_lt hoperand
      · exact hfit p hp

/-- Operands are cut off if the code ends before they do. -/
theorem decodeOperands?_eq_none_iff {widths : List Width} (hoffset : offset ≤ code.size) :
    decodeOperands? code offset widths = none ↔ code.size < Width.behind widths offset := by
  induction widths generalizing offset with
  | nil => simpa [decodeOperands?, Width.behind] using hoffset
  | cons width widths ih =>
      rw [Width.behind_cons, decodeOperands?]
      cases hoperand : width.decode? code offset with
      | none =>
          have hcut := Width.decode?_eq_none_iff.mp hoperand
          simpa using Nat.lt_of_lt_of_le hcut (Width.le_behind _ _)
      | some operand =>
          have hroom : offset + width.size ≤ code.size := by
            rw [← Nat.not_lt, ← Width.decode?_eq_none_iff, hoperand]
            exact Option.some_ne_none operand
          rw [← ih hroom]
          cases decodeOperands? code (offset + width.size) widths <;> simp

/-! ## Instructions -/

theorem Opcode.add_length (op : Opcode) (offset : Nat) :
    offset + op.length = Width.behind op.widths (offset + 1) :=
  Width.add_behind op.widths offset 1

theorem Instruction.of?_eq_some {op : Opcode} {operands : List Nat} {i : Instruction}
    (h : Instruction.of? op operands = some i) : i.opcode = op ∧ i.operands = operands := by
  unfold Instruction.of? at h
  split at h <;> cases h <;> exact ⟨rfl, rfl⟩

/-- With the right number of operands every operation is an instruction. -/
theorem Instruction.of?_ne_none {op : Opcode} {operands : List Nat}
    (h : operands.length = op.widths.length) : Instruction.of? op operands ≠ none := by
  match operands with
  | [] => cases op <;> first | exact Option.some_ne_none _ | cases h
  | [_] => cases op <;> first | exact Option.some_ne_none _ | cases h
  | [_, _] => cases op <;> first | exact Option.some_ne_none _ | cases h
  | _ :: _ :: _ :: _ => cases op <;> simp [Opcode.widths] at h

/-- How bytes are decoded. -/
inductive Decoding (code : Array UInt8) (offset : Nat) : Decoded → Prop where
  | finished : code.size ≤ offset → Decoding code offset .finished
  | unknown {byte : UInt8} : code[offset]? = some byte → Opcode.ofByte? byte = none →
      Decoding code offset (.unknown byte)
  | truncated {op : Opcode} : code[offset]? = some op.toByte → code.size < offset + op.length →
      Decoding code offset .truncated
  | instruction {i : Instruction} : code[offset]? = some i.opcode.toByte → i.Fits →
      offset + i.size ≤ code.size → Decoding code offset (.instruction i (offset + i.size))

/-- An operation is decoded with its operands, unless they are cut off. -/
theorem Decoding.of_operation {op : Opcode} (hbyte : code[offset]? = some op.toByte) :
    Decoding code offset (decode code offset) := by
  have hoffset : offset + 1 ≤ code.size := (Array.getElem?_eq_some_iff.mp hbyte).1
  have hcut : decodeOperands? code (offset + 1) op.widths = none ↔ code.size < offset + op.length := by
    rw [Opcode.add_length]
    exact decodeOperands?_eq_none_iff hoffset
  simp only [decode, hbyte, Opcode.ofByte?_toByte]
  cases hoperands : decodeOperands? code (offset + 1) op.widths with
  | none => exact .truncated hbyte (hcut.mp hoperands)
  | some result =>
      obtain ⟨operands, next⟩ := result
      -- the operands are as many as the operation has, so that it is an instruction with them
      obtain ⟨hlength, hnext, hfit⟩ := decodeOperands?_eq_some hoperands
      cases hi : Instruction.of? op operands with
      | none => exact absurd hi (Instruction.of?_ne_none hlength)
      | some i =>
          obtain ⟨rfl, rfl⟩ := Instruction.of?_eq_some hi
          rw [← Opcode.add_length, ← Instruction.size_eq] at hnext
          rw [hoperands, ← Instruction.size_eq] at hcut
          simp only [hi, hnext]
          exact .instruction hbyte (.of_operand_lt hfit)
            (Nat.le_of_not_lt fun hlt => Option.some_ne_none _ (hcut.mpr hlt))

/-- **Decoding** has four outcomes, whatever the bytes are. -/
theorem decode_spec (code : Array UInt8) (offset : Nat) : Decoding code offset (decode code offset) := by
  cases hbyte : code[offset]? with
  | none =>
      simp only [decode, hbyte]
      exact .finished (Array.getElem?_eq_none_iff.mp hbyte)
  | some byte =>
      cases hop : Opcode.ofByte? byte with
      | none =>
          simp only [decode, hbyte, hop]
          exact .unknown hbyte hop
      | some op => exact .of_operation (by rw [hbyte, Opcode.toByte_of_ofByte? hop])

theorem decode_instruction {i : Instruction} {next : Nat} (h : decode code offset = .instruction i next) :
    next = offset + i.size ∧ i.Fits := by
  have hspec := decode_spec code offset
  rw [h] at hspec
  cases hspec with
  | instruction _ hfits _ => exact ⟨rfl, hfits⟩

/-- **Cut off** are operands where the code ends before the instruction does. -/
theorem decode_truncated_iff : decode code offset = .truncated ↔
    ∃ op : Opcode, code[offset]? = some op.toByte ∧ code.size < offset + op.length := by
  have hspec := decode_spec code offset
  constructor
  · intro h
    rw [h] at hspec
    cases hspec with
    | truncated hbyte hcut => exact ⟨_, hbyte, hcut⟩
  · rintro ⟨op, hbyte, hcut⟩
    generalize decode code offset = decoded at hspec
    cases hspec with
    | finished hend => rw [Array.getElem?_eq_none hend] at hbyte; cases hbyte
    | unknown hunknown hnone =>
        rw [hbyte] at hunknown
        cases hunknown
        rw [Opcode.ofByte?_toByte] at hnone
        cases hnone
    | truncated => rfl
    | @instruction i hi _ hend =>
        rw [hbyte] at hi
        rw [Instruction.size_eq, ← Opcode.toByte_inj (Option.some.inj hi)] at hend
        exact absurd hcut (Nat.not_lt.mpr hend)

end ScriptLang
