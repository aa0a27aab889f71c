import ScriptLang.Proofs.Bytecode.Stream

/-!
# Stack heights

How many values each instruction takes off the stack and puts on it, and what follows for a list of
instructions. `Balanced offset height is` says that the instructions `is`, which stand at `offset` and
start with `height` values on the stack, never take a value that is not there, and that every jump goes
forward to one of them, or behind the last one, and arrives there with as many values as the instructions
in between would have left.

Behind a `jump` and behind a `return` the next instruction is not reached from the one before. It is
counted as if it were, with the height at which the statement or branch before it began.
-/

namespace ScriptLang

namespace Instruction

/-- The number of values that an instruction takes off the stack. A `jump` is counted as taking off the
value of the branch that it ends. -/
def pops : Instruction → Nat
  | .add | .sub | .mul | .div | .equal | .notEqual | .greaterThan | .index => 2
  | .pop | .minus | .bang | .jumpNotTruthy _ | .jump _ | .setGlobal _ | .setLocal _
  | .returnValue => 1
  | .array length | .hash length => length
  | .call numArguments => numArguments + 1
  | .closure _ numFree => numFree
  | .constant _ | .true | .false | .null | .getGlobal _ | .getLocal _ | .getBuiltin _ | .getFree _
  | .currentClosure | .return => 0

/-- The number of values that an instruction puts on the stack. -/
def pushes : Instruction → Nat
  | .pop | .jumpNotTruthy _ | .jump _ | .setGlobal _ | .setLocal _ | .returnValue | .return => 0
  | _ => 1

/-- The height of the stack behind an instruction. -/
def heightAfter (i : Instruction) (height : Nat) : Nat := height - i.pops + i.pushes

/-- Where an instruction may go instead of to the next one. -/
def target? : Instruction → Option Nat
  | .jumpNotTruthy target | .jump target => some target
  | _ => none

/-- The height of the stack where a jump arrives. -/
def heightAtTarget : Instruction → Nat → Nat
  | .jumpNotTruthy _, height => height - 1
  | _, height => height

/-- Whether an instruction ends a call. -/
def isReturn : Instruction → Bool
  | .return | .returnValue => Bool.true
  | _ => Bool.false

end Instruction

namespace Instructions

/-- The height of the stack behind some instructions. -/
def heightAfter (height : Nat) (is : Instructions) : Nat :=
  is.foldl (fun height i => i.heightAfter height) height

@[simp] theorem heightAfter_nil (height : Nat) : heightAfter height [] = height := rfl

@[simp] theorem heightAfter_cons (height : Nat) (i : Instruction) (is : Instructions) :
    heightAfter height (i :: is) = heightAfter (i.heightAfter height) is := rfl

@[simp] theorem heightAfter_append (height : Nat) (is js : Instructions) :
    heightAfter height (is ++ js) = heightAfter (heightAfter height is) js := by
  simp [heightAfter]

end Instructions

open Instructions (heightAfter)

/-- The instructions at an offset keep to the stack that they find, and their jumps go forward. -/
def Balanced : Nat → Nat → Instructions → Prop
  | _, _, [] => True
  | offset, height, i :: is =>
    i.pops ≤ height ∧
      (∀ target, i.target? = some target → ∃ skipped rest, is = skipped ++ rest ∧
        target = offset + i.size + Instructions.size skipped ∧
        heightAfter (i.heightAfter height) skipped = i.heightAtTarget height) ∧
      Balanced (offset + i.size) (i.heightAfter height) is

namespace Balanced

variable {offset height : Nat} {i : Instruction} {is js : Instructions}

/-- Two stretches of code, one behind the other. -/
theorem append (h₁ : Balanced offset height is)
    (h₂ : Balanced (offset + Instructions.size is) (heightAfter height is) js) :
    Balanced offset height (is ++ js) := by
  induction is generalizing offset height with
  | nil => simpa using h₂
  | cons i is ih =>
      obtain ⟨hpops, htarget, hrest⟩ := h₁
      refine ⟨hpops, ?_, ih hrest (by simpa [Nat.add_assoc] using h₂)⟩
      intro target ht
      obtain ⟨skipped, rest, rfl, hoffset, hheight⟩ := htarget target ht
      exact ⟨skipped, rest ++ js, by simp, hoffset, hheight⟩

/-- What comes later is balanced by itself. -/
theorem right (h : Balanced offset height (is ++ js)) :
    Balanced (offset + Instructions.size is) (heightAfter height is) js := by
  induction is generalizing offset height with
  | nil => simpa using h
  | cons i is ih => simpa [Nat.add_assoc] using ih h.2.2

/-- One more instruction that is no jump. -/
theorem concat (h : Balanced offset height is) (hpops : i.pops ≤ heightAfter height is)
    (htarget : i.target? = none) : Balanced offset height (is ++ [i]) := by
  refine h.append ⟨hpops, ?_, trivial⟩
  intro target ht
  rw [htarget] at ht
  cases ht

/-- **Jumps** go forward, to the offset of a later instruction or behind the last one. -/
theorem exists_target {pre post : Instructions} {target : Nat}
    (h : Balanced offset height (pre ++ i :: post)) (ht : i.target? = some target) :
    ∃ skipped rest, post = skipped ++ rest ∧
      target = offset + Instructions.size pre + i.size + Instructions.size skipped := by
  obtain ⟨-, htarget, -⟩ := h.right
  obtain ⟨skipped, rest, hpost, hoffset, -⟩ := htarget target ht
  exact ⟨skipped, rest, hpost, hoffset⟩

/-- Jumps stay within the code or arrive at its end. -/
theorem target_le {target : Nat} (h : Balanced offset height is) (hi : i ∈ is)
    (ht : i.target? = some target) : target ≤ offset + Instructions.size is := by
  obtain ⟨pre, post, rfl⟩ := List.append_of_mem hi
  obtain ⟨skipped, rest, rfl, rfl⟩ := h.exists_target ht
  simp only [Instructions.size_append, Instructions.size_cons]
  omega

end Balanced

end ScriptLang
