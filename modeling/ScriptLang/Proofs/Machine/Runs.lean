import Mathlib.Algebra.Group.Nat.Defs
import ScriptLang.Proofs.Machine.Safety

/-!
# Runs of the machine

`Machine.Steps n m m'` says that the machine gets from `m` to `m'` in `n` steps, and `Machine.Stops` how
it ends. Main statements:

* `Machine.run_spec` — a run executes steps until the machine stops, or as many as the budget grants;
* `Machine.Safe.steps` — a safe machine stays safe;
* `Machine.run_of_stops` — the machine stops in one way only.
-/

namespace ScriptLang

namespace Machine

/-! ## Steps

A run is a sequence of steps. `Steps` counts them, `Reaches` does not; both compose. -/

section

variable [StringHash]

/-- A machine gets from one state to another in a number of steps. -/
inductive Steps : Nat → Machine → Machine → Prop where
  | refl (m : Machine) : Steps 0 m m
  | head {n : Nat} {m m₁ m' : Machine} : MachineM.step m = .ok true m₁ → Steps n m₁ m' →
      Steps (n + 1) m m'

/-- A machine gets from one state to another. -/
def Reaches (m m' : Machine) : Prop := ∃ n, Steps n m m'

theorem Steps.trans {k n : Nat} {m m₁ m' : Machine} (h₁ : Steps k m m₁) (h₂ : Steps n m₁ m') :
    Steps (k + n) m m' := by
  induction h₁ with
  | refl => rwa [Nat.zero_add]
  | head hstep _ ih =>
      rw [Nat.add_right_comm]
      exact .head hstep (ih h₂)

theorem Steps.one {m m' : Machine} (h : MachineM.step m = .ok true m') : Steps 1 m m' :=
  .head h (.refl m')

namespace Reaches

variable {m m₁ m' : Machine}

theorem refl (m : Machine) : m.Reaches m := ⟨0, .refl m⟩

theorem trans (h₁ : m.Reaches m₁) (h₂ : m₁.Reaches m') : m.Reaches m' := by
  obtain ⟨k, h₁⟩ := h₁
  obtain ⟨n, h₂⟩ := h₂
  exact ⟨k + n, h₁.trans h₂⟩

theorem step (h : MachineM.step m = .ok true m') : m.Reaches m' := ⟨1, .one h⟩

end Reaches

/-! ## Ends -/

/-- A machine executes nothing more. -/
inductive Stops (m : Machine) : Ending → Machine → Prop where
  | finished : MachineM.step m = .ok false m → Stops m .finished m
  | failed {e : RuntimeError} {m' : Machine} : MachineM.step m = .error (.error e) m' →
      Stops m (.failed e) m'
  | malformed {cause : Malformed} {m' : Machine} : MachineM.step m = .error (.malformed cause) m' →
      Stops m (.malformed cause) m'

theorem step_false {m m' : Machine} (h : MachineM.step m = .ok false m') : m' = m := by
  cases hdecode : decode m.code m.frame.ip with
  | instruction i next =>
      rw [MachineM.step_of_decode hdecode] at h
      cases hexec : MachineM.execute i (m.jumped next) <;> simp [hexec] at h
  | finished =>
      rw [MachineM.step_finished hdecode] at h
      cases h
      rfl
  | unknown byte =>
      simp only [MachineM.step, MachineM.bind_apply, MachineM.get_apply, hdecode] at h
      cases h
  | truncated =>
      simp only [MachineM.step, MachineM.bind_apply, MachineM.get_apply, hdecode] at h
      cases h

/-- How a result of `MachineM.advance` came about. -/
inductive Advanced (m : Machine) (k : Nat) : EStateM.Result Fault Machine Bool → Prop where
  | more {m' : Machine} : Steps (2 ^ k) m m' → Advanced m k (.ok true m')
  | finished {m' : Machine} : m.Reaches m' → MachineM.step m' = .ok false m' →
      Advanced m k (.ok false m')
  | error {e : Fault} {m₁ m' : Machine} : m.Reaches m₁ → MachineM.step m₁ = .error e m' →
      Advanced m k (.error e m')

/-- A run of a limited number of steps comes to an end, or has made them all. -/
theorem advance_spec (k : Nat) (m : Machine) : m.Advanced k (MachineM.advance k m) := by
  induction k generalizing m with
  | zero =>
      show m.Advanced 0 (MachineM.step m)
      cases h : MachineM.step m with
      | ok more m' =>
          cases more with
          | true => exact .more (.one h)
          | false =>
              have hm := step_false h
              subst hm
              exact .finished (.refl _) h
      | error e m' => exact .error (.refl m) h
  | succ k ih =>
      rw [MachineM.advance, MachineM.bind_apply]
      have hfirst := ih m
      cases h₁ : MachineM.advance k m with
      | error e m' =>
          rw [h₁] at hfirst
          cases hfirst with
          | error hreach hstep => exact .error hreach hstep
      | ok more m₁ =>
          rw [h₁] at hfirst
          cases hfirst with
          | finished hreach hstep => exact .finished hreach hstep
          | more hsteps =>
              show m.Advanced (k + 1) (MachineM.advance k m₁)
              have hsecond := ih m₁
              cases h₂ : MachineM.advance k m₁ with
              | error e m' =>
                  rw [h₂] at hsecond
                  cases hsecond with
                  | error hreach hstep => exact .error (.trans ⟨_, hsteps⟩ hreach) hstep
              | ok more m₂ =>
                  rw [h₂] at hsecond
                  cases hsecond with
                  | finished hreach hstep => exact .finished (.trans ⟨_, hsteps⟩ hreach) hstep
                  | more hsteps₂ =>
                      refine .more ?_
                      rw [Nat.pow_succ, Nat.mul_two]
                      exact hsteps.trans hsteps₂

/-- **Runs**: a run executes steps until the machine stops, or as many as the budget grants. -/
theorem run_spec (m : Machine) :
    (∃ m', Steps (2 ^ m.budget) m m') ∨ ∃ m', m.Reaches m' ∧ m'.Stops m.run.1 m.run.2 := by
  unfold run
  generalize m.budget = k
  have hadvance := advance_spec k m
  cases h : MachineM.advance k m with
  | ok more m' =>
      rw [h] at hadvance
      cases hadvance with
      | more hsteps => exact .inl ⟨m', hsteps⟩
      | finished hreach hstep => exact .inr ⟨m', hreach, .finished hstep⟩
  | error e m' =>
      rw [h] at hadvance
      cases hadvance with
      | error hreach hstep =>
          refine .inr ⟨_, hreach, ?_⟩
          cases e with
          | error e => exact .failed hstep
          | malformed cause => exact .malformed hstep

/-- Nothing is executed behind the end. -/
theorem Stops.not_step {m m' m₁ : Machine} {e : Ending} (h : m.Stops e m') :
    MachineM.step m ≠ .ok true m₁ := by
  intro hstep
  cases h with
  | finished h =>
      rw [hstep] at h
      cases h
  | failed h =>
      rw [hstep] at h
      cases h
  | malformed h =>
      rw [hstep] at h
      cases h

/-- A run ends in one way only. -/
theorem Stops.unique {m m₁ m₂ : Machine} {e₁ e₂ : Ending} (h₁ : m.Stops e₁ m₁) (h₂ : m.Stops e₂ m₂) :
    e₁ = e₂ ∧ m₁ = m₂ := by
  cases h₁ with
  | finished h₁ => cases h₂ with
    | finished h₂ => exact ⟨rfl, rfl⟩
    | failed h₂ => rw [h₁] at h₂; cases h₂
    | malformed h₂ => rw [h₁] at h₂; cases h₂
  | failed h₁ => cases h₂ with
    | finished h₂ => rw [h₁] at h₂; cases h₂
    | failed h₂ => rw [h₁] at h₂; cases h₂; exact ⟨rfl, rfl⟩
    | malformed h₂ => rw [h₁] at h₂; cases h₂
  | malformed h₁ => cases h₂ with
    | finished h₂ => rw [h₁] at h₂; cases h₂
    | failed h₂ => rw [h₁] at h₂; cases h₂
    | malformed h₂ => rw [h₁] at h₂; cases h₂; exact ⟨rfl, rfl⟩

/-- A machine stops in one state only. -/
theorem Steps.unique {k n : Nat} {m m₁ m₂ m₁' m₂' : Machine} {e₁ e₂ : Ending}
    (h₁ : Steps k m m₁) (hs₁ : m₁.Stops e₁ m₁') (h₂ : Steps n m m₂) (hs₂ : m₂.Stops e₂ m₂') :
    e₁ = e₂ ∧ m₁' = m₂' := by
  induction h₁ generalizing n with
  | refl => cases h₂ with
    | refl => exact hs₁.unique hs₂
    | head hstep _ => exact absurd hstep hs₁.not_step
  | head hstep _ ih => cases h₂ with
    | refl => exact absurd hstep hs₂.not_step
    | head hstep₂ h₂ =>
        rw [hstep] at hstep₂
        cases hstep₂
        exact ih hs₁ h₂

/-- The machine behind some steps, if it gets so far. -/
def behind? : Nat → Machine → Option Machine
  | 0, m => some m
  | n + 1, m =>
    match MachineM.step m with
    | .ok true m₁ => behind? n m₁
    | _ => none

/-- Steps that were computed have been made. -/
theorem steps_of_behind? {m' : Machine} : ∀ {n : Nat} {m : Machine}, m.behind? n = some m' → Steps n m m'
  | 0, m, h => by
      cases h
      exact .refl _
  | n + 1, m, h => by
      rw [behind?] at h
      split at h
      · next m₁ hstep => exact .head hstep (steps_of_behind? h)
      · cases h

/-! ## Safe runs -/

/-- A safe machine stays safe, and its bytecode stays the same. -/
theorem Safe.steps {n : Nat} {m m' : Machine} (h : m.Safe) (hsteps : Steps n m m') :
    m'.Safe ∧ m'.bytecode = m.bytecode := by
  induction hsteps with
  | refl => exact ⟨h, rfl⟩
  | head hstep _ ih =>
      rcases h.step with ⟨hstop, -⟩ | ⟨m₁, hok, hsafe, hb, -⟩ | ⟨e, m₁, herror, -⟩
      · rw [hstep] at hstop
        cases hstop
      · rw [hstep] at hok
        cases hok
        obtain ⟨hsafe', hb'⟩ := ih hsafe
        exact ⟨hsafe', hb'.trans hb⟩
      · rw [hstep] at herror
        cases herror

/-- Each step of a safe machine goes forward, enters a function or leaves one. -/
theorem Safe.goes {m m' : Machine} (h : m.Safe) (hstep : MachineM.step m = .ok true m') : m.Goes m' := by
  rcases h.step with ⟨hstop, -⟩ | ⟨m₁, hok, -, -, hgoes⟩ | ⟨e, m₁, herror, -⟩
  · rw [hstep] at hstop
    cases hstop
  · rw [hstep] at hok
    cases hok
    exact hgoes
  · rw [hstep] at herror
    cases herror

/-- A safe machine stops at the end of its program, or with a legitimate error. -/
theorem Safe.stops {m m' : Machine} {e : Ending} (h : m.Safe) (hstops : m.Stops e m') :
    (e = .finished ∨ ∃ error, e = .failed error ∧ error.isLegitimate = true) ∧
      SafeSlots m.bytecode.constants m'.globals := by
  rcases h.step with ⟨hstop, -⟩ | ⟨m₁, hok, -⟩ | ⟨error, m₁, herror, hlegitimate, hglobals⟩
  · obtain ⟨rfl, rfl⟩ := hstops.unique (.finished hstop)
    exact ⟨.inl rfl, h.data.globals⟩
  · exact absurd hok hstops.not_step
  · obtain ⟨rfl, rfl⟩ := hstops.unique (.failed herror)
    exact ⟨.inr ⟨error, rfl, hlegitimate⟩, hglobals⟩

end

theorem Safe.top_le {m : Machine} (h : m.Safe) : m.top ≤ stackSize := by
  rcases h.control with ⟨height, hrunning⟩ | hhalted
  · exact hrunning.top_le
  · exact hhalted.top_le

/-- Below the frame of a call there is the slot of the closure that was called. -/
theorem Safe.base_pos {m : Machine} (h : m.Safe) (hclosure : m.frame.closure?.isSome = true) :
    1 ≤ m.frame.base := by
  rcases h.control with ⟨height, hrunning⟩ | hhalted
  · have hstacked := hrunning.stacked
    cases hcallers : m.callers with
    | nil =>
        rw [hcallers] at hstacked
        rw [hstacked.1] at hclosure
        cases hclosure
    | cons caller callers =>
        rw [hcallers] at hstacked
        obtain ⟨-, ⟨n, -, hbase⟩, -⟩ := hstacked
        omega
  · rw [hhalted.closure] at hclosure
    cases hclosure

/-- Only in the main program the code has an end. -/
theorem Safe.decode_ne_finished {m : Machine} (h : m.Safe) (hclosure : m.frame.closure?.isSome = true) :
    ∃ i, decode m.code m.frame.ip = .instruction i (m.frame.ip + i.size) := by
  rcases h.control with ⟨height, hrunning⟩ | hhalted
  · rcases hrunning.typed.next with ⟨-, hnone⟩ | ⟨i, hdecode, -⟩
    · rw [hnone] at hclosure
      cases hclosure
    · exact ⟨i, hdecode⟩
  · rw [hhalted.closure] at hclosure
    cases hclosure

theorem Safe.depth_le {m : Machine} (h : m.Safe) : m.callers.length + 1 ≤ maxFrames := by
  rcases h.control with ⟨height, hrunning⟩ | hhalted
  · exact hrunning.depth
  · rw [hhalted.callers]
    decide

end Machine

end ScriptLang
