import Mathlib.Data.List.Induction
import Mathlib.Data.List.Nodup
import ScriptLang.Proofs.Session.Bindings
import ScriptLang.Value.SipHash

/-!
# Globals are written once

The compiler numbers the globals in the order in which it comes to their definitions, over all the lines of a
session, and the main program only goes forward. So no global is stored in twice. Main statements:

* `Emits.numbers` — the code of a part stores in the globals that the part adds, one behind the other;
* `Machine.Safe.storesGlobal_once` — a run comes to a store in each global once at most;
* `Session.globals_once` — so does a whole session, whatever its lines are and however they end.
-/

namespace ScriptLang

/-! ## Code -/

/-- The globals that some instructions store in. -/
def Instructions.stored (is : Instructions) : List Nat :=
  is.filterMap fun
    | .setGlobal k => some k
    | _ => none

namespace Instructions

@[simp] theorem stored_nil : stored [] = [] := rfl

@[simp] theorem stored_append (is js : Instructions) : stored (is ++ js) = stored is ++ stored js :=
  List.filterMap_append

@[simp] theorem stored_setGlobal (k : Nat) (is : Instructions) :
    stored (.setGlobal k :: is) = k :: stored is := rfl

/-- A global is stored if there is an instruction that does. -/
theorem mem_stored {is : Instructions} {k : Nat} : k ∈ stored is ↔ .setGlobal k ∈ is := by
  rw [stored, List.mem_filterMap]
  constructor
  · rintro ⟨i, hi, hk⟩
    cases i <;> cases hk
    exact hi
  · exact fun h => ⟨_, h, rfl⟩

theorem stored_eq_nil {is : Instructions} (h : ∀ k, .setGlobal k ∉ is) : stored is = [] :=
  List.eq_nil_iff_forall_not_mem.mpr fun k hk => h k (mem_stored.mp hk)

theorem stored_singleton {i : Instruction} (h : ∀ k, i ≠ .setGlobal k) : stored [i] = [] :=
  stored_eq_nil fun k hk => h k (List.mem_singleton.mp hk).symm

/-- Where each global is stored in once only, there is no store in it before another one. -/
theorem not_mem_of_stored {pre post : Instructions} {k : Nat}
    (h : (stored (pre ++ .setGlobal k :: post)).Nodup) : .setGlobal k ∉ pre := by
  rw [stored_append, stored_setGlobal] at h
  intro hmem
  exact (List.disjoint_of_nodup_append h) (mem_stored.mpr hmem) List.mem_cons_self

/-- An instruction that stores in a global stands in one place only. -/
theorem eq_of_stored {pre pre' post post' : Instructions} {k : Nat}
    (h : (stored (pre ++ .setGlobal k :: post)).Nodup)
    (heq : pre ++ .setGlobal k :: post = pre' ++ .setGlobal k :: post') : pre = pre' := by
  rcases List.append_eq_append_iff.mp heq with ⟨between, hpre, hpost⟩ | ⟨between, hpre, hpost⟩
  · cases between with
    | nil => rw [hpre, List.append_nil]
    | cons i between =>
        cases hpost
        rw [heq] at h
        exact absurd (hpre ▸ List.mem_append_right _ List.mem_cons_self) (not_mem_of_stored h)
  · cases between with
    | nil => rw [hpre, List.append_nil]
    | cons i between =>
        cases hpost
        exact absurd (hpre ▸ List.mem_append_right _ List.mem_cons_self) (not_mem_of_stored h)

end Instructions

/-- The code of a part stores in the globals that the part adds, in their order. -/
structure Numbers (is : Instructions) (s s' : Symbols) : Prop where
  stored : is.stored = List.range' s.main.numDefinitions is.stored.length
  added : s'.main.numDefinitions = s.main.numDefinitions + is.stored.length

namespace Numbers

variable {is js : Instructions} {s s₁ s₂ : Symbols}

/-- A part that stores nothing. -/
theorem of_main_eq (hmain : s₁.main.numDefinitions = s.main.numDefinitions)
    (hstores : ∀ k, .setGlobal k ∉ is) : Numbers is s s₁ := by
  have hnil := Instructions.stored_eq_nil hstores
  exact ⟨by rw [hnil]; rfl, by rw [hnil, hmain]; rfl⟩

theorem trans (h₁ : Numbers is s s₁) (h₂ : Numbers js s₁ s₂) : Numbers (is ++ js) s s₂ where
  stored := by
    have hsecond := h₂.stored
    rw [h₁.added] at hsecond
    rw [Instructions.stored_append, List.length_append, ← List.range'_append_1, ← h₁.stored, ← hsecond]
  added := by
    rw [Instructions.stored_append, List.length_append, h₂.added, h₁.added, Nat.add_assoc]

/-- Instructions that store nothing do not matter. -/
theorem congr (h : Numbers is s s₁) (his : js.stored = is.stored) : Numbers js s s₁ :=
  ⟨his ▸ h.stored, his ▸ h.added⟩

theorem concat (h : Numbers is s s₁) {i : Instruction} (hi : ∀ k, i ≠ .setGlobal k) :
    Numbers (is ++ [i]) s s₁ :=
  h.congr (by rw [Instructions.stored_append, Instructions.stored_singleton hi, List.append_nil])

/-- A definition takes the next number. -/
theorem define (s : Symbols) (name : String) :
    Numbers [(s.definedSymbol name).storeInstruction] s (s.define name) := by
  obtain ⟨t, ts⟩ := s
  cases ts with
  | nil => exact ⟨rfl, rfl⟩
  | cons o rest => exact ⟨rfl, rfl⟩

theorem nodup (h : Numbers is s s₁) : is.stored.Nodup := by
  rw [h.stored]
  exact List.nodup_range'

end Numbers

/-- **Numbers**: globals are numbered in the order in which the code stores in them. -/
theorem Emits.numbers {P : Part} {c c' : Compiler} {offset : Nat} {is : Instructions}
    (h : Emits P c offset is c') (hc : c.symbols.Sound) : Numbers is c.symbols c'.symbols := by
  induction h with
  | @identifier c offset name symbol symbols hresolve =>
      refine .of_main_eq (by rw [Symbols.resolve?_main hresolve]) fun k hmem => ?_
      have hne := Instruction.ne_setGlobal_of_pushes symbol.loadInstruction_pops.2.1 k
      exact hne (List.mem_singleton.mp hmem).symm
  | constant => exact .of_main_eq rfl (by simp)
  | @boolean c offset value =>
      refine .of_main_eq rfl fun k => ?_
      cases value <;> simp
  | operation hes hi _ ih =>
      exact (ih hc).concat (Instruction.ne_setGlobal_of_pushes (Expr.instruction?_pops hi hes).2.1)
  | less _ ih => exact (ih hc).concat fun _ => Instruction.noConfusion
  | @«if» c c₁ c₂ c₃ offset start condition consequence alternative is js ks h₁ h₂ _ h₃ ih₁ ih₂ ih₃ =>
      obtain ⟨hc₁, -⟩ := h₁.grows hc
      obtain ⟨hc₂, -⟩ := h₂.grows hc₁
      refine ((ih₁ hc).trans ((ih₂ hc₁).trans (ih₃ hc₂))).congr ?_
      simp [Instructions.stored]
  | @function c c' offset name parameters body is hbody hfits ih =>
      -- the body stores in no global, and around it values are only loaded
      have hopen := hc.openFunction name parameters
      have hinside := hbody.defines hopen
      have hnested := c.symbols.openFunction_nested name parameters
      have hbodyAdds := (ih hopen).added
      rw [Instructions.stored_eq_nil (hinside.not_mem_of_nested hnested),
        c.symbols.main_openFunction name parameters] at hbodyAdds
      refine .of_main_eq ?_ fun k hmem => ?_
      · exact (congrArg _ (Symbols.main_leave (hinside.nested.trans hnested))).trans hbodyAdds
      · rcases List.mem_append.mp hmem with hload | hclosure
        · obtain ⟨symbol, -, heq⟩ := List.mem_map.mp hload
          exact absurd heq (Instruction.ne_setGlobal_of_pushes symbol.loadInstruction_pops.2.1 k)
        · cases List.mem_singleton.mp hclosure
  | exprs_nil => exact .of_main_eq rfl (by simp)
  | exprs_cons h₁ _ ih₁ ih₂ => exact (ih₁ hc).trans (ih₂ (h₁.grows hc).1)
  -- only here a global is added, behind those of the value that it gets
  | «let» h ih => exact (ih hc).trans (.define _ _)
  | return_none => exact .of_main_eq rfl (by simp)
  | return_some _ ih => exact (ih hc).concat fun _ => Instruction.noConfusion
  | expr _ ih => exact (ih hc).concat fun _ => Instruction.noConfusion
  | stmts_nil => exact .of_main_eq rfl (by simp)
  | stmts_cons h₁ _ ih₁ ih₂ => exact (ih₁ hc).trans (ih₂ (h₁.grows hc).1)
  | branch_nil => exact .of_main_eq rfl (by simp)
  | branch_value _ ih => exact ih hc
  | branch_cons _ h₁ _ ih₁ ih₂ => exact (ih₁ hc).trans (ih₂ (h₁.grows hc).1)
  | body_nil => exact .of_main_eq rfl (by simp)
  | body_value _ ih => exact (ih hc).concat fun _ => Instruction.noConfusion
  | body_return _ ih => exact (ih hc).concat fun _ => Instruction.noConfusion
  | body_cons _ h₁ _ ih₁ ih₂ => exact (ih₁ hc).trans (ih₂ (h₁.grows hc).1)

/-! ## Runs -/

namespace Machine

variable {m m' m₁ m₂ : Machine} {is : Instructions} {k n : Nat}

variable [StringHash]

/-- The main program is active in any run. -/
theorem Steps.staysAbove_zero (h : Steps n m m') : StaysAbove 0 m m' := by
  induction h with
  | refl => exact .refl (Nat.zero_le _)
  | head hstep _ ih => exact .head (Nat.zero_le _) hstep ih

/-- **The main program** only goes forward. -/
theorem Safe.main_ip_lt (h : m.Safe) (hcallers : m.callers = []) (hcallers' : m'.callers = [])
    (hsteps : Steps (n + 1) m m') : m.frame.ip < m'.frame.ip := by
  cases hsteps with
  | head hstep hrest =>
      have hstays := hrest.staysAbove_zero
      refine h.ip_lt_of_staysAbove hstep ?_ (by rw [hcallers, hcallers'])
      rwa [hcallers]

omit [StringHash] in
/-- A store in a global stands in the main program, which executes it itself. -/
theorem Safe.at_store (h : m.Safe) (hdecodes : m.bytecode.code.Decodes is) (hk : m.StoresGlobal k) :
    m.callers = [] ∧ ∃ pre post, is = pre ++ .setGlobal k :: post ∧ m.frame.ip = Instructions.size pre := by
  obtain ⟨next, hdecode⟩ := hk
  rcases h.control with ⟨height, hrunning⟩ | hhalted
  · -- a call executes the code of a function, in which there is no store
    cases hclosure : m.frame.closure? with
    | some closure => exact absurd hdecode (hrunning.decode_ne_setGlobal h.data hclosure)
    | none =>
        obtain ⟨post, hat⟩ := hrunning.at_main hdecodes hclosure
        obtain ⟨rest, rfl⟩ := next_of_decode hat hdecode
        obtain ⟨pre, hpre, hip, -⟩ := hat.reached
        refine ⟨?_, pre, rest, hpre, hip⟩
        have hstacked := hrunning.stacked
        cases hcallers : m.callers with
        | nil => rfl
        | cons caller callers =>
            rw [hcallers] at hstacked
            have hsome := hstacked.1
            rw [hclosure] at hsome
            cases hsome
  · rw [Code.decode_of_size_le hhalted.finished] at hdecode
    cases hdecode

/-- The rest of a longer run. -/
theorem Steps.rest {k n : Nat} (h₁ : Steps k m m₁) (h₂ : Steps (k + n) m m₂) : Steps n m₁ m₂ := by
  induction h₁ with
  | refl => rwa [Nat.zero_add] at h₂
  | head hstep _ ih =>
      rw [Nat.add_right_comm] at h₂
      cases h₂ with
      | head hstep₂ hrest =>
          rw [hstep] at hstep₂
          cases hstep₂
          exact ih hrest

/-- A run does not come to a store in the same global twice. -/
theorem Safe.not_storesGlobal (h : m.Safe) (hdecodes : m.bytecode.code.Decodes is)
    (hnodup : is.stored.Nodup) (hk : m.StoresGlobal k) (hsteps : Steps (n + 1) m m') :
    ¬ m'.StoresGlobal k := by
  intro hk'
  obtain ⟨hm', hb⟩ := h.steps hsteps
  obtain ⟨hcallers, pre, post, his, hip⟩ := h.at_store hdecodes hk
  obtain ⟨hcallers', pre', post', his', hip'⟩ := hm'.at_store (hb ▸ hdecodes) hk'
  have hpre : pre = pre' := by
    rw [his] at hnodup
    exact Instructions.eq_of_stored hnodup (his.symm.trans his')
  -- both stores are one place in the code, which the main program has left behind
  have hlt := h.main_ip_lt hcallers hcallers' hsteps
  rw [hip, hip', hpre] at hlt
  exact Nat.lt_irrefl _ hlt

/-- **One run** comes to a store in each global once at most. -/
theorem Safe.storesGlobal_once {j : Nat} (h : m.Safe) (hdecodes : m.bytecode.code.Decodes is)
    (hnodup : is.stored.Nodup) (hj : Steps j m m₁) (hn : Steps n m m₂) (hk : m₁.StoresGlobal k)
    (hk' : m₂.StoresGlobal k) : j = n := by
  rcases Nat.lt_trichotomy j n with hlt | heq | hlt
  · obtain ⟨d, rfl⟩ := Nat.exists_eq_add_of_lt hlt
    obtain ⟨hm₁, hb⟩ := h.steps hj
    exact absurd hk' (hm₁.not_storesGlobal (hb ▸ hdecodes) hnodup hk (hj.rest hn))
  · exact heq
  · obtain ⟨d, rfl⟩ := Nat.exists_eq_add_of_lt hlt
    obtain ⟨hm₂, hb⟩ := h.steps hn
    exact absurd hk (hm₂.not_storesGlobal (hb ▸ hdecodes) hnodup hk' (hn.rest hj))

/-- Whether the next instruction stores in a global. -/
def storesGlobal? (k : Nat) (m : Machine) : Bool :=
  match decode m.code m.frame.ip with
  | .instruction (.setGlobal j) _ => j == k
  | _ => false

omit [StringHash] in
theorem storesGlobal_of_storesGlobal? (h : m.storesGlobal? k = true) : m.StoresGlobal k := by
  rw [storesGlobal?] at h
  split at h
  · next j next hdecode => exact ⟨next, by rw [hdecode, eq_of_beq h]⟩
  · cases h

end Machine

/-! ## Sessions -/

namespace Session

variable {s s' : Session} {line : Program} {lines : List Program} {m : Machine} {k : Nat}

section

variable [StringHash]

/-- What a line comes to does not matter to the compiler. -/
theorem run_compiler (s : Session) (line : Program) :
    (s.run line).2.compiler = (s.compiler.compile line).2 := by
  have hload := congrArg (·.compiler) (s.load_snd line)
  rcases hcase : s.load line with ⟨result, s'⟩
  rw [hcase] at hload
  cases result with
  | error e =>
      rw [run_of_load_error hcase]
      exact hload
  | ok m =>
      rw [run_of_load_ok hcase, keep_compiler]
      exact hload

/-- The session that some lines lead to. -/
def after (lines : List Program) : Session := lines.foldl (fun s line => (s.run line).2) {}

theorem after_concat (lines : List Program) (line : Program) :
    after (lines ++ [line]) = ((after lines).run line).2 := by
  rw [after, List.foldl_append]
  rfl

theorem after_reachable (lines : List Program) : (after lines).Reachable := by
  induction lines using List.reverseRecOn with
  | nil => exact .start
  | append_singleton lines line ih =>
      rw [after_concat]
      exact .run line ih

/-- How many globals a session has defined. -/
def numGlobalsDefined (s : Session) : Nat := s.compiler.symbols.main.numDefinitions

/-- Later lines only add globals. -/
theorem numGlobalsDefined_le (lines rest : List Program) :
    (after lines).numGlobalsDefined ≤ (after (lines ++ rest)).numGlobalsDefined := by
  induction rest using List.reverseRecOn with
  | nil => rw [List.append_nil]
  | append_singleton rest line ih =>
      rw [← List.append_assoc, after_concat]
      refine Nat.le_trans ih ?_
      rw [numGlobalsDefined, numGlobalsDefined, run_compiler]
      exact (after_reachable (lines ++ rest)).safe.compiler.numDefinitions_le line

/-- The run of the line `a` of a session comes, after `n` steps, to a store in the global `k`. -/
def StoresAt (lines : List Program) (a n k : Nat) : Prop :=
  ∃ line m s' m₁, lines[a]? = some line ∧ (after (lines.take a)).load line = (.ok m, s') ∧
    Machine.Steps n m m₁ ∧ m₁.StoresGlobal k

/-- Whether the run of a line comes to a store after so many steps. -/
def storesAt? (lines : List Program) (a n k : Nat) : Bool :=
  match lines[a]? with
  | none => false
  | some line => ((after (lines.take a)).load line).1.toOption.any fun m =>
      (m.behind? n).any (·.storesGlobal? k)

theorem storesAt_of_storesAt? {a n : Nat} (h : storesAt? lines a n k = true) : StoresAt lines a n k := by
  rw [storesAt?] at h
  split at h
  · cases h
  · next line hline =>
      rcases hload : (after (lines.take a)).load line with ⟨result, s'⟩
      rw [hload] at h
      cases result with
      | error e => cases h
      | ok m =>
          have hany : (m.behind? n).any (·.storesGlobal? k) = true := h
          cases hbehind : m.behind? n with
          | none =>
              rw [hbehind] at hany
              cases hany
          | some m₁ =>
              rw [hbehind] at hany
              exact ⟨line, m, s', m₁, hline, hload, Machine.steps_of_behind? hbehind,
                Machine.storesGlobal_of_storesGlobal? hany⟩

/-- A line stores only in the globals that it adds to those of the lines before it. -/
theorem StoresAt.bounds {a n : Nat} (h : StoresAt lines a n k) :
    (after (lines.take a)).numGlobalsDefined ≤ k ∧ k < (after (lines.take (a + 1))).numGlobalsDefined := by
  obtain ⟨line, m, s', m₁, hline, hload, hsteps, hk⟩ := h
  have htake : lines.take (a + 1) = lines.take a ++ [line] := by
    rw [List.take_add_one, hline, Option.toList_some]
  have hsafe := (after_reachable (lines.take a)).safe
  rw [htake, after_concat, numGlobalsDefined, numGlobalsDefined, run_of_load_ok hload, keep_compiler]
  exact hsafe.storesGlobal hload ⟨n, hsteps⟩ hk

/-- Different lines store in different globals. -/
theorem StoresAt.not_lt {a b n j : Nat} (h : StoresAt lines a n k) (h' : StoresAt lines b j k) :
    ¬ a < b := by
  intro hlt
  have hsplit : lines.take b = lines.take (a + 1) ++ (lines.take b).drop (a + 1) := by
    have hfirst : (lines.take b).take (a + 1) = lines.take (a + 1) := by
      rw [List.take_take, Nat.min_eq_left hlt]
    rw [← hfirst, List.take_append_drop]
  -- what the line `a` has added is defined already in front of the line `b`
  have hle := numGlobalsDefined_le (lines.take (a + 1)) ((lines.take b).drop (a + 1))
  rw [← hsplit] at hle
  exact Nat.lt_irrefl k (Nat.lt_of_lt_of_le h.bounds.2 (Nat.le_trans hle h'.bounds.1))

/-- A line stores in each global once at most. -/
theorem StoresAt.step_unique {a n j : Nat} (h : StoresAt lines a n k) (h' : StoresAt lines a j k) :
    n = j := by
  obtain ⟨line, m, s', m₁, hline, hload, hsteps, hk⟩ := h
  obtain ⟨line', m', s'', m₂, hline', hload', hsteps', hk'⟩ := h'
  rw [hline] at hline'
  cases hline'
  rw [hload] at hload'
  cases hload'
  have hsafe := (after_reachable (lines.take a)).safe
  obtain ⟨hm, -⟩ := hsafe.machine hload
  obtain ⟨b, c', hcompile, rfl, rfl⟩ := load_eq_ok hload
  obtain ⟨is, hemits, hfits, rfl⟩ := Compiler.compile_emits hcompile
  exact hm.storesGlobal_once (Code.decodes_toCode hfits)
    (hemits.numbers hsafe.compiler.sound.symbols).nodup hsteps hsteps' hk hk'

/-- **Globals are written once**: over all the lines of a session, whether they can be compiled and however
their runs end, no two stores name the same global. No function stores in a global, and a line changes none
of those that were defined before it. -/
theorem globals_once (lines : List Program) :
    (∀ a b n j k, StoresAt lines a n k → StoresAt lines b j k → a = b ∧ n = j) ∧
      (∀ f, .compiledFunction f ∈ (after lines).compiler.constants.toList →
        ∃ is, Code.Decodes f.code is ∧ ∀ k, .setGlobal k ∉ is) ∧
      ∀ line k, k < (after lines).numGlobalsDefined →
        ((after lines).run line).2.globals[k]? = (after lines).globals[k]? := by
  have hsafe := (after_reachable lines).safe
  refine ⟨fun a b n j k h h' => ?_, fun f hf => ?_, fun line k hk => ?_⟩
  · have hab : a = b := Nat.le_antisymm (Nat.le_of_not_lt (h'.not_lt h)) (Nat.le_of_not_lt (h.not_lt h'))
    subst hab
    exact ⟨rfl, h.step_unique h'⟩
  · exact (hsafe.compiler.sound.pool f hf).decodes
  · rcases hload : (after lines).load line with ⟨result, s'⟩
    cases result with
    | error e => rw [run_of_load_error hload, load_eq_error hload]
    | ok m =>
        refine hsafe.getElem?_globals_run hload fun m₁ hreach hstores => ?_
        exact Nat.not_lt.mpr (hsafe.storesGlobal hload hreach hstores).1 hk

end

/-- A definition, one that fails, and one that takes its place. -/
def threeLines : List Program :=
  [[.let "x" (.integer 1)], [.let "x" (.binary (.identifier "x") .slash (.integer 0))],
    [.let "x" (.integer 2), .expr (.identifier "x")]]

theorem threeLines_globals_once : StoresAt threeLines 0 1 0 ∧ StoresAt threeLines 2 1 2 ∧
    ∀ a n, StoresAt threeLines a n 2 → a = 2 ∧ n = 1 := by
  have hfirst : StoresAt threeLines 0 1 0 := storesAt_of_storesAt? (by decide +kernel)
  have hlast : StoresAt threeLines 2 1 2 := storesAt_of_storesAt? (by decide +kernel)
  exact ⟨hfirst, hlast, fun a n h => (globals_once threeLines).1 a 2 n 1 2 h hlast⟩

end Session

end ScriptLang
