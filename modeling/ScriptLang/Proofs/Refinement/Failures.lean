import ScriptLang.Proofs.Evaluator.Failures
import ScriptLang.Proofs.Machine.Confinement
import ScriptLang.Proofs.Refinement.Mismatches
import ScriptLang.Proofs.Refinement.Programs
import ScriptLang.Value.SipHash

/-!
# Failures of both engines

Where the evaluation of a tame program fails, the machine fails as well, though perhaps earlier or later: it
may be ahead of the evaluator with the right operand of `<`, and it looks at the keys of a hash only when all
of them are there. What it executes out of turn is passed blindly: the machine gets to the end of that code,
or it fails (`Task.passes`). What has been evaluated on the way to the place of a failure is simulated
(`Evaluates.simulates`). `Fails.breaks` puts this together by induction on the failure.

Main statement: `Program.Tame.failures_agree`, for whole programs.
-/

namespace ScriptLang

open Machine (Works)
open EvalM (enterCall lookup?)
open Symbols (Knows)

/-! ## Code that is passed -/

/-- The code of a part that neither binds names nor returns. -/
theorem Emits.keeps {P : Part} {c c' : Compiler} {offset : Nat} {is : Instructions}
    (h : Emits P c offset is c') (hbody : P.isBody = false) (hnothing : P.binders false = [])
    (hreturns : P.returns = false) : ∀ i ∈ is, i.keeps = true := by
  have hload : ∀ symbol : Symbol, symbol.loadInstruction.keeps = true := fun symbol =>
    Instruction.keeps_of_pushes symbol.loadInstruction_pops.2.1
  induction h with
  | identifier => exact forall_mem_singleton (hload _)
  | constant | branch_nil => exact forall_mem_singleton rfl
  | @boolean c offset value => exact forall_mem_singleton (by cases value <;> rfl)
  | operation hes hi _ ih =>
      refine forall_mem_append ?_ (forall_mem_singleton ?_)
      · exact ih rfl ((Expr.binders_operands hes false).symm.trans hnothing)
          ((Expr.returns_operands hes).symm.trans hreturns)
      · exact Instruction.keeps_of_pushes (Expr.instruction?_pops hi hes).2.1
  | less _ ih =>
      obtain ⟨hleft, hright⟩ := List.append_eq_nil_iff.mp hnothing
      obtain ⟨hleft', hright'⟩ := Bool.or_eq_false_iff.mp hreturns
      refine forall_mem_append (ih rfl ?_ ?_) (forall_mem_singleton rfl)
      · simp only [Part.binders, Expr.bindersAll, hleft, hright, List.append_nil]
      · simp only [Part.returns, Expr.anyReturns, hleft', hright', Bool.or_false]
  | «if» _ _ _ _ ih₁ ih₂ ih₃ =>
      rw [Part.binders, Expr.binders_if] at hnothing
      rw [Part.returns, Expr.returns_if] at hreturns
      obtain ⟨hcondition, hbranches⟩ := List.append_eq_nil_iff.mp hnothing
      obtain ⟨hconsequence, halternative⟩ := List.append_eq_nil_iff.mp hbranches
      obtain ⟨hcondition', hbranches'⟩ := Bool.or_eq_false_iff.mp hreturns
      obtain ⟨hconsequence', halternative'⟩ := Bool.or_eq_false_iff.mp hbranches'
      have hjump : ∀ {i : Instruction} {is : Instructions}, i.keeps = true →
          (∀ j ∈ is, j.keeps = true) → ∀ j ∈ i :: is, j.keeps = true := fun hi his =>
        List.forall_mem_cons.mpr ⟨hi, his⟩
      exact forall_mem_append (ih₁ rfl hcondition hcondition') (hjump rfl
        (forall_mem_append (ih₂ rfl hconsequence hconsequence')
          (hjump rfl (ih₃ rfl halternative halternative'))))
  | function =>
      refine forall_mem_append ?_ (forall_mem_singleton rfl)
      intro i hi
      obtain ⟨symbol, -, rfl⟩ := List.mem_map.mp hi
      exact hload symbol
  | exprs_nil | stmts_nil => exact List.forall_mem_nil _
  | exprs_cons _ _ ih₁ ih₂ | stmts_cons _ _ ih₁ ih₂ | branch_cons _ _ _ ih₁ ih₂ =>
      obtain ⟨hhead, htail⟩ := List.append_eq_nil_iff.mp hnothing
      obtain ⟨hhead', htail'⟩ := Bool.or_eq_false_iff.mp hreturns
      exact forall_mem_append (ih₁ rfl hhead hhead') (ih₂ rfl htail htail')
  | «let» => cases (List.append_eq_nil_iff.mp hnothing).2
  | return_none | return_some => cases hreturns
  | expr _ ih => exact forall_mem_append (ih rfl hnothing hreturns) (forall_mem_singleton rfl)
  | branch_value _ ih =>
      exact ih rfl (List.append_eq_nil_iff.mp hnothing).1 (Bool.or_eq_false_iff.mp hreturns).1
  | body_nil | body_value | body_return | body_cons => cases hbody

/-! ## Expressions in front of others -/

namespace Expr

/-- Expressions in two groups bind the names of both. -/
theorem bindersAll_append (deep : Bool) (es rest : List Expr) :
    bindersAll deep (es ++ rest) = bindersAll deep es ++ bindersAll deep rest := by
  induction es with
  | nil => rfl
  | cons e es ih => rw [List.cons_append, bindersAll, bindersAll, ih, List.append_assoc]

theorem arePlain_append (strict : Bool) (es rest : List Expr) :
    arePlain strict (es ++ rest) = (arePlain strict es && arePlain strict rest) := by
  induction es with
  | nil => rfl
  | cons e es ih => rw [List.cons_append, arePlain, arePlain, ih, Bool.and_assoc]

theorem areTame_append (es rest : List Expr) : areTame (es ++ rest) = (areTame es && areTame rest) := by
  induction es with
  | nil => rfl
  | cons e es ih => rw [List.cons_append, areTame, areTame, ih, Bool.and_assoc]

theorem areNamed_append (es rest : List Expr) : areNamed (es ++ rest) = (areNamed es && areNamed rest) := by
  induction es with
  | nil => rfl
  | cons e es ih => rw [List.cons_append, areNamed, areNamed, ih, Bool.and_assoc]

theorem anyReturns_append (es rest : List Expr) :
    anyReturns (es ++ rest) = (anyReturns es || anyReturns rest) := by
  induction es with
  | nil => rfl
  | cons e es ih => rw [List.cons_append, anyReturns, anyReturns, ih, Bool.or_assoc]

end Expr

/-- Their code is that of the first group and that of the second. -/
theorem Emits.of_append {es rest : List Expr} {c c' : Compiler} {offset : Nat} {is : Instructions}
    (h : Emits (.exprs (es ++ rest)) c offset is c') :
    ∃ c₁ is₁ is₂, is = is₁ ++ is₂ ∧ Emits (.exprs es) c offset is₁ c₁ ∧
      Emits (.exprs rest) c₁ (offset + Instructions.size is₁) is₂ c' := by
  induction es generalizing c offset is with
  | nil => exact ⟨_, [], _, rfl, .exprs_nil, h⟩
  | cons e es ih =>
      obtain ⟨c₁, is₁, is₂, rfl, h₁, h₂⟩ := (Part.sequence_exprs e (es ++ rest)).emits h
      obtain ⟨c₂, is₂, is₃, rfl, h₂, h₃⟩ := ih h₂
      rw [Nat.add_assoc, ← Instructions.size_append] at h₃
      exact ⟨c₂, is₁ ++ is₂, is₃, (List.append_assoc _ _ _).symm, .exprs_cons h₁ h₂, h₃⟩

theorem Part.sequence_append (es rest : List Expr) :
    Sequence (.exprs (es ++ rest)) (.exprs es) (.exprs rest) where
  binders := fun deep => Expr.bindersAll_append deep es rest
  allowed := fun _ => @Part.isAllowed_split (.exprs (es ++ rest)) (.exprs es) (.exprs rest)
    (Expr.arePlain_append false es rest) (Expr.areTame_append es rest) _
  named := fun h => Bool.and_eq_true_iff.mp ((Expr.areNamed_append es rest).symm.trans h)
  emits := Emits.of_append

/-- The keys and values of a tame hash literal neither bind names nor return. -/
theorem Expr.flatten_of_tame {pairs : List (Expr × Expr)} (h : (Expr.hash pairs).isTame = true) :
    bindersAll false (flatten pairs) = [] ∧ anyReturns (flatten pairs) = false := by
  obtain ⟨hreturns, htame⟩ := Bool.and_eq_true_iff.mp h
  rw [anyReturnsPairs_eq, Bool.not_eq_true'] at hreturns
  rw [areTamePairs_eq] at htame
  exact ⟨bindersAll_of_tame _ htame, hreturns⟩

section

variable {p : Plan} {P P₁ P₂ : Part} {W W₁ : World} {agenda : Agenda} {running : Option Birth}
  {c c₁ c' : Compiler} {scope : Nat} {outer : List Nat} {st st₁ st₂ : Evaluator} {m m₁ : Machine}
  {h height ip : Nat} {is : Instructions} {v : Value} {vs : List Value}

section

variable [StringHash]

/-- The code of a part that neither binds names nor returns is passed, whatever the names stand for. -/
theorem Task.passes (t : Task p running scope outer m.code P agenda c m.frame.ip is c') (hsafe : m.Safe)
    (hbody : P.isBody = false) (hnothing : P.binders false = []) (hreturns : P.returns = false) :
    m.Passes m.top (m.frame.ip + Instructions.size is) (m.top + P.height) := by
  obtain ⟨hbalanced, hheight⟩ := t.emits.balanced 0
  have hpasses := hsafe.passes t.holds hbalanced (t.emits.keeps hbody hnothing hreturns) rfl
  rwa [hheight, Nat.zero_add] at hpasses

/-- Code that has been passed has changed nothing that the evaluator knows of. -/
theorem Agree.passed (hagree : Agree p W agenda running c scope outer st m) (hordered : p.ordered = false)
    (hbounded : Bounded p running c) (hworks : Works m.top ip m m₁) (htop : m.top ≤ m₁.top)
    (hle : m₁.top ≤ stackSize) (hidentity : m.nextIdentity ≤ m₁.nextIdentity) :
    Agree p W agenda running c scope outer st m₁ where
  births := hagree.births
  values := by
    refine ⟨?_, ?_, fun b hb => Nat.lt_of_lt_of_le (hagree.values.closures b hb) hidentity, ?_⟩
    · rw [hworks.globals]
      exact hagree.values.globals
    · rw [hordered]
      exact nofun
    · rw [hworks.bytecode]
      exact hagree.values.constants
  active := hagree.active.works hbounded hworks hagree.active.room
    (Nat.le_trans hagree.active.room htop) hle
  tidy := hagree.tidy
  known := hagree.known

theorem Machine.Safe.of_reaches (hsafe : m.Safe) (hreach : m.Reaches m₁) : m₁.Safe :=
  (hreach.elim fun _ hsteps => hsafe.steps hsteps).1

end

/-! ## Failures that both engines have

`Breaks` is to a failure of the evaluator what `Simulates` is to its success: wherever the machine stands at
the same part, in a state that agrees, it fails. There is one lemma for each way to fail. -/

/-- All functions of a world have been made. -/
def World.Made (W : World) (st : Evaluator) : Prop := ∀ b ∈ W, b.functionId < st.functionsMade

theorem World.Made.apart (h : W.Made st) (st₁ : Evaluator) : W.Apart st st₁ := fun b hb => .inl (h b hb)

theorem World.Made.later (h : W.Made st) (hle : st.functionsMade ≤ st₁.functionsMade) : W.Made st₁ :=
  fun b hb => Nat.lt_of_lt_of_le (h b hb) hle

theorem World.Made.grown (h : W.Made st) (hgrown : W.Grown W₁ st st₁ m m₁) : W₁.Made st₁ := by
  intro b hb
  rcases hgrown.made b hb with hold | hnew
  · exact Nat.lt_of_lt_of_le (h b hold) hgrown.le.1
  · exact hnew.2

variable [StringHash]

/-- **The machine fails** in the code of a part. -/
def Breaks (p : Plan) (P : Part) (scope : Nat) (st : Evaluator) : Prop :=
  ∀ ⦃W : World⦄ ⦃agenda : Agenda⦄ ⦃running : Option Birth⦄ ⦃c c' : Compiler⦄ ⦃outer : List Nat⦄
    ⦃is : Instructions⦄ ⦃m : Machine⦄,
    Task p running scope outer m.code P agenda c m.frame.ip is c' → W.Made st →
    Agree p W agenda running c scope outer st m → m.Safe → m.Fails

/-! ### One part behind another -/

theorem Breaks.same (hP : P.Same P₁) (h₁ : Breaks p P₁ scope st) : Breaks p P scope st := by
  intro W agenda running c c' outer is m t hmade hagree hsafe
  exact h₁ (t.inner hP.binders (hP.allowed _) hP.named (hP.emits t.emits) t.holds) hmade hagree hsafe

theorem Breaks.first (hP : P.Sequence P₁ P₂) (h₁ : Breaks p P₁ scope st) : Breaks p P scope st := by
  intro W agenda running c c' outer is m t hmade hagree hsafe
  obtain ⟨c₁, is₁, is₂, rfl, hemits₁, hemits₂⟩ := hP.emits t.emits
  exact h₁ (t.pair hP.toSplits hemits₁ hemits₂).1 hmade hagree hsafe

/-- Behind a part that both engines have executed. -/
theorem Breaks.behind (h₁ : Breaks p P scope st₁)
    (hcont : Continues p W W₁ agenda running c₁ scope outer st st₁ m m₁ height ip vs)
    (t : Task p running scope outer m.code P agenda c₁ ip is c') (hmade : W.Made st) (hsafe : m.Safe) :
    m.Fails :=
  .of_reaches hcont.reaches <|
    h₁ (hcont.task t) (hmade.grown hcont.grown) hcont.agree (hsafe.of_reaches hcont.reaches)

/-- The first part is simulated, and the second one fails. -/
theorem Breaks.second (hP : P.Sequence P₁ P₂) (h₁ : Simulates p P₁ scope st (.values vs) st₁)
    (h₂ : Breaks p P₂ scope st₁) : Breaks p P scope st := by
  intro W agenda running c c' outer is m t hmade hagree hsafe
  obtain ⟨c₁, is₁, is₂, rfl, hemits₁, hemits₂⟩ := hP.emits t.emits
  obtain ⟨t₁, t₂⟩ := t.pair hP.toSplits hemits₁ hemits₂
  rcases h₁ t₁ (hmade.apart st₁) hagree with hover | ⟨W₁, m₁, hcont⟩
  · exact hover.fails
  · exact h₂.behind hcont t₂ hmade hsafe

/-! ### Names -/

/-- Every name that the compiler finds has a value. -/
theorem Breaks.unbound (hordered : p.ordered = false) {name : String}
    (hlookup : lookup? st.scopes name (scope + 1) scope = none) (hbuiltin : Builtin.ofName? name = none) :
    Breaks p (.expr (.identifier name)) scope st := by
  intro W agenda running c c' outer is m t hmade hagree hsafe
  obtain ⟨symbol, symbols, hresolve, -, -⟩ := t.emits.of_identifier
  rw [hagree.active.chained.lookup?_eq (Nat.lt_succ_self _)] at hlookup
  -- the compiler has found the name in its tables, and they know only what is bound already
  rcases hagree.known hordered name (Symbols.knows_of_resolve? hresolve t.sound) with hvalue | hname
  · exact absurd hlookup hvalue
  · exact absurd hbuiltin hname

/-! ### Operations -/

/-- An instruction behind its operands, for which it has no result. -/
theorem Continues.fails {i : Instruction} {e : RuntimeError}
    (hcont : Continues p W W₁ agenda running c₁ scope outer st st₁ m m₁ i.pops ip vs)
    (hholds : m.code.Holds ip (i :: is)) (hresult : i.result? m₁ (m₁.window m.top i.pops) = some (.error e)) :
    m.Fails := by
  rw [← hcont.operands_eq] at hresult
  have htop := hcont.top
  exact (Machine.fails_of_result (hcont.holds hholds) hresult (by omega)).of_reaches hcont.reaches

theorem Breaks.operands {e : Expr} {es : List Expr} (hes : e.operands? = some es)
    (h : Breaks p (.exprs es) scope st) : Breaks p (.expr e) scope st := by
  intro W agenda running c c' outer is m t hmade hagree hsafe
  obtain ⟨js, i, hi, hemits, rfl⟩ := t.emits.of_operation hes
  exact h (t.operands hes hemits) hmade hagree hsafe

/-- The machine fails at the instruction behind the operands. -/
theorem Breaks.behind_operands {e : Expr} {es : List Expr} (hes : e.operands? = some es)
    (h : Simulates p (.exprs es) scope st (.values vs) st₁)
    (hfails : ∀ ⦃i : Instruction⦄ ⦃W W₁ : World⦄ ⦃agenda : Agenda⦄ ⦃running : Option Birth⦄ ⦃c₁ : Compiler⦄
      ⦃outer : List Nat⦄ ⦃m m₁ : Machine⦄ ⦃ip : Nat⦄, e.instruction? = some i →
      Continues p W W₁ agenda running c₁ scope outer st st₁ m m₁ i.pops ip vs → m.code.Holds ip [i] →
      W.Made st → m.Safe → m.Fails) : Breaks p (.expr e) scope st := by
  intro W agenda running c c' outer is m t hmade hagree hsafe
  obtain ⟨js, i, hi, hemits, rfl⟩ := t.emits.of_operation hes
  rcases h (t.operands hes hemits) (hmade.apart st₁) hagree with hover | ⟨W₁, m₁, hcont⟩
  · exact hover.fails
  obtain ⟨hpops, -, -⟩ := Expr.instruction?_pops hi hes
  rw [show (Part.exprs es).height = i.pops from hpops.symm] at hcont
  exact hfails hi hcont t.holds.right hmade hsafe

/-- The operation itself fails on its operands. -/
theorem Breaks.operation {e : Expr} {es : List Expr} (hes : e.operands? = some es)
    (hcall : ∀ callee arguments, e ≠ .call callee arguments)
    (h : Simulates p (.exprs es) scope st (.values vs) st₁) (hlength : vs.length = es.length)
    (hnone : e.combine? vs = none) : Breaks p (.expr e) scope st := by
  refine .behind_operands hes h ?_
  rintro i W W₁ agenda running c₁ outer m m₁ ip hi hcont hholds - -
  obtain ⟨hpops, -, -⟩ := Expr.instruction?_pops hi hes
  have hvalues := hcont.values
  rw [hlength, ← hpops] at hvalues
  obtain ⟨err, herr⟩ := Expr.combine?_mismatch hes hi hcall hnone hvalues hlength m₁
  exact hcont.fails hholds herr

/-! ### Keys -/

/-- Values that are on the stack stay there while code behind them is passed. -/
theorem Continues.passed {is : Instructions}
    (hcont : Continues p W W₁ agenda running c₁ scope outer st st₁ m m₁ height ip vs)
    (t : Task p running scope outer m.code P agenda c₁ ip is c') (hsafe : m.Safe)
    (hheight : vs.length ≤ height) (hbody : P.isBody = false) (hnothing : P.binders false = [])
    (hreturns : P.returns = false) :
    m.Fails ∨ ∃ m₂, m.Reaches m₂ ∧ m₂.code = m.code ∧ m₂.frame.ip = ip + Instructions.size is ∧
      m₂.top = m.top + (height + P.height) ∧
      List.Forall₂ (Value.Matches W₁) vs (m₂.window m.top vs.length) := by
  have htop := hcont.top
  rcases (hcont.task t).passes (hsafe.of_reaches hcont.reaches) hbody hnothing hreturns with
    hfails | ⟨m₂, hworks, htop₂, -⟩
  · exact .inl (hfails.of_reaches hcont.reaches)
  refine .inr ⟨m₂, hcont.reaches.trans hworks.reaches, ?_, ?_, by omega, ?_⟩
  · rw [hworks.moves.code_eq, hcont.code_eq]
  · rw [hworks.moves.ip_eq, hcont.moves.ip_eq]
  · have hwindow : m₂.window m.top vs.length = m₁.window m.top vs.length :=
      Machine.window_congr fun k _ hlt => hworks.kept k (by omega)
    rw [hwindow]
    exact hcont.values

omit [StringHash] in
/-- Every second value is the key of the one behind it. -/
theorem Machine.pair_mem_window (m : Machine) (start : Nat) {a n : Nat} (ha : a % 2 = 0) (hn : a + 2 ≤ n) :
    (m.slot (start + a), m.slot (start + a + 1)) ∈ MachineM.pairUp (m.window start n) := by
  obtain ⟨b, rfl⟩ := Nat.exists_eq_add_of_le hn
  rw [Nat.add_assoc, window_add, window_add]
  exact Value.mem_pairUp (by rwa [length_window])

omit [StringHash] in
/-- Some of the keys and values of a tame hash literal, and the others behind them, which neither bind names
nor return. -/
theorem Task.pairs {code : Code} {offset : Nat} {pairs : List (Expr × Expr)} {es rest : List Expr}
    (t : Task p running scope outer code (.expr (.hash pairs)) agenda c offset is c')
    (hordered : p.ordered = false) (hitems : Expr.flatten pairs = es ++ rest) :
    ∃ c₁ is₁ is₂, Task p running scope outer code (.exprs es) agenda c offset is₁ c₁ ∧
      Task p running scope outer code (.exprs rest) (agenda.done scope (Part.binders false (.exprs es))) c₁
        (offset + Instructions.size is₁) is₂ c' ∧
      code.Holds (offset + Instructions.size is₁ + Instructions.size is₂) [.hash (pairs.length * 2)] ∧
      Expr.bindersAll false rest = [] ∧ Expr.anyReturns rest = false := by
  obtain ⟨js, i, hi, hemits, rfl⟩ := t.emits.of_operation rfl
  cases hi
  have htame := t.allowed
  rw [hordered] at htame
  obtain ⟨hnothing, hreturns⟩ := Expr.flatten_of_tame htame
  rw [hitems, Expr.bindersAll_append] at hnothing
  rw [hitems, Expr.anyReturns_append] at hreturns
  have t₀ := t.operands rfl hemits
  rw [hitems] at t₀
  have hparts := Part.sequence_append es rest
  obtain ⟨c₁, is₁, is₂, rfl, hemits₁, hemits₂⟩ := hparts.emits t₀.emits
  obtain ⟨t₁, t₂⟩ := t₀.pair hparts.toSplits hemits₁ hemits₂
  refine ⟨c₁, is₁, is₂, t₁, t₂, ?_, (List.append_eq_nil_iff.mp hnothing).2, (Bool.or_eq_false_iff.mp hreturns).2⟩
  rw [Nat.add_assoc, ← Instructions.size_append]
  exact t.holds.right

/-- A key that cannot be one is found when all keys and values are there. -/
theorem Breaks.key (hordered : p.ordered = false) {pairs : List (Expr × Expr)} {es rest : List Expr}
    {k : Value} (hitems : Expr.flatten pairs = es ++ rest)
    (h : Simulates p (.exprs es) scope st (.values (vs ++ [k])) st₁)
    (hlength : (vs ++ [k]).length = es.length) (heven : vs.length % 2 = 0) (hk : k.key? = none) :
    Breaks p (.expr (.hash pairs)) scope st := by
  intro W agenda running c c' outer is m t hmade hagree hsafe
  obtain ⟨c₁, is₁, is₂, t₁, t₂, hholds, hnothing, hreturns⟩ := t.pairs hordered hitems
  rcases h t₁ (hmade.apart st₁) hagree with hover | ⟨W₁, m₁, hcont⟩
  · exact hover.fails
  rcases hcont.passed t₂ hsafe (Nat.le_of_eq hlength) rfl hnothing hreturns with
    hfails | ⟨m₂, hreach, hcode, hip, htop, hvalues⟩
  · exact hfails
  rw [← hip, ← hcode] at hholds
  have hcount : vs.length + 1 + rest.length = pairs.length * 2 := by
    rw [← Expr.length_flatten, hitems, List.length_append, ← hlength, List.length_append,
      List.length_singleton]
  have htop₂ : m₂.top = m.top + pairs.length * 2 := by
    rw [htop, ← Expr.length_flatten, hitems, List.length_append]
    rfl
  have hkey : Value.Matches W₁ k (m₂.slot (m.top + vs.length)) := by
    have hrel := Value.MatchesAll.getElem? hvalues vs.length
    rw [List.getElem?_concat_length, Machine.getElem?_window (by simp)] at hrel
    cases hrel with
    | some hmatch => exact hmatch
  -- the number of all items is even, so that behind the key there is a value
  have hpair := m₂.pair_mem_window m.top heven (show vs.length + 2 ≤ pairs.length * 2 by omega)
  obtain ⟨err, herr⟩ := Value.hashResult_eq_error ⟨_, hpair, hkey.key?_eq.symm.trans hk⟩
  have hresult : (Instruction.hash (pairs.length * 2)).result? m₂ (m₂.operands (pairs.length * 2)) =
      some (.error err) := by
    rw [Machine.operands_eq_window, htop₂, Nat.add_sub_cancel]
    exact congrArg some herr
  exact (Machine.fails_of_result hholds hresult (htop₂ ▸ Nat.le_add_left _ _)).of_reaches hreach

/-! ### Comparisons -/

section

variable {left right : Expr} {l r : Value}

/-- Whatever the right operand comes to, which the machine executes first, the left one fails. -/
theorem Breaks.less_left (hordered : p.ordered = false) (h : Breaks p (.expr left) scope st) :
    Breaks p (.expr (.binary left .lessThan right)) scope st := by
  intro W agenda running c c' outer is m t hmade hagree hsafe
  obtain ⟨js, is₁, is₂, c₁, rfl, t'⟩ := t.less
  rcases t'.first.passes hsafe rfl t'.nothing.2 (t'.returns hordered).2 with
    hfails | ⟨m₁, hworks, htop, hidentity⟩
  · exact hfails
  have hsafe₁ := hsafe.of_reaches hworks.reaches
  -- the right operand has stored nothing, so the left one finds all names as before
  have hagree₁ := (t'.agree hagree).passed hordered t'.first.bounded hworks
    (htop ▸ Nat.le_add_right _ _) hsafe₁.top_le hidentity
  have t₂ := t'.second
  rw [← hworks.moves.code_eq, ← hworks.moves.ip_eq] at t₂
  exact .of_reaches hworks.reaches (h t₂ hmade hagree₁ hsafe₁)

/-- The machine comes to the right operand before the left one has been executed. -/
theorem Breaks.less_right (hordered : p.ordered = false)
    (hleft : Evaluates (.expr left) scope st (.values [l]) st₁) (h : Breaks p (.expr right) scope st₁) :
    Breaks p (.expr (.binary left .lessThan right)) scope st := by
  intro W agenda running c c' outer is m t hmade hagree hsafe
  obtain ⟨js, is₁, is₂, c₁, rfl, t'⟩ := t.less
  have hscope := hagree.active.chained.lt_size
  -- the evaluator is ahead by the left operand, which binds nothing
  have hagree₁ := hagree.later (hleft.extends hscope t'.nothing.1) (by rw [hordered]; exact nofun)
  exact h t'.first (hmade.later (hleft.frame hscope).functionsMade) hagree₁ hsafe

/-- The comparison fails. The machine has executed its operands the other way round. -/
theorem Breaks.less (hleft : Evaluates (.expr left) scope st (.values [l]) st₁)
    (hright : Evaluates (.expr right) scope st₁ (.values [r]) st₂)
    (h₁ : Simulates p (.expr left) scope st (.values [l]) st₁)
    (h₂ : Simulates p (.expr right) scope st₁ (.values [r]) st₂)
    (hnone : Operator.lessThan.binaryResult? l r = none) :
    Breaks p (.expr (.binary left .lessThan right)) scope st := by
  intro W agenda running c c' outer is m t hmade hagree hsafe
  obtain ⟨js, is₁, is₂, c₁, rfl, t'⟩ := t.less
  rcases Simulates.less_operands t' hleft hright h₁ h₂ (hmade.apart st₂) hagree with
    hover | ⟨W₁, m₁, hcont⟩
  · exact hover.fails
  have hvalues := hcont.values
  generalize hws : m₁.window m.top [r, l].length = ws at hvalues
  rcases hvalues with _ | ⟨hr, _ | ⟨hl, _ | ⟨_, _⟩⟩⟩
  obtain ⟨err, herr⟩ := Operator.greaterThan_mismatch hr hl (by rintro m n rfl rfl; cases hnone)
  have hresult : Instruction.greaterThan.result? m₁ (m₁.window m.top 2) = some (.error err) :=
    (congrArg _ hws).trans (congrArg some herr)
  exact hcont.fails t.holds.right hresult

end

/-! ### Calls -/

section

variable {callee : Expr} {es : List Expr} {f : Value} {identity home : Nat} {parameters : List String}
  {body : List Stmt}

/-- A call of what is no function. -/
theorem Breaks.call_other (h : Simulates p (.exprs (callee :: es)) scope st (.values (f :: vs)) st₁)
    (hlength : vs.length = es.length) (hfunction : f.kind ≠ .function) (hbuiltin : f.kind ≠ .builtin) :
    Breaks p (.expr (.call callee es)) scope st := by
  refine .behind_operands rfl h ?_
  rintro _ W W₁ agenda running c₁ outer m m₁ ip ⟨⟩ hcont hholds - -
  have hvalues := hcont.values
  rw [List.length_cons, hlength] at hvalues
  generalize hws : m₁.window m.top (es.length + 1) = ws at hvalues
  rcases hvalues with _ | ⟨hf, hargs⟩
  obtain ⟨err, herr⟩ := hf.call_mismatch hfunction hbuiltin
  have hresult : (Instruction.call es.length).result? m₁ (m₁.window m.top (es.length + 1)) =
      some (.error err) := (congrArg _ hws).trans herr
  exact hcont.fails hholds hresult

/-- A call with a wrong number of arguments. -/
theorem Breaks.call_arity (h : Simulates p (.exprs (callee :: es)) scope st
      (.values (.function identity parameters body home :: vs)) st₁)
    (hlength : vs.length = es.length) (harity : vs.length ≠ parameters.length) :
    Breaks p (.expr (.call callee es)) scope st := by
  refine .behind_operands rfl h ?_
  rintro _ W W₁ agenda running c₁ outer m m₁ ip ⟨⟩ hcont hholds - -
  obtain ⟨b, hmem, rfl, rfl, rfl, hcall, -⟩ := Continues.callee hcont hlength.symm
  obtain ⟨hlocals, -⟩ := (hcont.agree.births.compiled b hmem).routine
  have htop : es.length + 1 ≤ m₁.top := hcont.top ▸ Nat.le_add_left _ _
  exact (Machine.fails_of_arity (hcont.holds hholds) htop hcall hlocals (hlength ▸ harity)).of_reaches
    hcont.reaches

/-- A call of a function whose body fails. -/
theorem Breaks.call_body (h : Simulates p (.exprs (callee :: es)) scope st
      (.values (.function identity parameters body home :: vs)) st₁)
    (hlength : vs.length = es.length) (hparameters : vs.length = parameters.length)
    (hdepth : st₁.depth < maxCallDepth)
    (hbody : Breaks p (.body body) st₁.scopes.size (enterCall parameters vs home st₁)) :
    Breaks p (.expr (.call callee es)) scope st := by
  refine .behind_operands rfl h ?_
  rintro _ W W₁ agenda running c₁ outer m m₁ ip ⟨⟩ hcont hholds hmade hsafe
  rcases Continues.enter hcont hlength.symm hparameters hdepth hholds with
    hover | ⟨b, m₂, hmem, rfl, rfl, rfl, hargs, henters⟩
  · exact hover.fails
  have htop : es.length + 1 ≤ m₁.top := hcont.top ▸ Nat.le_add_left _ _
  have hagree := hcont.agree.enter hmem htop hlength.symm hparameters hargs henters
  have hreach := hcont.reaches.trans henters.reaches
  exact .of_reaches hreach <| hbody (hcont.agree.births.task hmem henters) (hmade.grown hcont.grown) hagree
    (hsafe.of_reaches hreach)

end

/-! ### Conditionals -/

section

variable {condition : Expr} {consequence : List Stmt} {alternative : Option (List Stmt)}

theorem Breaks.if_condition (h : Breaks p (.expr condition) scope st) :
    Breaks p (.expr (.if condition consequence alternative)) scope st := by
  intro W agenda running c c' outer is m t hmade hagree hsafe
  obtain ⟨js, ks, ls, c₁, c₂, start, t'⟩ := t.branches
  exact h t'.first hmade hagree hsafe

theorem Breaks.if_true (h₁ : Simulates p (.expr condition) scope st (.values [v]) st₁)
    (hv : v.isTruthy = true) (h₂ : Breaks p (.branch consequence) scope st₁) :
    Breaks p (.expr (.if condition consequence alternative)) scope st := by
  intro W agenda running c c' outer is m t hmade hagree hsafe
  obtain ⟨js, ks, ls, c₁, c₂, start, t'⟩ := t.branches
  rcases h₁ t'.first (hmade.apart st₁) hagree with hover | ⟨W₁, m₁, hcont₁⟩
  · exact hover.fails
  obtain ⟨m₂, hcont₂⟩ := hcont₁.jumpNotTruthy t'.first.bounded hagree.active.room t'.choose
  rw [if_pos hv] at hcont₂
  exact h₂.behind hcont₂ t'.second hmade hsafe

theorem Breaks.if_false (h₁ : Simulates p (.expr condition) scope st (.values [v]) st₁)
    (hv : v.isTruthy = false) (h₂ : Breaks p (.branch (alternative.getD [])) scope st₁) :
    Breaks p (.expr (.if condition consequence alternative)) scope st := by
  intro W agenda running c c' outer is m t hmade hagree hsafe
  obtain ⟨js, ks, ls, c₁, c₂, start, t'⟩ := t.branches
  rcases h₁ t'.first (hmade.apart st₁) hagree with hover | ⟨W₁, m₁, hcont₁⟩
  · exact hover.fails
  obtain ⟨m₂, hcont₂⟩ := hcont₁.jumpNotTruthy t'.first.bounded hagree.active.room t'.choose
  rw [hv, if_neg Bool.false_ne_true] at hcont₂
  have hcont₃ := hcont₂.skip t'.second fun hordered => (t'.nothing hordered).1
  exact h₂.behind hcont₃ t'.third hmade hsafe

end

/-! ### Statements -/

section

variable {name : String} {value : Expr}

/-- The value that is to be bound fails. A function literal does not. -/
theorem Breaks.let (hvalue : ∀ recorded parameters body, value ≠ .function recorded parameters body)
    (h : Breaks p (.expr value) scope st) : Breaks p (.stmt (.let name value)) scope st := by
  intro W agenda running c c' outer is m t hmade hagree hsafe
  obtain ⟨js, c₁, hemits, rfl, rfl⟩ := t.emits.of_let
  obtain ⟨hscoped, -⟩ := t.let_scoped hemits
  have hnamed : value.isNamed none = true := (Expr.isNamed_of_ne_function hvalue _).symm.trans t.named
  exact h ⟨hscoped, hemits, t.holds.left, t.allowed, hnamed⟩ hmade hagree hsafe

theorem Breaks.return (h : Breaks p (.expr value) scope st) :
    Breaks p (.stmt (.return (some value))) scope st := by
  intro W agenda running c c' outer is m t hmade hagree hsafe
  have hemits := t.emits
  cases hemits with
  | return_some hemits =>
      exact h (t.inner (fun _ => rfl) id id hemits t.holds.left) hmade hagree hsafe

theorem Breaks.expr (h : Breaks p (.expr value) scope st) : Breaks p (.stmt (.expr value)) scope st := by
  intro W agenda running c c' outer is m t hmade hagree hsafe
  have hemits := t.emits
  cases hemits with
  | expr hemits => exact h (t.inner (fun _ => rfl) id id hemits t.holds.left) hmade hagree hsafe

end

/-! ## All failures -/

/-- A function literal does not fail. -/
theorem Fails.ne_function {value : Expr} (h : Fails (.expr value) scope st) (name : Option String)
    (parameters : List String) (body : List Stmt) : value ≠ .function name parameters body := by
  rintro rfl
  cases h with
  | operands hes => cases hes
  | operation hes => cases hes

/-- The first statement of a function fails. -/
theorem Breaks.body_head {s : Stmt} {ss : List Stmt} (hs : ss = [] → s.isExpr = false)
    (h : Breaks p (.stmt s) scope st) : Breaks p (.body (s :: ss)) scope st := by
  -- a last `return` has the code of the whole body, any other statement has code of its own
  by_cases hlast : ss = [] ∧ s.returnsValue = true
  · obtain ⟨rfl, hreturns⟩ := hlast
    cases s with
    | «return» value =>
        cases value with
        | some value => exact .same (Part.same_body value) h
        | none => cases hreturns
    | _ => cases hreturns
  · refine .first (Part.sequence_body fun hnil => ⟨hs hnil, ?_⟩) h
    exact Bool.eq_false_iff.mpr fun hreturns => hlast ⟨hnil, hreturns⟩

/-- **Where the evaluation fails, the machine fails.** -/
theorem Fails.breaks (hp : p.Valid) (hordered : p.ordered = false) (h : Fails P scope st)
    (hscope : scope < st.scopes.size) : Breaks p P scope st := by
  -- what stands in front of a failing part has been evaluated, and the scope is still there behind it
  have hlater : ∀ {P : Part} {scope : Nat} {st st₁ : Evaluator} {o : Outcome}, Evaluates P scope st o st₁ →
      scope < st.scopes.size → scope < st₁.scopes.size := fun h hscope =>
    Nat.lt_of_lt_of_le hscope (h.frame hscope).size
  induction h with
  | unbound hlookup hbuiltin => exact .unbound hordered hlookup hbuiltin
  | operands hes _ ih => exact .operands hes (ih hscope)
  | operation hes hcall heval hnone =>
      exact .operation hes hcall (heval.simulates hp hscope) (heval.hasLength rfl) hnone
  | key hitems heval heven hk =>
      exact .key hordered hitems (heval.simulates hp hscope) (heval.hasLength rfl) heven hk
  | less_left _ ih => exact .less_left hordered (ih hscope)
  | less_right hleft _ ih => exact .less_right hordered hleft (ih (hlater hleft hscope))
  | less hleft hright hnone =>
      exact .less hleft hright (hleft.simulates hp hscope) (hright.simulates hp (hlater hleft hscope)) hnone
  | callee heval hfunction hbuiltin =>
      exact .call_other (heval.simulates hp hscope) (Nat.succ.inj (heval.hasLength rfl)) hfunction hbuiltin
  | arity heval harity =>
      exact .call_arity (heval.simulates hp hscope) (Nat.succ.inj (heval.hasLength rfl)) harity
  | body heval hlength hdepth _ ih =>
      exact .call_body (heval.simulates hp hscope) (Nat.succ.inj (heval.hasLength rfl)) hlength hdepth
        (ih (Evaluator.Frame.lt_size_enterCall ..))
  | if_condition _ ih => exact .if_condition (ih hscope)
  | if_true heval hv _ ih => exact .if_true (heval.simulates hp hscope) hv (ih (hlater heval hscope))
  | if_false heval hv _ ih => exact .if_false (heval.simulates hp hscope) hv (ih (hlater heval hscope))
  | exprs_head _ ih => exact .first (Part.sequence_exprs _ _) (ih hscope)
  | exprs_tail heval _ ih =>
      exact .second (Part.sequence_exprs _ _) (heval.simulates hp hscope) (ih (hlater heval hscope))
  | «let» h ih => exact .let h.ne_function (ih hscope)
  | «return» _ ih => exact .return (ih hscope)
  | expr _ ih => exact .expr (ih hscope)
  | stmts_head _ ih => exact .first (Part.sequence_stmts _ _) (ih hscope)
  | stmts_tail heval _ ih =>
      exact .second (Part.sequence_stmts _ _) (heval.simulates hp hscope) (ih (hlater heval hscope))
  | branch_value _ ih => exact .same (Part.same_branch _) (ih hscope)
  | branch_head hs _ ih => exact .first (Part.sequence_branch hs) (ih hscope)
  | branch_tail hs heval _ ih =>
      exact .second (Part.sequence_branch hs) (heval.simulates hp hscope) (ih (hlater heval hscope))
  | body_value _ ih => exact .same (Part.same_body_value _) (.return (ih hscope))
  | body_head hs _ ih => exact .body_head hs (ih hscope)
  | body_tail hs heval _ ih =>
      exact .second (Part.sequence_body hs) (heval.simulates hp hscope) (ih (hlater heval hscope))

end

/-! ## Whole programs -/

/-- Names are unique, none is that of a built-in function, no branch of an `if` binds a name, no `return`
stands in a hash literal or in an operand of `<`, and function literals record the names that a `let` gives
them. -/
structure Program.Tame (program : Program) : Prop where
  unique : (Stmt.bindersAll true program).Nodup
  clean : ∀ x ∈ Stmt.bindersAll true program, Builtin.ofName? x = none
  tame : Stmt.areTame program = true
  named : Stmt.areNamed program = true

theorem Program.Tame.admissible {program : Program} (h : program.Tame) : program.Admissible false :=
  ⟨h.unique, h.clean, h.tame, h.named⟩

/-- What the parser yields records the names of functions. -/
theorem Program.Tame.of_ofTokens {tokens : List Token} {program : Program}
    (hparsed : Program.ofTokens tokens = .ok program) (hunique : (Stmt.bindersAll true program).Nodup)
    (hclean : ∀ x ∈ Stmt.bindersAll true program, Builtin.ofName? x = none)
    (htame : Stmt.areTame program = true) : program.Tame :=
  ⟨hunique, hclean, htame, Program.areNamed_of_ofTokens hparsed⟩

/-- A machine that can fail does, since it does nothing else. -/
theorem Machine.Safe.run_of_fails [StringHash] {m : Machine} (hsafe : m.Safe) (hfresh : m.Fresh) (hfails : m.Fails) :
    ∃ e m', m.run = (.failed e, m') := by
  obtain ⟨m₁, ⟨_, hsteps₁⟩, hstops₁⟩ := hsafe.run_stops hfresh
  obtain ⟨e, m₂, m₃, ⟨_, hsteps₂⟩, hstops₂⟩ := hfails
  obtain ⟨hending, hmachine⟩ := hsteps₁.unique hstops₁ hsteps₂ hstops₂
  exact ⟨e, m₃, Prod.ext hending hmachine⟩

/-- **Failures agree**: if the evaluator has an error for a tame program, and it is neither the limit on the
depth of calls nor a built-in function that reports it, then the machine ends with a runtime error on the
compiled program. -/
theorem Program.Tame.failures_agree [StringHash] {program : Program} {e : EvalError} {st : Evaluator} {b : Bytecode}
    {c' : Compiler} (hprogram : program.Tame) (hcompile : Compiler.initial.compile program = (.ok b, c'))
    (heval : Evaluator.run program {} = (.error e, st)) (hdepth : e ≠ .callDepthExceeded)
    (hbuiltin : ∀ message, e ≠ .builtin message) :
    ∃ err m, Machine.run { bytecode := b } = (.failed err, m) := by
  obtain ⟨hsafe, hfresh⟩ := Compiler.compile_safe hcompile
  obtain ⟨is, hemits, hfits, rfl⟩ := Compiler.compile_emits hcompile
  have hadmissible := hprogram.admissible
  have hfails : Fails (.stmts program) 0 {} := Evaluator.run_fails heval ⟨hdepth, hbuiltin⟩
  have hbreaks := hfails.breaks (hadmissible.valid hemits) rfl Nat.zero_lt_one
  have hagree := Agree.start program c' false (Instructions.toCode is)
  have hmade : World.Made [] {} := fun _ hb => absurd hb List.not_mem_nil
  exact hsafe.run_of_fails hfresh (hbreaks (hadmissible.task hemits hfits) hmade hagree hsafe)

/-- A call in which the evaluator rejects a key before there is a value for it. The machine computes the right
operand of `<`, the key and the value first. -/
def functionKeyProgram : Program :=
  [.expr (.call
    (.function none ["n"]
      [.expr (.binary
        (.index (.hash [(.function none [] [.expr (.identifier "n")],
          .call (.identifier "puts") [.identifier "n"])]) (.identifier "n"))
        .lessThan (.call (.identifier "puts") [.integer 2]))])
    [.integer 1])]

theorem functionKeyProgram_failures_agree : ∃ e st b c', functionKeyProgram.Tame ∧
    Compiler.initial.compile functionKeyProgram = (.ok b, c') ∧
    Evaluator.run functionKeyProgram {} = (.error e, st) ∧ e ≠ .callDepthExceeded ∧
    (∀ message, e ≠ .builtin message) ∧ ∃ err m, Machine.run { bytecode := b } = (.failed err, m) := by
  have hprogram : functionKeyProgram.Tame :=
    ⟨by decide +kernel, by decide +kernel, by decide +kernel, by decide +kernel⟩
  have hok : (Compiler.initial.compile functionKeyProgram).1.isOk = true := by decide +kernel
  obtain ⟨b, c', hcompile⟩ := Compiler.exists_of_isOk hok
  have heval : Evaluator.run functionKeyProgram {} = (.error (.unusableHashKey .function), _) := rfl
  exact ⟨_, _, b, c', hprogram, hcompile, heval, EvalError.noConfusion, fun _ => EvalError.noConfusion,
    hprogram.failures_agree hcompile heval EvalError.noConfusion fun _ => EvalError.noConfusion⟩

end ScriptLang
