import ScriptLang.Proofs.Refinement.Calls
import ScriptLang.Proofs.Refinement.Operands

/-!
# Parts in another order

The machine executes the right operand of `<` before the left one. An operand binds nothing, so that each
finds the names as it would find them in the order of the evaluator: `Evaluates.extends` says that its
evaluation leaves all scopes alone that are there, and opens others. What the machine has stored is
determined by what the names stand for (`Value.Matches.unique`), so nothing has been stored either.

Main statements, for the states that two parts lead to:

* `Agree.later` — the evaluator has executed a part that the machine has not;
* `Agree.ahead` — the machine has executed a part that the evaluator has not;
* `Agree.merge` — both have executed both parts, in different orders.
-/

namespace ScriptLang

open Machine (Moves Works Returns)
open EvalM (enterCall leaveCall)
open Symbols (Knows Adds Found Clean)

/-! ## Values are determined -/

namespace Value

variable {W : World}

mutual

/-- A value of the evaluator corresponds to one value of the machine only. -/
theorem Matches.unique (hW : W.OneToOne) : ∀ {v w w' : Value}, Matches W v w → Matches W v w' → w = w'
  | _, _, _, .null, h' => by cases h'; rfl
  | _, _, _, .integer _, h' => by cases h'; rfl
  | _, _, _, .boolean _, h' => by cases h'; rfl
  | _, _, _, .string _, h' => by cases h'; rfl
  | _, _, _, .array h, .array h' => congrArg Value.array (h.unique hW h')
  | _, _, _, .hash h, .hash h' => congrArg Value.hash (h.unique hW h')
  | _, _, _, .builtin _, h' => by cases h'; rfl
  | _, _, _, @Matches.function _ b h, h' => by
      generalize hv : Value.function b.functionId b.parameters b.body b.scope = v at h'
      cases h' with
      | @function b' hb' =>
          injection hv with hid
          -- the identity of a function says which one it is
          obtain rfl := List.inj_on_of_nodup_map hW.functions h hb' hid
          rfl
      | _ => cases hv

theorem MatchesAll.unique (hW : W.OneToOne) : ∀ {vs ws ws' : List Value}, MatchesAll W vs ws →
    MatchesAll W vs ws' → ws = ws'
  | _, _, _, .nil, .nil => rfl
  | _, _, _, .cons h hs, .cons h' hs' => by rw [h.unique hW h', hs.unique hW hs']

theorem MatchesEntries.unique (hW : W.OneToOne) : ∀ {es fs fs' : List (StoredKey Value × Value)},
    MatchesEntries W es fs → MatchesEntries W es fs' → fs = fs'
  | _, _, _, .nil, .nil => rfl
  | _, _, _, .cons hkey h hs, .cons hkey' h' hs' => by
      rw [hkey.unique hW hkey', h.unique hW h', hs.unique hW hs']

end

end Value

theorem Builtin.OutputMatches.mono {W W' : World} {output out : Output} (h : OutputMatches W output out)
    (hsub : W ⊆ W') : OutputMatches W' output out :=
  h.imp fun _ _ hall => hall.imp fun _ _ hmatch => hmatch.mono hsub

theorem Builtin.OutputMatches.unique {W : World} {output out out' : Output} (hW : W.OneToOne)
    (h : OutputMatches W output out) (h' : OutputMatches W output out') : out = out' := by
  have hunique : Relator.RightUnique (Value.Matches W) := fun _ _ _ hw hw' => hw.unique hW hw'
  exact Array.toList_inj.mp (hunique.forall₂.forall₂ h h')

/-! ## Evaluations that bind nothing -/

/-- All scopes that are there in one state are the same in another. -/
structure Evaluator.Extends (st st' : Evaluator) : Prop where
  size : st.scopes.size ≤ st'.scopes.size
  same : ∀ l < st.scopes.size, st'.scopes[l]? = st.scopes[l]?
  depth : st'.depth = st.depth

namespace Evaluator.Extends

variable {st st₁ st₂ : Evaluator} {l : Nat} {ls : List Nat} {x : String}

theorem trans (h₁ : st.Extends st₁) (h₂ : st₁.Extends st₂) : st.Extends st₂ where
  size := Nat.le_trans h₁.size h₂.size
  same := fun l hl => (h₂.same l (Nat.lt_of_lt_of_le hl h₁.size)).trans (h₁.same l hl)
  depth := h₂.depth.trans h₁.depth

theorem bound?_eq (h : st.Extends st₁) (hl : l < st.scopes.size) :
    bound? st₁.scopes l x = bound? st.scopes l x := by
  rw [bound?, bound?, h.same l hl]

theorem chained (h : st.Extends st₁) (hchained : Chained st.scopes l ls) : Chained st₁.scopes l ls :=
  hchained.congr fun o ho => by rw [h.same o (hchained.mem_lt_size ho)]

theorem valueAt_eq (h : st.Extends st₁) (hchained : Chained st.scopes l ls) :
    valueAt st₁.scopes (l :: ls) x = valueAt st.scopes (l :: ls) x :=
  valueAt_congr fun _ ho => h.bound?_eq (hchained.mem_lt_size ho)

end Evaluator.Extends

section

variable [StringHash] {P : Part} {scope : Nat} {st st₁ : Evaluator} {o : Outcome}

/-- A part that binds nothing leaves its own scope alone. -/
theorem Evaluates.kept (h : Evaluates P scope st o st₁) (hscope : scope < st.scopes.size)
    (hnothing : P.binders false = []) : st₁.scopes[scope]? = st.scopes[scope]? := by
  induction h with
  | operation hes _ _ ih | operation_return hes _ ih =>
      exact ih hscope ((Expr.binders_operands hes false).symm.trans hnothing)
  | less h₁ _ ih₁ ih₂ | less_right h₁ _ ih₁ ih₂ | exprs_cons h₁ _ ih₁ ih₂ | exprs_tail h₁ _ ih₁ ih₂ =>
      obtain ⟨hleft, hright⟩ := List.append_eq_nil_iff.mp hnothing
      have hscope₁ := Nat.lt_of_lt_of_le hscope (h₁.frame hscope).size
      exact (ih₂ hscope₁ hright).trans (ih₁ hscope hleft)
  | less_left _ ih | exprs_head _ ih | stmts_return _ ih | branch_value _ ih | body_value _ ih
  | body_value_return _ ih | branch_return _ _ ih | body_return _ _ ih | stmts_last _ ih =>
      exact ih hscope (List.append_eq_nil_iff.mp hnothing).1
  | call_builtin _ _ ih => exact ih hscope hnothing
  | @call_function _ st st₁ st₂ _ _ _ home parameters _ vs _ h₁ _ _ hbody ih₁ _ =>
      have hscope₁ := Nat.lt_of_lt_of_le hscope (h₁.frame hscope).size
      have hframe := hbody.frame (Evaluator.Frame.lt_size_enterCall ..)
      exact (hframe.leaveCall_getElem? hscope₁).1.trans (ih₁ hscope hnothing)
  | if_true h₁ _ _ ih₁ ih₂ =>
      rw [Part.binders, Expr.binders_if] at hnothing
      obtain ⟨hcondition, hbranches⟩ := List.append_eq_nil_iff.mp hnothing
      have hscope₁ := Nat.lt_of_lt_of_le hscope (h₁.frame hscope).size
      exact (ih₂ hscope₁ (List.append_eq_nil_iff.mp hbranches).1).trans (ih₁ hscope hcondition)
  | if_false h₁ _ _ ih₁ ih₂ =>
      rw [Part.binders, Expr.binders_if] at hnothing
      obtain ⟨hcondition, hbranches⟩ := List.append_eq_nil_iff.mp hnothing
      have hscope₁ := Nat.lt_of_lt_of_le hscope (h₁.frame hscope).size
      exact (ih₂ hscope₁ (List.append_eq_nil_iff.mp hbranches).2).trans (ih₁ hscope hcondition)
  | if_return _ ih =>
      rw [Part.binders, Expr.binders_if] at hnothing
      exact ih hscope (List.append_eq_nil_iff.mp hnothing).1
  | «let» => cases (List.append_eq_nil_iff.mp hnothing).2
  | let_return => cases (List.append_eq_nil_iff.mp hnothing).2
  | return_some _ ih | return_return _ ih | expr _ ih => exact ih hscope hnothing
  | stmts_cons _ h₁ _ ih₁ ih₂ | branch_cons _ h₁ _ ih₁ ih₂ | body_cons _ h₁ _ ih₁ ih₂ =>
      obtain ⟨hleft, hright⟩ := List.append_eq_nil_iff.mp hnothing
      have hscope₁ := Nat.lt_of_lt_of_le hscope (h₁.frame hscope).size
      exact (ih₂ hscope₁ hright).trans (ih₁ hscope hleft)
  | _ => rfl

/-- **An evaluation that binds nothing** leaves all scopes alone. -/
theorem Evaluates.extends (h : Evaluates P scope st o st₁) (hscope : scope < st.scopes.size)
    (hnothing : P.binders false = []) : st.Extends st₁ where
  size := (h.frame hscope).size
  same := by
    intro l hl
    by_cases heq : l = scope
    · rw [heq]
      exact h.kept hscope hnothing
    · exact (h.frame hscope).others l hl heq
  depth := (h.frame hscope).depth

end

/-! ## States -/

section

variable {p : Plan} {W W₁ W₂ : World} {agenda agenda₁ agenda₂ : Agenda} {running : Option Birth}
  {c c₁ c₂ : Compiler} {scope : Nat} {outer : List Nat} {st st₁ st₂ : Evaluator} {m m₁ m₂ : Machine}
  {height₁ height₂ ip₁ ip₂ : Nat} {vs₁ vs₂ : List Value}

/-- The evaluator goes on, and nothing is bound. -/
theorem Agree.later (hagree : Agree p W agenda running c scope outer st m) (hext : st.Extends st₁)
    (houtput : p.ordered = true → st₁.output = st.output) :
    Agree p W agenda running c scope outer st₁ m := by
  have hchained := hagree.active.chained
  have hscope := hchained.lt_size
  refine ⟨⟨hagree.births.compiled, ?_, hagree.births.oneToOne, ?_⟩, ⟨?_, ?_, hagree.values.closures,
    hagree.values.constants⟩, ⟨hagree.active.sound, hext.chained hchained, ?_, ?_, hagree.active.role,
    hagree.active.room, hagree.active.top_le, ?_⟩, ?_, ?_⟩
  · intro b hb
    have halive := hagree.births.alive b hb
    exact halive.transfer (fun l hl => hext.same l (halive.lt_size hl)) fun _ _ _ h => h
  · exact fun l x hx => Nat.lt_of_lt_of_le (hagree.births.pending_lt l x hx) hext.size
  · intro x v hx
    rw [hext.bound?_eq (Nat.zero_lt_of_lt hscope)] at hx
    exact hagree.values.globals x v hx
  · intro hordered
    rw [houtput hordered]
    exact hagree.values.output hordered
  · intro x v hx
    rw [hext.bound?_eq hscope] at hx
    exact hagree.active.locals x v hx
  · intro x symbol hget hplace l hl
    rw [hext.bound?_eq (hchained.mem_lt_size (List.mem_cons_of_mem _ hl))]
    exact hagree.active.foreign x symbol hget hplace l hl
  · exact hagree.active.depth.trans hext.depth.symm
  · exact hagree.tidy.congr fun x => hext.bound?_eq hscope
  · exact fun hordered x hx => (hagree.known hordered x hx).congr (hext.valueAt_eq hchained)

variable [StringHash]

/-- **The machine is ahead**: it has executed a part that binds nothing, and still agrees with the
evaluator in front of the part. -/
theorem Agree.ahead (hagree : Agree p W agenda running c₁ scope outer st m)
    (hcont : Continues p W W₁ agenda₁ running c₁ scope outer st₁ st₂ m m₁ height₁ ip₁ vs₁)
    (hext : st.Extends st₂) (houtput : p.ordered = true → st₂.output = st.output) :
    Agree p W agenda running c₁ scope outer st m₁ := by
  have hscope := hagree.active.chained.lt_size
  have hone := hcont.agree.births.oneToOne
  have hsub := hcont.grown.subset
  have hactive := hcont.agree.active
  refine ⟨hagree.births, ⟨?_, ?_, ?_, hcont.agree.values.constants⟩, ⟨hagree.active.sound,
    hagree.active.chained, ?_, hagree.active.foreign, ?_, hactive.room, hactive.top_le, ?_⟩,
    hagree.tidy, hagree.known⟩
  · intro x v hx
    obtain ⟨symbol, hget, hplace, hmatch⟩ := hagree.values.globals x v hx
    rw [← hext.bound?_eq (Nat.zero_lt_of_lt hscope)] at hx
    obtain ⟨symbol', hget', -, hmatch'⟩ := hcont.agree.values.globals x v hx
    rw [hget] at hget'
    cases hget'
    have hsame := (hmatch.mono hsub).unique hone hmatch'
    exact ⟨symbol, hget, hplace, hsame ▸ hmatch⟩
  · intro hordered
    have hold := hagree.values.output hordered
    have hnew := hcont.agree.values.output hordered
    rw [houtput hordered] at hnew
    rwa [← (hold.mono hsub).unique hone hnew]
  · exact fun b hb => Nat.lt_of_lt_of_le (hagree.values.closures b hb) hcont.grown.le.2
  · intro x v hx
    obtain ⟨symbol, hget, hplace, hmatch⟩ := hagree.active.locals x v hx
    rw [← hext.bound?_eq hscope] at hx
    obtain ⟨symbol', hget', -, hmatch'⟩ := hactive.locals x v hx
    rw [hget] at hget'
    cases hget'
    have hsame := (hmatch.mono hsub).unique hone hmatch'
    exact ⟨symbol, hget, hplace, hsame ▸ hmatch⟩
  · have hmoves := hcont.moves
    cases hagree.active.role with
    | main hn hscope houter hclosure hbase hcallers =>
        exact .main hn hscope houter (hmoves.closure?_eq.trans hclosure) (hmoves.base_eq.trans hbase)
          (hmoves.callers.trans hcallers)
    | call hn hscope houter hclosure hbase hcallers hmem hself =>
        refine .call hn hscope houter (hmoves.closure?_eq.trans hclosure) ?_ ?_ hmem hself
        · rw [hmoves.base_eq]
          exact hbase
        · rw [hmoves.callers]
          exact hcallers
  · exact hactive.depth.trans hext.depth

/-- **Two parts in different orders**: the evaluator has gone from `st` over `st₁` to `st₂`, the machine has
executed the second part first. -/
theorem Agree.merge {new : World}
    (h₁ : Continues p W W₁ agenda₁ running c₁ scope outer st₁ st₂ m m₁ height₁ ip₁ vs₁)
    (h₂ : Continues p W (new ++ W) agenda₂ running c₂ scope outer st st₁ m₁ m₂ height₂ ip₂ vs₂)
    (hext : st₁.Extends st₂) (houtput : p.ordered = true → st₂.output = st₁.output)
    (hagenda : ∀ l x, agenda₂ l x → agenda₁ l x) :
    Agree p (new ++ W₁) agenda₂ running c₂ scope outer st₂ m₂ := by
  have hlater := h₂.agree.later hext houtput
  have hold : W₁ ⊆ new ++ W₁ := List.subset_append_right _ _
  have hsub : new ++ W ⊆ new ++ W₁ :=
    List.append_subset.mpr ⟨List.subset_append_left _ _, fun b hb => hold (h₁.grown.subset hb)⟩
  obtain ⟨hfunctions, hclosures⟩ := hlater.births.oneToOne
  obtain ⟨hfunctions₁, hclosures₁⟩ := h₁.agree.births.oneToOne
  rw [List.map_append] at hfunctions hclosures
  obtain ⟨new', heq, -, -, hnew⟩ := h₂.grown
  obtain rfl := List.append_cancel_right heq
  refine ⟨⟨?_, ?_, ⟨?_, ?_⟩, hlater.births.pending_lt⟩, ⟨?_, ?_, ?_, hlater.values.constants⟩,
    hlater.active.mono hsub, hlater.tidy, hlater.known⟩
  · intro b hb
    rcases List.mem_append.mp hb with hb | hb
    · exact hlater.births.compiled b (List.mem_append_left _ hb)
    · exact h₁.agree.births.compiled b hb
  · intro b hb
    rcases List.mem_append.mp hb with hb | hb
    · exact (hlater.births.alive b (List.mem_append_left _ hb)).mono hsub
    · exact ((h₁.agree.births.alive b hb).anti hagenda).mono hold
  · rw [List.map_append]
    refine List.nodup_append.mpr ⟨(List.nodup_append.mp hfunctions).1, hfunctions₁, ?_⟩
    rintro k hk k' hk' rfl
    obtain ⟨b, hb, rfl⟩ := List.mem_map.mp hk
    obtain ⟨b', hb', heq⟩ := List.mem_map.mp hk'
    have hid := hnew b hb
    rcases h₁.grown.made b' hb' with hbefore | hmade
    · exact (List.nodup_append.mp hfunctions).2.2 _ hk _ (List.mem_map.mpr ⟨b', hbefore, rfl⟩) heq.symm
    · omega
  · rw [List.map_append]
    refine List.nodup_append.mpr ⟨(List.nodup_append.mp hclosures).1, hclosures₁, ?_⟩
    rintro k hk k' hk' rfl
    obtain ⟨b, hb, rfl⟩ := List.mem_map.mp hk
    obtain ⟨b', hb', heq⟩ := List.mem_map.mp hk'
    have hid := hnew b hb
    have hlt := h₁.agree.values.closures b' hb'
    omega
  · intro x v hx
    obtain ⟨symbol, hget, hplace, hmatch⟩ := hlater.values.globals x v hx
    exact ⟨symbol, hget, hplace, hmatch.mono hsub⟩
  · exact fun hordered => (hlater.values.output hordered).mono hsub
  · intro b hb
    rcases List.mem_append.mp hb with hb | hb
    · exact hlater.values.closures b (List.mem_append_left _ hb)
    · exact Nat.lt_of_lt_of_le (h₁.agree.values.closures b hb) h₂.grown.le.2

end

end ScriptLang
