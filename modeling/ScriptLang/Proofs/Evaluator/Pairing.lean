import Mathlib.Data.List.Nodup
import ScriptLang.Proofs.Evaluator.Renumbering
import ScriptLang.Proofs.Evaluator.Scopes
import ScriptLang.Proofs.Machine.Values

/-!
# Scopes of two evaluators

A call that makes no function closes the scopes that it opened, and later calls use their numbers again. An
evaluator that keeps all scopes (`Evaluator.evaluateKeeping`) gives its scopes other numbers.

`Pairing` says where each function was made, and which scope of the keeping evaluator stands for a scope of
the other one. `Pairing.States` relates the states of the two: the names of a scope stand for the same values,
but for the numbers of scopes inside. A function that has been made refers to a scope that is still open, since
a scope is closed only by a call during which no function was made; this is what `Pairing.States.leaveCall`
comes down to.
-/

namespace ScriptLang

open EvalM (enterCall callFunction evalBlock fail)

/-! ## An evaluator that keeps all scopes

It differs from the evaluator in one line, the scopes that are left when a call ends. Only that line and the
functions it runs through are repeated here; everything else is shared. -/

namespace EvalM

/-- Leaves a call. The scopes that it opened stay. -/
def leaveCallKeeping (st : Evaluator) : Evaluator := { st with depth := st.depth - 1 }

/-- The value of the body of a function, in the scope of the call. -/
def runBodyKeeping (body : Nat → EvalM Value) (parameters : List String) (arguments : List Value)
    (scope : Nat) : EvalM Value := fun st =>
  match body st.scopes.size (enterCall parameters arguments scope st) with
  | .ok v st => .ok v (leaveCallKeeping st)
  | .error (.return v) st => .ok v (leaveCallKeeping st)
  | .error (.error e) st => .error (.error e) (leaveCallKeeping st)

/-- Calls a function whose calls go at most `n - 1` deep. Only functions of the program differ from what
`callFunction` does. -/
def callKeeping [StringHash] : Nat → Value → List Value → EvalM Value
  | n + 1, .function _ parameters body scope, arguments => do
    if arguments.length ≠ parameters.length then
      fail (.wrongArgumentCount parameters.length arguments.length)
    if maxCallDepth ≤ (← get).depth then
      fail .callDepthExceeded
    runBodyKeeping (fun inner => evalBlock (callKeeping n) inner .null body) parameters arguments scope
  | n, f, arguments => callFunction n f arguments

end EvalM

namespace Evaluator

/-- The value of a program, without ever closing a scope. -/
def evaluateKeeping [StringHash] (program : Program) (st : Evaluator) : Value × Evaluator :=
  match evalBlock (EvalM.callKeeping (maxCallDepth + 1)) 0 .null program st with
  | .ok v st => (v, st)
  | .error (.return v) st => (v, st)
  | .error (.error e) st => (.error e.message, st)

end Evaluator

/-! ## Pairings of scopes

A pairing records for each function, by its identity, the scope that it was made in, and for each open scope
its twin. Both lists are only prolonged while a program is evaluated, except where a call ends and closes
scopes. -/

/-- What a name stands for is part of the bindings. -/
theorem Bindings.mem_of_get? {α : Type} {name : String} {a : α} {bindings : Bindings α}
    (h : bindings.get? name = some a) : ∃ b ∈ bindings, b.2 = a := by
  induction bindings with
  | nil => cases h
  | cons b bindings ih =>
      rw [get?] at h
      by_cases hname : b.1 = name
      · rw [if_pos hname] at h
        exact ⟨b, List.mem_cons_self, Option.some.inj h⟩
      · rw [if_neg hname] at h
        obtain ⟨b', hb', ha⟩ := ih h
        exact ⟨b', List.mem_cons_of_mem _ hb', ha⟩

/-- Every function in a value was made in the scope that it refers to. -/
def Value.MadeIn (homes : List Nat) (v : Value) : Prop :=
  v.ForFunctions fun identity scope => homes[identity]? = some scope

/-- The functions that two evaluators have made, and their scopes. -/
structure Pairing where
  /-- For each identity, the scope in which that function was made. -/
  homes : List Nat
  /-- For each open scope, the scope of the keeping evaluator that stands for it. -/
  twins : List Nat
  home_lt : ∀ l ∈ homes, l < twins.length
  nodup : twins.Nodup

namespace Pairing

/-- How the keeping evaluator numbers the scopes of functions. -/
def move (P : Pairing) (_ : Nat) (l : Nat) : Nat := P.twins.getD l 0

/-- More functions have been made and more scopes are open. -/
structure Grows (P P' : Pairing) : Prop where
  homes : P.homes <+: P'.homes
  twins : P.twins <+: P'.twins

/-- A value of the keeping evaluator stands for one of the other. -/
structure Values (P : Pairing) (v v' : Value) : Prop where
  made : v.MadeIn P.homes
  eq : v' = v.renumber P.move

/-- Values of the keeping evaluator stand for others. -/
structure Lists (P : Pairing) (vs vs' : List Value) : Prop where
  made : ∀ v ∈ vs, v.MadeIn P.homes
  eq : vs' = vs.map (Value.renumber P.move)

/-- Entries of a hash of the keeping evaluator stand for others. -/
def Hashes (P : Pairing) (entries entries' : Dictionary Value) : Prop := P.Values (.hash entries) (.hash entries')

/-- Values under names of the keeping evaluator stand for others. -/
structure Entries (P : Pairing) (bindings bindings' : Bindings Value) : Prop where
  made : ∀ b ∈ bindings, b.2.MadeIn P.homes
  eq : bindings' = bindings.map (Prod.map id (Value.renumber P.move))

/-- A scope of the keeping evaluator stands for one of the other. -/
structure Scopes (P : Pairing) (l l' : Nat) (s s' : Scope) : Prop where
  bindings : P.Entries s.bindings s'.bindings
  outer : (s.outer = none ∧ s'.outer = none) ∨
    ∃ o o', s.outer = some o ∧ s'.outer = some o' ∧ o < l ∧ o' < l' ∧ P.twins[o]? = some o'

/-- A state of the keeping evaluator stands for one of the other. -/
structure States (P : Pairing) (st st' : Evaluator) : Prop where
  made : P.homes.length = st.functionsMade
  functionsMade : st'.functionsMade = st.functionsMade
  depth : st'.depth = st.depth
  output : st'.output.text = st.output.text
  size : P.twins.length = st.scopes.size
  scope : ∀ l l', P.twins[l]? = some l' →
    ∃ s s', st.scopes[l]? = some s ∧ st'.scopes[l']? = some s' ∧ P.Scopes l l' s s'

/-! ### Growing

What was related stays related in a pairing that has grown: old scopes keep their twins, and old functions
their scopes. -/

variable {P P₁ P₂ : Pairing} {v v' : Value} {vs vs' : List Value} {l l' : Nat}

/-- A list that is prolonged keeps its elements. -/
theorem getElem?_prolonged {ls ls' : List Nat} {k : Nat} (h : ls <+: ls') (hk : k < ls.length) :
    ls'[k]? = ls[k]? := by
  rw [List.prefix_iff_getElem?.mp h k hk, List.getElem?_eq_getElem hk]

theorem move_eq (identity : Nat) (h : P.twins[l]? = some l') : P.move identity l = l' := by
  rw [move, List.getD_eq_getElem?_getD, h]
  rfl

/-- Every scope in which a function was made has a twin. -/
theorem exists_twin {identity : Nat} (h : P.homes[identity]? = some l) : ∃ l', P.twins[l]? = some l' :=
  ⟨_, List.getElem?_eq_getElem (P.home_lt l (List.mem_of_getElem? h))⟩

theorem Values.null (P : Pairing) : P.Values .null .null := ⟨trivial, rfl⟩

/-- A renumbering that only leaves those functions alone that have been made. -/
noncomputable def pin (P : Pairing) : Nat → Nat → Nat :=
  Value.pin fun identity scope => P.homes[identity]? = some scope

/-- A value that stands for another one has no functions but those that have been made. -/
theorem Values.pinned (h : P.Values v v') : v.renumber P.pin = v := Value.forFunctions_iff_renumber.mp h.made

theorem Lists.pinned (h : P.Lists vs vs') : vs.map (Value.renumber P.pin) = vs := by
  have hfixed : ∀ v ∈ vs, v.renumber P.pin = id v := fun v hv =>
    Value.forFunctions_iff_renumber.mp (h.made v hv)
  rw [List.map_congr_left hfixed, List.map_id]

namespace Grows

theorem refl (P : Pairing) : P.Grows P := ⟨List.prefix_rfl, List.prefix_rfl⟩

theorem trans (h₁ : P.Grows P₁) (h₂ : P₁.Grows P₂) : P.Grows P₂ :=
  ⟨h₁.homes.trans h₂.homes, h₁.twins.trans h₂.twins⟩

/-- A function that has been made keeps its scope. -/
theorem home (hP : P.Grows P₁) {identity : Nat} (h : P.homes[identity]? = some l) :
    P₁.homes[identity]? = some l := by
  rw [getElem?_prolonged hP.homes (List.getElem?_eq_some_iff.mp h).1, h]

theorem twin (hP : P.Grows P₁) (h : P.twins[l]? = some l') : P₁.twins[l]? = some l' := by
  rw [getElem?_prolonged hP.twins (List.getElem?_eq_some_iff.mp h).1, h]

/-- Functions that have been made have been made later, too. -/
theorem made (hP : P.Grows P₁) (h : v.MadeIn P.homes) : v.MadeIn P₁.homes :=
  h.mono fun _ _ hhome => hP.home hhome

/-- The functions that have been made keep their numbers. -/
theorem renumber_eq (hP : P.Grows P₁) (h : v.MadeIn P.homes) : v.renumber P₁.move = v.renumber P.move := by
  apply Value.renumber_congr
  apply h.mono
  intro identity l hhome
  obtain ⟨l', hl'⟩ := exists_twin hhome
  rw [move_eq identity hl', move_eq identity (hP.twin hl')]

theorem values_iff (hP : P.Grows P₁) (h : v.MadeIn P.homes) : P₁.Values v v' ↔ P.Values v v' :=
  ⟨fun hv => ⟨h, hv.eq.trans (hP.renumber_eq h)⟩,
    fun hv => ⟨hP.made h, hv.eq.trans (hP.renumber_eq h).symm⟩⟩

/-- Values that stand for each other still do so later. -/
theorem values (hP : P.Grows P₁) (h : P.Values v v') : P₁.Values v v' := (hP.values_iff h.made).mpr h

theorem entries_iff {es es' : Bindings Value} (hP : P.Grows P₁) (h : ∀ b ∈ es, b.2.MadeIn P.homes) :
    P₁.Entries es es' ↔ P.Entries es es' := by
  have heq : es.map (Prod.map id (Value.renumber P₁.move)) = es.map (Prod.map id (Value.renumber P.move)) :=
    List.map_congr_left fun b hb => Prod.ext rfl (hP.renumber_eq (h b hb))
  constructor
  · intro hes
    exact ⟨h, hes.eq.trans heq⟩
  · intro hes
    exact ⟨fun b hb => hP.made (h b hb), hes.eq.trans heq.symm⟩

theorem entries {es es' : Bindings Value} (hP : P.Grows P₁) (h : P.Entries es es') : P₁.Entries es es' :=
  (hP.entries_iff h.made).mpr h

theorem lists (hP : P.Grows P₁) (h : P.Lists vs vs') : P₁.Lists vs vs' where
  made := fun v hv => hP.made (h.made v hv)
  eq := by
    rw [h.eq]
    exact List.map_congr_left fun v hv => (hP.renumber_eq (h.made v hv)).symm

/-- Scopes that stand for each other still do so later. -/
theorem scopes {s s' : Scope} (hP : P.Grows P₁) (h : P.Scopes l l' s s') : P₁.Scopes l l' s s' where
  bindings := hP.entries h.bindings
  outer := by
    rcases h.outer with hnone | ⟨o, o', ho, ho', hlt, hlt', htwin⟩
    · exact .inl hnone
    · exact .inr ⟨o, o', ho, ho', hlt, hlt', hP.twin htwin⟩

end Grows

/-! ### Collections

Values that stand for each other are put together from parts that do, and taken apart into such parts. -/

theorem Lists.nil (P : Pairing) : P.Lists [] [] := ⟨List.forall_mem_nil _, rfl⟩

theorem Lists.cons (hv : P.Values v v') (hvs : P.Lists vs vs') : P.Lists (v :: vs) (v' :: vs') := by
  refine ⟨List.forall_mem_cons.mpr ⟨hv.made, hvs.made⟩, ?_⟩
  rw [hv.eq, hvs.eq, List.map_cons]

/-- The order of values may be turned round on both sides. -/
theorem Lists.reverse (h : P.Lists vs vs') : P.Lists vs.reverse vs'.reverse := by
  refine ⟨fun v hv => h.made v (List.mem_reverse.mp hv), ?_⟩
  rw [h.eq, List.map_reverse]

/-- Arrays of values that stand for each other. -/
theorem Lists.array (h : P.Lists vs vs') : P.Values (.array vs) (.array vs') := by
  refine ⟨?_, ?_⟩
  · simpa [Value.MadeIn, Value.ForFunctions] using h.made
  · simp [Value.renumber, h.eq]

theorem Entries.nil (P : Pairing) : P.Entries [] [] := ⟨List.forall_mem_nil _, rfl⟩

theorem Hashes.nil (P : Pairing) : P.Hashes [] [] := ⟨trivial, rfl⟩

/-- The functions in the keys and values of a hash have been made. -/
theorem Hashes.made {es es' : Dictionary Value} (h : P.Hashes es es') :
    ∀ e ∈ es, e.1.toValue.MadeIn P.homes ∧ e.2.MadeIn P.homes :=
  (Value.entriesForFunctions_iff es).mp (Values.made h)

/-- Entry by entry, one hash is the other with other numbers of scopes. -/
theorem Hashes.eq {es es' : Dictionary Value} (h : P.Hashes es es') : es' = es.map (Value.renumberEntry P.move) :=
  (Value.hash.inj (Values.eq h)).trans (Value.renumberEntries_eq_map es)

/-- An entry is put into two hashes that stand for each other. -/
theorem Hashes.insert {es es' : Dictionary Value} {k k' : Value} (hashKey : HashKey) (h : P.Hashes es es')
    (hk : P.Values k k') (hv : P.Values v v') :
    P.Hashes (Dictionary.insert ⟨hashKey, k⟩ v es) (Dictionary.insert ⟨hashKey, k'⟩ v' es') := by
  have hinsert : Dictionary.insert ⟨hashKey, k'⟩ v' es' =
      (Dictionary.insert ⟨hashKey, k⟩ v es).map (Value.renumberEntry P.move) := by
    rw [hk.eq, hv.eq, h.eq]
    exact Dictionary.insert_map _ _ (fun _ _ => Value.before_renumber) ⟨hashKey, k⟩ v es
  constructor
  · apply (Value.entriesForFunctions_iff _).mpr
    intro e he
    rcases Dictionary.mem_insert.mp he with rfl | ⟨hmem, -⟩
    · exact ⟨hk.made, hv.made⟩
    · exact h.made e hmem
  · rw [hinsert, Value.renumber, Value.renumberEntries_eq_map]

/-- A name is bound on both sides. -/
theorem Entries.insert_name {es es' : Bindings Value} (name : String) (h : P.Entries es es')
    (hv : P.Values v v') : P.Entries (Bindings.insert name v es) (Bindings.insert name v' es') where
  made := by
    intro b hb
    rcases List.mem_cons.mp hb with rfl | hmem
    · exact hv.made
    · exact h.made b (List.mem_filter.mp hmem).1
  eq := by rw [h.eq, hv.eq, Bindings.insert_map]

/-- A name is bound on both sides, to values that stand for each other, or on neither. -/
theorem Entries.get? {es es' : Bindings Value} (h : P.Entries es es') (name : String) :
    (es.get? name = none ∧ es'.get? name = none) ∨
      ∃ v v', es.get? name = some v ∧ es'.get? name = some v' ∧ P.Values v v' := by
  rw [h.eq, Bindings.get?_map]
  cases hget : es.get? name with
  | none => exact .inl ⟨rfl, rfl⟩
  | some v =>
      obtain ⟨b, hb, rfl⟩ := Bindings.mem_of_get? hget
      exact .inr ⟨b.2, _, rfl, rfl, h.made b hb, rfl⟩

/-- The parameters of two calls stand for each other. -/
theorem Entries.foldl_insert (parameters : List String) {es es' : Bindings Value} (h : P.Entries es es')
    (hvs : P.Lists vs vs') :
    P.Entries ((parameters.zip vs).foldl (fun bindings (name, v) => Bindings.insert name v bindings) es)
      ((parameters.zip vs').foldl (fun bindings (name, v) => Bindings.insert name v bindings) es') := by
  induction parameters generalizing vs vs' es es' with
  | nil => exact h
  | cons name parameters ih =>
      obtain ⟨hmade, rfl⟩ := hvs
      cases vs with
      | nil => exact h
      | cons v vs =>
          obtain ⟨hv, hvs⟩ := List.forall_mem_cons.mp hmade
          exact ih (h.insert_name name ⟨hv, rfl⟩) ⟨hvs, rfl⟩

/-! ### Names -/

variable {st st' : Evaluator} {α : Type}

/-- A name stands for twins, or it is bound in neither evaluator. -/
theorem States.lookup? (h : P.States st st') (name : String) {n n' : Nat} (hl : P.twins[l]? = some l')
    (hn : l < n) (hn' : l' < n') :
    (EvalM.lookup? st.scopes name n l = none ∧ EvalM.lookup? st'.scopes name n' l' = none) ∨
      ∃ v v', EvalM.lookup? st.scopes name n l = some v ∧ EvalM.lookup? st'.scopes name n' l' = some v' ∧
        P.Values v v' := by
  -- the scopes around are older in both evaluators, so that neither runs out of scopes to look at
  induction n generalizing n' l l' with
  | zero => exact absurd hn (Nat.not_lt_zero l)
  | succ n ih =>
      obtain ⟨m, rfl⟩ := Nat.exists_eq_succ_of_ne_zero (Nat.ne_zero_of_lt hn')
      obtain ⟨s, s', hs, hs', hscopes⟩ := h.scope l l' hl
      unfold EvalM.lookup?
      rw [hs, hs']
      rcases hscopes.bindings.get? name with ⟨hnone, hnone'⟩ | ⟨v, v', hsome, hsome', hv⟩
      · rcases hscopes.outer with ⟨ho, ho'⟩ | ⟨o, o', ho, ho', hlt, hlt', htwin⟩
        · simp [hnone, hnone', ho, ho']
        · simpa [hnone, hnone', ho, ho'] using ih htwin (by omega) (by omega)
      · exact .inr ⟨v, v', by simp [hsome], by simp [hsome'], hv⟩

/-! ### Calls

Entering a call opens a scope on both sides, and the two are twins from then on. Leaving it is where the
evaluators differ: one closes all scopes that the call opened if no function was made since, and then no
function that is left can refer to them. -/

/-- Two scopes never have the same twin. -/
theorem twins_inj (P : Pairing) {m k : Nat} (hl : P.twins[l]? = some k) (hm : P.twins[m]? = some k) : l = m := by
  have hlt : l < P.twins.length := (List.getElem?_eq_some_iff.mp hl).1
  exact (List.getElem?_inj hlt P.nodup).mp (hl.trans hm.symm)

theorem States.twin_lt (h : P.States st st') (hl : P.twins[l]? = some l') : l' < st'.scopes.size := by
  obtain ⟨s, s', -, hs', -⟩ := h.scope l l' hl
  exact (Array.getElem?_eq_some_iff.mp hs').1

theorem States.lt_size (h : P.States st st') (hl : P.twins[l]? = some l') : l < st.scopes.size := by
  rw [← h.size]
  exact (List.getElem?_eq_some_iff.mp hl).1

/-- A pairing for one more scope. -/
def addScope (P : Pairing) (l' : Nat) (h : l' ∉ P.twins) : Pairing where
  homes := P.homes
  twins := P.twins ++ [l']
  home_lt := by
    intro o ho
    rw [List.length_append]
    exact Nat.lt_add_right _ (P.home_lt o ho)
  nodup := P.nodup.append (List.nodup_singleton l') (List.disjoint_singleton.mpr h)

/-- Entering a call of a function in scopes that stand for each other. -/
theorem States.enterCall (h : P.States st st') (parameters : List String) (hvs : P.Lists vs vs')
    (hl : P.twins[l]? = some l') :
    ∃ P', P.Grows P' ∧ P'.twins[st.scopes.size]? = some st'.scopes.size ∧
      P'.States (EvalM.enterCall parameters vs l st) (EvalM.enterCall parameters vs' l' st') := by
  have hfresh : st'.scopes.size ∉ P.twins := by
    intro hmem
    obtain ⟨m, hm⟩ := List.getElem?_of_mem hmem
    exact absurd (h.twin_lt hm) (Nat.lt_irrefl _)
  have hgrows : P.Grows (P.addScope st'.scopes.size hfresh) := ⟨List.prefix_rfl, List.prefix_append _ _⟩
  have hinner : (P.addScope st'.scopes.size hfresh).twins[st.scopes.size]? = some st'.scopes.size := by
    rw [← h.size]
    exact List.getElem?_concat_length
  refine ⟨_, hgrows, hinner, h.made, h.functionsMade, ?_, h.output, ?_, ?_⟩
  · exact congrArg (· + 1) h.depth
  · simp [addScope, EvalM.enterCall, h.size]
  · intro m m' hm
    by_cases hsize : m = st.scopes.size
    · subst hsize
      obtain rfl : st'.scopes.size = m' := Option.some.inj (hinner.symm.trans hm)
      refine ⟨_, _, Array.getElem?_push_size, Array.getElem?_push_size, ?_, ?_⟩
      · exact hgrows.entries (Entries.foldl_insert parameters (.nil P) hvs)
      · exact .inr ⟨l, l', rfl, rfl, h.lt_size hl, h.twin_lt hl, hgrows.twin hl⟩
    · have hlt : m < P.twins.length := by
        have hlt := (List.getElem?_eq_some_iff.mp hm).1
        rw [addScope, List.length_append, List.length_singleton, h.size] at hlt
        rw [h.size]
        omega
      have hm : P.twins[m]? = some m' := (List.getElem?_append_left hlt).symm.trans hm
      obtain ⟨s, s', hs, hs', hscopes⟩ := h.scope m m' hm
      refine ⟨s, s', ?_, ?_, hgrows.scopes hscopes⟩
      · rw [getElem?_enterCall (h.lt_size hm), hs]
      · rw [getElem?_enterCall (h.twin_lt hm), hs']

/-- Closing scopes keeps the older ones. -/
theorem getElem?_shrink {scopes : Array Scope} {n : Nat} (h : l < n) : (scopes.shrink n)[l]? = scopes[l]? := by
  by_cases hl : l < scopes.size
  · have hl' : l < (scopes.shrink n).size := by
      rw [Array.size_shrink]
      omega
    rw [Array.getElem?_eq_getElem hl, Array.getElem?_eq_getElem hl', Array.getElem_shrink]
  · rw [Array.getElem?_eq_none (Nat.le_of_not_lt hl), Array.getElem?_eq_none]
    rw [Array.size_shrink]
    omega

/-- Closing the scopes that have been opened since. No function has been made since, so that all functions
refer to older scopes. -/
theorem States.shrink (h : P₁.States st st') (hP : P.Grows P₁) (hmade : st.functionsMade = P.homes.length) :
    (∀ v v', P₁.Values v v' → P.Values v v') ∧
      P.States { st with scopes := st.scopes.shrink P.twins.length } st' := by
  have hhomes : P₁.homes = P.homes := by
    symm
    apply hP.homes.eq_of_length
    rw [h.made, hmade]
  refine ⟨?_, ?_, h.functionsMade, h.depth, h.output, ?_, ?_⟩
  · intro v v' hv
    exact (hP.values_iff (hhomes ▸ hv.made)).mp hv
  · rw [← hhomes, h.made]
  · have hle : P.twins.length ≤ st.scopes.size := by
      rw [← h.size]
      exact hP.twins.length_le
    rw [Array.size_shrink, Nat.min_eq_left hle]
  · intro l l' hl
    have hlt : l < P.twins.length := (List.getElem?_eq_some_iff.mp hl).1
    obtain ⟨s, s', hs, hs', hscopes⟩ := h.scope l l' (hP.twin hl)
    refine ⟨s, s', (getElem?_shrink hlt).trans hs, hs', ?_, ?_⟩
    · exact (hP.entries_iff (hhomes ▸ hscopes.bindings.made)).mp hscopes.bindings
    · rcases hscopes.outer with hnone | ⟨o, o', ho, ho', hlt₁, hlt₁', htwin⟩
      · exact .inl hnone
      · rw [getElem?_prolonged hP.twins (Nat.lt_trans hlt₁ hlt)] at htwin
        exact .inr ⟨o, o', ho, ho', hlt₁, hlt₁', htwin⟩

/-- **Leaving a call**: both evaluators go on with scopes that stand for each other. -/
theorem States.leaveCall {st₀ : Evaluator} (h : P₁.States st st') (hP : P.Grows P₁)
    (hmade : P.homes.length = st₀.functionsMade) (hsize : P.twins.length = st₀.scopes.size) :
    ∃ P', P.Grows P' ∧
      P'.States (EvalM.leaveCall st₀.scopes.size st₀.functionsMade st) (EvalM.leaveCallKeeping st') ∧
      ∀ v v', P₁.Values v v' → P'.Values v v' := by
  have hleft : P₁.States { st with depth := st.depth - 1 } (EvalM.leaveCallKeeping st') :=
    ⟨h.made, h.functionsMade, congrArg (· - 1) h.depth, h.output, h.size, h.scope⟩
  rw [EvalM.leaveCall]
  by_cases hclosed : st.functionsMade = st₀.functionsMade
  · -- the body made no function, so that nothing refers to the scopes that are closed
    rw [if_pos hclosed, ← hsize]
    obtain ⟨hvalues, hstates⟩ := hleft.shrink hP (hclosed.trans hmade.symm)
    exact ⟨P, .refl P, hstates, hvalues⟩
  · rw [if_neg hclosed]
    exact ⟨P₁, hP, hleft, fun _ _ hv => hv⟩

end Pairing

end ScriptLang
