import ScriptLang.Proofs.Evaluator.Evaluation

/-!
# Chains of scopes

A name is looked up in a scope and then in the scopes around it. `Chained` says which these are, as a list,
and `valueAt` is what a name stands for along such a list. Binding a name and opening the scope of a call
change what one scope says and leave the others alone.
-/

namespace ScriptLang

open EvalM (enterCall lookup?)

/-- What a name stands for in one scope. -/
def bound? (scopes : Array Scope) (l : Nat) (x : String) : Option Value :=
  scopes[l]?.bind fun s => s.bindings.get? x

/-- What a name stands for in some scopes, the first one that binds it. -/
def valueAt (scopes : Array Scope) : List Nat → String → Option Value
  | [], _ => none
  | l :: ls, x =>
    match bound? scopes l x with
    | some v => some v
    | none => valueAt scopes ls x

/-- The scopes around a scope, innermost first. The last one is the scope of the main program. -/
def Chained (scopes : Array Scope) : Nat → List Nat → Prop
  | l, [] => l = 0 ∧ scopes[l]?.map Scope.outer = some none
  | l, o :: ls => scopes[l]?.map Scope.outer = some (some o) ∧ o < l ∧ Chained scopes o ls

/-- No scope of some binds a name of some. -/
def Untouched (scopes : Array Scope) (levels : List Nat) (names : List String) : Prop :=
  ∀ l ∈ levels, ∀ x ∈ names, bound? scopes l x = none

section

variable {scopes scopes' : Array Scope} {l : Nat} {ls : List Nat} {x : String} {v : Value}

theorem valueAt_cons_of_some (h : bound? scopes l x = some v) : valueAt scopes (l :: ls) x = some v := by
  rw [valueAt, h]

/-- A name that a scope does not bind is looked up further out. -/
theorem valueAt_cons_of_none (h : bound? scopes l x = none) :
    valueAt scopes (l :: ls) x = valueAt scopes ls x := by
  rw [valueAt, h]

/-- Only what the scopes of the chain say of the name matters. -/
theorem valueAt_congr (h : ∀ l ∈ ls, bound? scopes' l x = bound? scopes l x) :
    valueAt scopes' ls x = valueAt scopes ls x := by
  induction ls with
  | nil => rfl
  | cons l ls ih =>
      rw [List.forall_mem_cons] at h
      rw [valueAt, valueAt, h.1, ih h.2]

/-- What a name stands for is bound in one of the scopes. -/
theorem exists_bound_of_valueAt (h : valueAt scopes ls x = some v) :
    ∃ l ∈ ls, bound? scopes l x = some v := by
  induction ls with
  | nil => cases h
  | cons l ls ih =>
      cases hbound : bound? scopes l x with
      | some w =>
          rw [valueAt_cons_of_some hbound] at h
          cases h
          exact ⟨l, List.mem_cons_self, hbound⟩
      | none =>
          rw [valueAt_cons_of_none hbound] at h
          obtain ⟨l', hl', hbound'⟩ := ih h
          exact ⟨l', List.mem_cons_of_mem _ hl', hbound'⟩

theorem valueAt_eq_none_iff : valueAt scopes ls x = none ↔ ∀ l ∈ ls, bound? scopes l x = none := by
  induction ls with
  | nil => exact ⟨fun _ l hl => absurd hl List.not_mem_nil, fun _ => rfl⟩
  | cons l ls ih =>
      rw [List.forall_mem_cons]
      cases hbound : bound? scopes l x with
      | some w =>
          rw [valueAt_cons_of_some hbound]
          exact ⟨fun h => absurd h (Option.some_ne_none w), fun h => absurd h.1 (Option.some_ne_none w)⟩
      | none =>
          rw [valueAt_cons_of_none hbound, ih]
          exact ⟨fun h => ⟨rfl, h⟩, fun h => h.2⟩

namespace Chained

theorem lt_size (h : Chained scopes l ls) : l < scopes.size := by
  have hsome : scopes[l]?.map Scope.outer ≠ none := by
    cases ls with
    | nil =>
        rw [h.2]
        exact Option.some_ne_none _
    | cons o ls =>
        rw [h.1]
        exact Option.some_ne_none _
  rw [Ne, Option.map_eq_none_iff, Array.getElem?_eq_none_iff] at hsome
  exact Nat.lt_of_not_le hsome

theorem lt_of_mem (h : Chained scopes l ls) {o : Nat} (ho : o ∈ ls) : o < l := by
  induction ls generalizing l with
  | nil => exact absurd ho List.not_mem_nil
  | cons first ls ih =>
      obtain ⟨-, hlt, hrest⟩ := h
      rcases List.mem_cons.mp ho with rfl | hmem
      · exact hlt
      · exact Nat.lt_trans (ih hrest hmem) hlt

theorem mem_lt_size (h : Chained scopes l ls) {o : Nat} (ho : o ∈ l :: ls) : o < scopes.size := by
  rcases List.mem_cons.mp ho with rfl | hmem
  · exact h.lt_size
  · exact Nat.lt_trans (h.lt_of_mem hmem) h.lt_size

/-- A chain depends on what is around its scopes alone, not on what they bind. -/
theorem congr (h : Chained scopes l ls)
    (hsame : ∀ o ∈ l :: ls, scopes'[o]?.map Scope.outer = scopes[o]?.map Scope.outer) :
    Chained scopes' l ls := by
  induction ls generalizing l with
  | nil => exact ⟨h.1, (hsame l List.mem_cons_self).trans h.2⟩
  | cons first ls ih =>
      obtain ⟨houter, hlt, hrest⟩ := h
      rw [List.forall_mem_cons] at hsame
      exact ⟨hsame.1.trans houter, hlt, ih hrest hsame.2⟩

/-- **Looking a name up** finds it in the first scope of the chain that binds it. -/
theorem lookup?_eq (h : Chained scopes l ls) {n : Nat} (hn : l < n) :
    lookup? scopes x n l = valueAt scopes (l :: ls) x := by
  -- each scope around is older, so that the number of scopes to go through does not run out
  induction ls generalizing l n with
  | nil =>
      cases n with
      | zero => exact absurd hn (Nat.not_lt_zero l)
      | succ n =>
          obtain ⟨-, houter⟩ := h
          obtain ⟨s, hs, hnone⟩ := Option.map_eq_some_iff.mp houter
          unfold lookup?
          rw [hs]
          cases hget : s.bindings.get? x with
          | some w =>
              rw [valueAt_cons_of_some (v := w) (by rw [bound?, hs]; exact hget)]
              simp [hget]
          | none =>
              rw [valueAt_cons_of_none (by rw [bound?, hs]; exact hget)]
              simp [hget, hnone, valueAt]
  | cons o ls ih =>
      cases n with
      | zero => exact absurd hn (Nat.not_lt_zero l)
      | succ n =>
          obtain ⟨houter, hlt, hrest⟩ := h
          obtain ⟨s, hs, hsome⟩ := Option.map_eq_some_iff.mp houter
          unfold lookup?
          rw [hs]
          cases hget : s.bindings.get? x with
          | some w =>
              rw [valueAt_cons_of_some (v := w) (by rw [bound?, hs]; exact hget)]
              simp [hget]
          | none =>
              rw [valueAt_cons_of_none (by rw [bound?, hs]; exact hget), ← ih hrest (n := n) (by omega)]
              simp [hget, hsome]

end Chained

end

/-! ## Changes

An evaluation binds names in its own scope and opens new ones. So a chain that does not contain the scope
looks the same behind it. -/

section

variable {scope : Nat} {st st' : Evaluator} {l : Nat} {x y : String} {v : Value}

/-- A name stands for what was bound to it last. -/
theorem bound?_bind_self (h : scope < st.scopes.size) :
    bound? (st.bind y v scope).scopes scope y = some v := by
  rw [bound?, Evaluator.bind, Array.getElem?_modify, if_pos rfl, Array.getElem?_eq_getElem h]
  exact Bindings.get?_insert_self _ _ _

theorem bound?_bind_of_ne (h : l = scope → x ≠ y) :
    bound? (st.bind y v scope).scopes l x = bound? st.scopes l x := by
  rw [bound?, bound?, Evaluator.bind, Array.getElem?_modify]
  by_cases hl : scope = l
  · rw [if_pos hl]
    cases st.scopes[l]? with
    | none => rfl
    | some s => exact Bindings.get?_insert_of_ne (h hl.symm) _ _
  · rw [if_neg hl]

/-- What an evaluation leaves alone includes the names of other scopes. -/
theorem Evaluator.Frame.bound?_eq (h : st.Frame scope st') (hl : l < st.scopes.size) (hne : l ≠ scope) :
    bound? st'.scopes l x = bound? st.scopes l x := by
  rw [bound?, bound?, h.others l hl hne]

/-- An evaluation does not change what is around a scope. -/
theorem Evaluator.Frame.outer_eq (h : st.Frame scope st') (hl : l < st.scopes.size) :
    st'.scopes[l]?.map Scope.outer = st.scopes[l]?.map Scope.outer := by
  by_cases hne : l = scope
  · rw [hne]
    exact h.outer
  · rw [h.others l hl hne]

theorem Evaluator.Frame.chained (h : st.Frame scope st') {ls : List Nat}
    (hchained : Chained st.scopes l ls) : Chained st'.scopes l ls :=
  hchained.congr fun _ ho => h.outer_eq (hchained.mem_lt_size ho)

variable {parameters : List String} {vs : List Value} {home : Nat}

theorem getElem?_enterCall (hl : l < st.scopes.size) :
    (enterCall parameters vs home st).scopes[l]? = st.scopes[l]? := by
  rw [enterCall, Array.getElem?_push_lt hl, Array.getElem?_eq_getElem hl]

theorem bound?_enterCall (hl : l < st.scopes.size) :
    bound? (enterCall parameters vs home st).scopes l x = bound? st.scopes l x := by
  rw [bound?, bound?, getElem?_enterCall hl]

/-- Binding parameters gives them the arguments. -/
theorem get?_foldl_insert (parameters : List String) (vs : List Value) (bindings : Bindings Value)
    (h : ((parameters.zip vs).foldl (fun bindings (name, v) => Bindings.insert name v bindings)
      bindings).get? x = some v) :
    (∃ k : Nat, parameters[k]? = some x ∧ vs[k]? = some v) ∨ bindings.get? x = some v := by
  induction parameters generalizing vs bindings with
  | nil => exact .inr h
  | cons first parameters ih =>
      cases vs with
      | nil => exact .inr h
      | cons w vs =>
          rcases ih vs (bindings.insert first w) h with ⟨k, hk, hv⟩ | hget
          · exact .inl ⟨k + 1, hk, hv⟩
          · by_cases hfirst : x = first
            · subst hfirst
              rw [Bindings.get?_insert_self] at hget
              exact .inl ⟨0, rfl, hget⟩
            · rw [Bindings.get?_insert_of_ne hfirst] at hget
              exact .inr hget

/-- The scope of a call binds the parameters to the arguments. -/
theorem bound?_enterCall_self
    (h : bound? (enterCall parameters vs home st).scopes st.scopes.size x = some v) :
    ∃ k : Nat, parameters[k]? = some x ∧ vs[k]? = some v := by
  rw [bound?, enterCall, Array.getElem?_push_size] at h
  rcases get?_foldl_insert parameters vs [] h with hk | hnil
  · exact hk
  · cases hnil

/-- Every parameter is bound to some argument. -/
theorem exists_get?_foldl_insert (parameters : List String) (vs : List Value) (bindings : Bindings Value)
    (hlength : vs.length = parameters.length)
    (hx : x ∈ parameters ∨ ∃ v, bindings.get? x = some v) :
    ∃ v, ((parameters.zip vs).foldl (fun bindings (name, v) => Bindings.insert name v bindings)
      bindings).get? x = some v := by
  induction parameters generalizing vs bindings with
  | nil => exact hx.resolve_left List.not_mem_nil
  | cons first parameters ih =>
      cases vs with
      | nil => cases hlength
      | cons w vs =>
          refine ih vs (bindings.insert first w) (Nat.succ.inj hlength) ?_
          by_cases hfirst : x = first
          · subst hfirst
            exact .inr ⟨w, Bindings.get?_insert_self _ _ _⟩
          · rcases hx with hmem | ⟨v, hv⟩
            · exact .inl ((List.mem_cons.mp hmem).resolve_left hfirst)
            · exact .inr ⟨v, (Bindings.get?_insert_of_ne hfirst _ _).trans hv⟩

/-- The scope of a call binds every parameter. -/
theorem exists_bound?_enterCall_self (hlength : vs.length = parameters.length) (hx : x ∈ parameters) :
    ∃ v, bound? (enterCall parameters vs home st).scopes st.scopes.size x = some v := by
  obtain ⟨v, hv⟩ := exists_get?_foldl_insert parameters vs [] hlength (.inl hx)
  refine ⟨v, ?_⟩
  rw [bound?, enterCall, Array.getElem?_push_size]
  exact hv

/-- The scopes around a call. -/
theorem chained_enterCall {ls : List Nat} (h : Chained st.scopes home ls) :
    Chained (enterCall parameters vs home st).scopes st.scopes.size (home :: ls) := by
  refine ⟨?_, h.lt_size, ?_⟩
  · rw [enterCall, Array.getElem?_push_size]
    rfl
  · apply h.congr
    intro o ho
    rw [getElem?_enterCall (h.mem_lt_size ho)]

end

end ScriptLang
