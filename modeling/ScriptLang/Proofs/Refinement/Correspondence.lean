import ScriptLang.Proofs.Evaluator.Evaluation
import ScriptLang.Proofs.Machine.Steps
import ScriptLang.Proofs.Refinement.Binders
import Mathlib.Data.List.Forall2
import Mathlib.Data.List.Nodup

/-!
# Corresponding values

A value of the machine corresponds to a value of the evaluator if both are the same data, except that a
closure stands where the other has a function. Which closure stands for which function is said by a
`World`, which pairs the two that were made by the same evaluation of the same function literal.

Operations on corresponding values have corresponding results: `Expr.combine?_matches`,
`Builtin.result_matches` and, for the identity of functions, `Value.Matches.same_eq`.
-/

namespace ScriptLang

/-! ## Worlds -/

/-- One evaluation of a function literal, which makes a function in the evaluator and a closure in the
machine. -/
structure Birth where
  /-- The identity of the function. -/
  functionId : Nat
  /-- The identity of the closure. -/
  closureId : Nat
  /-- The name that the literal records. -/
  name : Option String
  parameters : List String
  body : List Stmt
  /-- The scope that the function was made in. -/
  scope : Nat
  /-- The scopes around that one, innermost first. -/
  outer : List Nat
  /-- The state of the compiler before the body, and behind it. -/
  opened : Compiler
  closed : Compiler
  /-- The instructions of the body. -/
  code : Instructions
  /-- The captured values. -/
  free : List Value

namespace Birth

/-- The code of the body. -/
def compiled (b : Birth) : CompiledFunction :=
  ⟨Instructions.toCode b.code, b.closed.symbols.inner.numDefinitions, b.parameters.length⟩

/-- The function in the evaluator. -/
def function (b : Birth) : Value := .function b.functionId b.parameters b.body b.scope

/-- The closure in the machine. -/
def closure (b : Birth) : Closure := ⟨b.closureId, b.compiled, b.free⟩

/-- All scopes around the body, innermost first. -/
def levels (b : Birth) : List Nat := b.scope :: b.outer

end Birth

/-- The functions that have been made, the latest one first. -/
abbrev World := List Birth

/-- No two functions share an identity, and no two closures. -/
structure World.OneToOne (W : World) : Prop where
  functions : (W.map Birth.functionId).Nodup
  closures : (W.map Birth.closureId).Nodup

theorem World.OneToOne.cons {W : World} {b : Birth} (h : W.OneToOne)
    (hfunction : ∀ b' ∈ W, b'.functionId ≠ b.functionId)
    (hclosure : ∀ b' ∈ W, b'.closureId ≠ b.closureId) : World.OneToOne (b :: W) where
  functions := by
    refine List.nodup_cons.mpr ⟨fun hmem => ?_, h.functions⟩
    obtain ⟨b', hb', heq⟩ := List.mem_map.mp hmem
    exact hfunction b' hb' heq
  closures := by
    refine List.nodup_cons.mpr ⟨fun hmem => ?_, h.closures⟩
    obtain ⟨b', hb', heq⟩ := List.mem_map.mp hmem
    exact hclosure b' hb' heq

/-! ## Values

Values correspond along their structure, so that everything that can be asked of a value has the same answer
on both sides. Functions are told apart by their identities, for which the world must be one to one. -/

mutual

/-- A value of the machine corresponds to one of the evaluator. -/
inductive Value.Matches (W : World) : Value → Value → Prop where
  | null : Value.Matches W .null .null
  | integer (n : Int64) : Value.Matches W (.integer n) (.integer n)
  | boolean (p : Bool) : Value.Matches W (.boolean p) (.boolean p)
  | string (s : String) : Value.Matches W (.string s) (.string s)
  | array {vs ws : List Value} : Value.MatchesAll W vs ws → Value.Matches W (.array vs) (.array ws)
  | hash {es fs : List (StoredKey Value × Value)} :
      Value.MatchesEntries W es fs → Value.Matches W (.hash es) (.hash fs)
  | builtin (b : Builtin) : Value.Matches W (.builtin b) (.builtin b)
  | function {b : Birth} : b ∈ W →
      Value.Matches W (.function b.functionId b.parameters b.body b.scope)
        (.closure b.closureId b.compiled b.free)

/-- Values correspond one by one. -/
inductive Value.MatchesAll (W : World) : List Value → List Value → Prop where
  | nil : Value.MatchesAll W [] []
  | cons {v w : Value} {vs ws : List Value} :
      Value.Matches W v w → Value.MatchesAll W vs ws → Value.MatchesAll W (v :: vs) (w :: ws)

/-- The entries of two hashes are found under the same keys, and their keys and values correspond. -/
inductive Value.MatchesEntries (W : World) :
    List (StoredKey Value × Value) → List (StoredKey Value × Value) → Prop where
  | nil : Value.MatchesEntries W [] []
  | cons {hashKey : HashKey} {k l v w : Value} {es fs : List (StoredKey Value × Value)} :
      Value.Matches W k l → Value.Matches W v w → Value.MatchesEntries W es fs →
      Value.MatchesEntries W ((⟨hashKey, k⟩, v) :: es) ((⟨hashKey, l⟩, w) :: fs)

end

namespace Value

variable {W W' : World} {v w v' w' k l k' l' : Value} {vs ws vs' ws' : List Value}
  {es fs es' fs' : List (StoredKey Value × Value)}

mutual

/-- Correspondence persists when functions are made. -/
theorem Matches.mono (hW : W ⊆ W') : ∀ {v w : Value}, Matches W v w → Matches W' v w
  | _, _, .null => .null
  | _, _, .integer n => .integer n
  | _, _, .boolean p => .boolean p
  | _, _, .string s => .string s
  | _, _, .array h => .array (h.mono hW)
  | _, _, .hash h => .hash (h.mono hW)
  | _, _, .builtin b => .builtin b
  | _, _, .function h => .function (hW h)

theorem MatchesAll.mono (hW : W ⊆ W') : ∀ {vs ws : List Value}, MatchesAll W vs ws →
    MatchesAll W' vs ws
  | _, _, .nil => .nil
  | _, _, .cons h hs => .cons (h.mono hW) (hs.mono hW)

theorem MatchesEntries.mono (hW : W ⊆ W') : ∀ {es fs : List (StoredKey Value × Value)},
    MatchesEntries W es fs → MatchesEntries W' es fs
  | _, _, .nil => .nil
  | _, _, .cons hkey h hs => .cons (hkey.mono hW) (h.mono hW) (hs.mono hW)

end

mutual

/-- **Equality** of values agrees with equality of corresponding values. -/
theorem Matches.same_eq (hW : W.OneToOne) : ∀ {v w v' w' : Value}, Matches W v w → Matches W v' w' →
    Value.same v v' = Value.same w w'
  | _, _, _, _, .array h, .array h' => h.same_eq hW h'
  | _, _, _, _, .hash h, .hash h' => h.same_eq hW h'
  | _, _, _, _, @Matches.function _ b h, @Matches.function _ b' h' => by
      show (b.functionId == b'.functionId) = (b.closureId == b'.closureId)
      apply Bool.eq_iff_iff.mpr
      rw [beq_iff_eq, beq_iff_eq]
      constructor
      · intro heq
        rw [List.inj_on_of_nodup_map hW.functions h h' heq]
      · intro heq
        rw [List.inj_on_of_nodup_map hW.closures h h' heq]
  | _, _, _, _, .null, h' => by cases h' <;> rfl
  | _, _, _, _, .integer n, h' => by cases h' <;> rfl
  | _, _, _, _, .boolean p, h' => by cases h' <;> rfl
  | _, _, _, _, .string s, h' => by cases h' <;> rfl
  | _, _, _, _, .builtin b, h' => by cases h' <;> rfl
  | _, _, _, _, .array _, .null | _, _, _, _, .array _, .integer _ | _, _, _, _, .array _, .boolean _
  | _, _, _, _, .array _, .string _ | _, _, _, _, .array _, .hash _ | _, _, _, _, .array _, .builtin _
  | _, _, _, _, .array _, .function _ => rfl
  | _, _, _, _, .hash _, .null | _, _, _, _, .hash _, .integer _ | _, _, _, _, .hash _, .boolean _
  | _, _, _, _, .hash _, .string _ | _, _, _, _, .hash _, .array _ | _, _, _, _, .hash _, .builtin _
  | _, _, _, _, .hash _, .function _ => rfl
  | _, _, _, _, .function _, .null | _, _, _, _, .function _, .integer _
  | _, _, _, _, .function _, .boolean _ | _, _, _, _, .function _, .string _
  | _, _, _, _, .function _, .array _ | _, _, _, _, .function _, .hash _
  | _, _, _, _, .function _, .builtin _ => rfl

/-- Lists are equal on both sides or on neither. -/
theorem MatchesAll.same_eq (hW : W.OneToOne) : ∀ {vs ws vs' ws' : List Value}, MatchesAll W vs ws →
    MatchesAll W vs' ws' → Value.sameElements vs vs' = Value.sameElements ws ws'
  | _, _, _, _, .nil, .nil => rfl
  | _, _, _, _, .nil, .cons _ _ => rfl
  | _, _, _, _, .cons _ _, .nil => rfl
  | _, _, _, _, .cons h hs, .cons h' hs' => by
      rw [Value.sameElements, Value.sameElements, h.same_eq hW h', hs.same_eq hW hs']

theorem MatchesEntries.same_eq (hW : W.OneToOne) : ∀ {es fs es' fs' : List (StoredKey Value × Value)},
    MatchesEntries W es fs → MatchesEntries W es' fs' →
      Value.sameEntries es es' = Value.sameEntries fs fs'
  | _, _, _, _, .nil, .nil => rfl
  | _, _, _, _, .nil, .cons _ _ _ => rfl
  | _, _, _, _, .cons _ _ _, .nil => rfl
  | _, _, _, _, .cons hkey h hs, .cons hkey' h' hs' => by
      rw [Value.sameEntries, Value.sameEntries, hkey.same_eq hW hkey', h.same_eq hW h', hs.same_eq hW hs']

end

theorem matchesAll_iff : MatchesAll W vs ws ↔ List.Forall₂ (Matches W) vs ws := by
  constructor
  · intro h
    induction vs generalizing ws with
    | nil =>
        cases h
        exact .nil
    | cons v vs ih =>
        cases h with
        | cons hv hvs => exact .cons hv (ih hvs)
  · intro h
    induction h with
    | nil => exact .nil
    | cons hv _ ih => exact .cons hv ih

theorem Matches.isTruthy_eq (h : Matches W v w) : v.isTruthy = w.isTruthy := by
  cases h <;> rfl

theorem Matches.key?_eq [StringHash] (h : Matches W v w) : v.key? = w.key? := by
  cases h <;> rfl

theorem Matches.before_eq (h : Matches W v w) (h' : Matches W v' w') : v.before v' = w.before w' := by
  cases h <;> cases h' <;> rfl

/-! ## Arrays and hashes -/

/-- A missing value is `null` on both sides. -/
theorem Matches.getD {v? w? : Option Value} (h : Option.Rel (Matches W) v? w?) :
    Matches W (v?.getD .null) (w?.getD .null) := by
  cases h with
  | none => exact .null
  | some h => exact h

/-- Elements correspond, and are missing on both sides. -/
theorem MatchesAll.getElem? (h : List.Forall₂ (Matches W) vs ws) (k : Nat) :
    Option.Rel (Matches W) vs[k]? ws[k]? := by
  induction h generalizing k with
  | nil => exact .none
  | cons hv _ ih =>
      cases k with
      | zero => exact .some hv
      | succ k => exact ih k

/-- What is found in hashes corresponds. -/
theorem MatchesEntries.get? (key : HashKey) (h : MatchesEntries W es fs) :
    Option.Rel (Matches W) (Dictionary.get? key es) (Dictionary.get? key fs) := by
  induction es generalizing fs with
  | nil =>
      cases h
      exact .none
  | cons e es ih =>
      cases h with
      | @cons hashKey k l v w _ fs _ hv hes =>
          unfold Dictionary.get? at ih ⊢
          rw [Dictionary.pair?_cons, Dictionary.pair?_cons]
          by_cases hkey : hashKey = key
          · rw [if_pos hkey, if_pos hkey]
            exact .some hv
          · rw [if_neg hkey, if_neg hkey]
            exact ih hes

/-- An entry is taken out on both sides. -/
theorem MatchesEntries.erase (key : HashKey) (h : MatchesEntries W es fs) :
    MatchesEntries W (Dictionary.erase key es) (Dictionary.erase key fs) := by
  induction es generalizing fs with
  | nil =>
      cases h
      exact .nil
  | cons e es ih =>
      cases h with
      | @cons hashKey k l v w _ fs hk hv hes =>
          by_cases hkey : hashKey = key
          · rw [Dictionary.erase, Dictionary.erase, List.filter_cons_of_neg (by simpa using hkey),
              List.filter_cons_of_neg (by simpa using hkey)]
            exact ih hes
          · rw [Dictionary.erase, Dictionary.erase, List.filter_cons_of_pos (by simpa using hkey),
              List.filter_cons_of_pos (by simpa using hkey)]
            exact .cons hk hv (ih hes)

/-- Corresponding entries have the same place in hashes with corresponding ones. -/
theorem MatchesEntries.place (hashKey : HashKey) (hk : Matches W k l) (hv : Matches W v w)
    (h : MatchesEntries W es fs) :
    MatchesEntries W (Dictionary.place (⟨hashKey, k⟩, v) es) (Dictionary.place (⟨hashKey, l⟩, w) fs) := by
  induction es generalizing fs with
  | nil =>
      cases h
      exact .cons hk hv .nil
  | cons e es ih =>
      cases h with
      | @cons other k' l' old old' _ fs hk' hold hes =>
          unfold Dictionary.place
          rw [hk.before_eq hk']
          split
          · exact .cons hk hv (.cons hk' hold hes)
          · exact .cons hk' hold (ih hes)

theorem MatchesEntries.insert (hashKey : HashKey) (hk : Matches W k l) (hv : Matches W v w)
    (h : MatchesEntries W es fs) :
    MatchesEntries W (Dictionary.insert ⟨hashKey, k⟩ v es) (Dictionary.insert ⟨hashKey, l⟩ w fs) :=
  (h.erase hashKey).place hashKey hk hv

/-- Pairs of a key and a value that correspond. -/
theorem pairUp_matches (h : List.Forall₂ (Matches W) vs ws) :
    List.Forall₂ (fun p q => Matches W p.1 q.1 ∧ Matches W p.2 q.2) (MachineM.pairUp vs)
      (MachineM.pairUp ws) := by
  induction vs using MachineM.pairUp.induct generalizing ws with
  | case1 key value rest ih =>
      cases h with
      | cons hkey h =>
          cases h with
          | cons hvalue hrest => exact .cons ⟨hkey, hvalue⟩ (ih hrest)
  | case2 vs hvs =>
      cases h with
      | nil => exact .nil
      | cons hv h =>
          cases h with
          | nil => exact .nil
          | cons hw h => exact absurd rfl (hvs _ _ _)

/-- Hashes built from corresponding pairs correspond. -/
theorem hashOfPairs_matches [StringHash] {ps qs : List (Value × Value)}
    (h : List.Forall₂ (fun p q => Matches W p.1 q.1 ∧ Matches W p.2 q.2) ps qs)
    (hes : MatchesEntries W es fs) (hv : hashOfPairs es ps = .ok v) :
    ∃ w, hashOfPairs fs qs = .ok w ∧ Matches W v w := by
  induction h generalizing es fs with
  | nil =>
      cases hv
      exact ⟨_, rfl, .hash hes⟩
  | @cons p q ps qs hpq _ ih =>
      obtain ⟨key, value⟩ := p
      obtain ⟨key', value'⟩ := q
      have hkey := hpq.1.key?_eq
      unfold hashOfPairs at hv ⊢
      cases hk : key.key? with
      | none =>
          simp only [hk] at hv
          cases hv
      | some k =>
          simp only [hk] at hv
          rw [hk] at hkey
          simp only [← hkey]
          exact ih (hes.insert k hpq.1 hpq.2) hv

/-- Elements of corresponding collections correspond. -/
theorem Matches.element [StringHash] {c c' k k' : Value} (hc : Matches W c c') (hk : Matches W k k')
    (h : c.element k = .ok v) : ∃ w, c'.element k' = .ok w ∧ Matches W v w := by
  cases hc with
  | array hvs =>
      cases hk with
      | integer i =>
          cases h
          refine ⟨_, rfl, ?_⟩
          unfold elementAt
          by_cases hi : i < 0
          · rw [if_pos hi, if_pos hi]
            exact .null
          · rw [if_neg hi, if_neg hi]
            exact .getD (MatchesAll.getElem? (matchesAll_iff.mp hvs) _)
      | _ => cases h
  | hash hes =>
      have hkey := hk.key?_eq
      unfold Value.element at h ⊢
      cases hget : k.key? with
      | none =>
          simp only [hget] at h
          cases h
      | some key =>
          simp only [hget, Except.ok.injEq] at h
          subst h
          rw [hget] at hkey
          simp only [← hkey]
          exact ⟨_, rfl, .getD (hes.get? key)⟩
  | _ => cases hk <;> cases h

end Value

/-! ## Operators -/

namespace Operator

variable {W : World} {l l' r r' v w : Value} {operator : Operator}

/-- The instruction of a prefix operator has the corresponding result. -/
theorem unaryResult?_matches [StringHash] (h : Value.Matches W v w) {u : Value}
    (hu : operator.unaryResult? v = some u) {i : Instruction}
    (hi : operator.unaryInstruction.toOption = some i) (m : Machine) :
    ∃ x, i.result? m [w] = some (.ok x) ∧ Value.Matches W u x := by
  cases operator with
  | bang =>
      cases hu
      cases hi
      rw [h.isTruthy_eq]
      exact ⟨_, rfl, .boolean _⟩
  | minus =>
      cases hi
      cases h with
      | integer n =>
          cases hu
          exact ⟨_, rfl, .integer _⟩
      | _ => cases hu
  | _ => cases hi

/-- Comparing for equality works for all values. -/
theorem binaryResult?_equal (l r : Value) :
    Operator.equal.binaryResult? l r = some (.boolean (l == r)) := by
  cases l <;> cases r <;> rfl

theorem binaryResult?_notEqual (l r : Value) :
    Operator.notEqual.binaryResult? l r = some (.boolean (l != r)) := by
  cases l <;> cases r <;> rfl

/-- Any other operator works on two integers, or joins two strings. -/
theorem binaryResult?_data (hequal : operator ≠ .equal) (hnot : operator ≠ .notEqual)
    (h : operator.binaryResult? l r = some v) :
    (∃ m n, l = .integer m ∧ r = .integer n ∧ operator.integerResult? m n = some v) ∨
      operator = .plus ∧ ∃ s t, l = .string s ∧ r = .string t ∧ v = .string (s ++ t) := by
  unfold binaryResult? at h
  split at h
  · exact .inl ⟨_, _, rfl, rfl, h⟩
  · cases h
    exact .inr ⟨rfl, _, _, rfl, rfl, rfl⟩
  · exact absurd rfl hequal
  · exact absurd rfl hnot
  · cases h

variable [StringHash]

/-- The machine computes the same from two integers. -/
theorem integerResult?_result {m n : Int64} (hless : operator ≠ .lessThan)
    (h : operator.integerResult? m n = some v) {i : Instruction}
    (hi : operator.binaryInstruction.toOption = some i) (machine : Machine) :
    i.result? machine [.integer m, .integer n] = some (.ok v) := by
  cases operator with
  | slash =>
      cases hi
      by_cases hn : n = 0
      · simp only [integerResult?, if_pos hn, reduceCtorEq] at h
      · simp only [integerResult?, if_neg hn, Option.some.injEq] at h
        subst h
        simp only [Instruction.result?, Opcode.arithmeticResult, if_neg hn]
  | lessThan => exact absurd rfl hless
  | bang => cases hi
  | _ =>
      cases hi
      cases h
      rfl

theorem binaryResult?_matches (hW : W.OneToOne) (hl : Value.Matches W l l')
    (hr : Value.Matches W r r') (hless : operator ≠ .lessThan)
    (hv : operator.binaryResult? l r = some v) {i : Instruction}
    (hi : operator.binaryInstruction.toOption = some i) (m : Machine) :
    ∃ x, i.result? m [l', r'] = some (.ok x) ∧ Value.Matches W v x := by
  have hsame : (l == r) = (l' == r') := hl.same_eq hW hr
  by_cases hequal : operator = .equal
  · subst hequal
    rw [binaryResult?_equal, hsame] at hv
    cases hv
    cases hi
    exact ⟨_, rfl, .boolean _⟩
  · by_cases hnot : operator = .notEqual
    · subst hnot
      have hdiffer : (l != r) = (l' != r') := congrArg Bool.not hsame
      rw [binaryResult?_notEqual, hdiffer] at hv
      cases hv
      cases hi
      exact ⟨_, rfl, .boolean _⟩
    · rcases binaryResult?_data hequal hnot hv with ⟨m₁, n, rfl, rfl, hresult⟩ |
        ⟨rfl, s, t, rfl, rfl, rfl⟩
      · cases hl
        cases hr
        refine ⟨v, integerResult?_result hless hresult hi m, ?_⟩
        unfold integerResult? at hresult
        split at hresult
        case h_4 =>
          split at hresult
          · cases hresult
          · cases hresult
            exact .integer _
        all_goals cases hresult
        all_goals first | exact .integer _ | exact .boolean _
      · cases hl
        cases hr
        cases hi
        exact ⟨_, rfl, .string _⟩

end Operator

/-- **Operations** on corresponding values have corresponding results. -/
theorem Expr.combine?_matches [StringHash] {W : World} (hW : W.OneToOne) {e : Expr} {es : List Expr} {i : Instruction}
    {vs ws : List Value} {v : Value} (hes : e.operands? = some es) (hi : e.instruction? = some i)
    (hv : e.combine? vs = some v) (h : List.Forall₂ (Value.Matches W) vs ws) (m : Machine) :
    ∃ w, i.result? m ws = some (.ok w) ∧ Value.Matches W v w ∧ i.opcode ≠ .call ∧
      i.closuresMade = 0 := by
  cases e with
  | array elements =>
      cases hi
      cases hv
      exact ⟨_, rfl, .array (Value.matchesAll_iff.mpr h), Opcode.noConfusion, rfl⟩
  | hash pairs =>
      cases hi
      have hv : (Value.hashOfPairs [] (MachineM.pairUp vs)).toOption = some v := hv
      cases hhash : Value.hashOfPairs [] (MachineM.pairUp vs) with
      | error key =>
          rw [hhash] at hv
          cases hv
      | ok u =>
          rw [hhash] at hv
          cases hv
          obtain ⟨w, hw, hmatch⟩ := Value.hashOfPairs_matches (Value.pairUp_matches h) .nil hhash
          refine ⟨w, ?_, hmatch, Opcode.noConfusion, rfl⟩
          simp only [Instruction.result?, Value.hashResult, hw]
  | unary operator operand =>
      rcases h with _ | ⟨hx, _ | ⟨_, _⟩⟩
      · cases hv
      · obtain ⟨w, hw, hmatch⟩ := Operator.unaryResult?_matches hx hv hi m
        refine ⟨w, hw, hmatch, ?_⟩
        cases operator <;> cases hi <;> exact ⟨Opcode.noConfusion, rfl⟩
      · cases hv
  | binary left operator right =>
      obtain ⟨hless, -⟩ := operands?_binary hes
      rcases h with _ | ⟨hl, _ | ⟨hr, _ | ⟨_, _⟩⟩⟩
      · cases hv
      · cases hv
      · obtain ⟨w, hw, hmatch⟩ := Operator.binaryResult?_matches hW hl hr hless hv hi m
        refine ⟨w, hw, hmatch, ?_⟩
        cases operator <;> cases hi <;> exact ⟨Opcode.noConfusion, rfl⟩
      · cases hv
  | index collection key =>
      cases hi
      rcases h with _ | ⟨hc, _ | ⟨hk, _ | ⟨_, _⟩⟩⟩
      · cases hv
      · cases hv
      · rename_i c c' k k'
        have hv : (c.element k).toOption = some v := hv
        cases helement : c.element k with
        | error e =>
            rw [helement] at hv
            cases hv
        | ok u =>
            rw [helement] at hv
            cases hv
            obtain ⟨w, hw, hmatch⟩ := hc.element hk helement
            refine ⟨w, ?_, hmatch, Opcode.noConfusion, rfl⟩
            simp only [Instruction.result?, Value.elementResult, hw]
      · cases hv
  | call => cases h <;> cases hv
  | _ => cases hes

/-! ## Built-in functions -/

namespace Builtin

variable {W : World} {vs ws : List Value}

/-- **Built-in functions** have corresponding results, unless they fail. -/
theorem result_matches (b : Builtin) (h : List.Forall₂ (Value.Matches W) vs ws)
    (hok : (b.result vs).isError = false) : Value.Matches W (b.result vs) (b.result ws) := by
  cases b with
  | puts => exact .null
  | push =>
      rcases h with _ | ⟨hv, _ | ⟨hw, _ | ⟨_, _⟩⟩⟩
      · simp [result, arityError, Value.isError] at hok
      · simp [result, arityError, Value.isError] at hok
      · cases hv with
        | array hvs =>
            apply Value.Matches.array
            apply Value.matchesAll_iff.mpr
            exact List.rel_append (Value.matchesAll_iff.mp hvs) (.cons hw .nil)
        | _ => cases hok
      · simp [result, arityError, Value.isError] at hok
  | rest =>
      rcases h with _ | ⟨hv, _ | ⟨_, _⟩⟩
      · cases hok
      · cases hv with
        | array hvs =>
            cases hvs with
            | nil => exact .null
            | cons _ hrest => exact .array hrest
        | _ => cases hok
      · simp [result, arityError, Value.isError] at hok
  | len =>
      rcases h with _ | ⟨hv, _ | ⟨_, _⟩⟩
      · cases hok
      · cases hv with
        | string s => exact .integer _
        | array hvs =>
            rename_i vs ws
            have hlength : vs.length = ws.length := (Value.matchesAll_iff.mp hvs).length_eq
            show Value.Matches W (.integer (Int64.ofNat vs.length)) (.integer (Int64.ofNat ws.length))
            rw [hlength]
            exact .integer _
        | _ => cases hok
      · simp [result, arityError, Value.isError] at hok
  | first =>
      rcases h with _ | ⟨hv, _ | ⟨_, _⟩⟩
      · cases hok
      · cases hv with
        | array hvs =>
            cases hvs with
            | nil => exact .null
            | cons hfirst _ => exact hfirst
        | _ => cases hok
      · simp [result, arityError, Value.isError] at hok
  | last =>
      rcases h with _ | ⟨hv, _ | ⟨_, _⟩⟩
      · cases hok
      · cases hv with
        | array hvs =>
            rename_i vs ws
            have hall := Value.matchesAll_iff.mp hvs
            show Value.Matches W (vs.getLast?.getD .null) (ws.getLast?.getD .null)
            rw [List.getLast?_eq_getElem?, List.getLast?_eq_getElem?, hall.length_eq]
            exact .getD (Value.MatchesAll.getElem? hall _)
        | _ => cases hok
      · simp [result, arityError, Value.isError] at hok

/-- The arguments that have been printed correspond. -/
def OutputMatches (W : World) (output output' : Output) : Prop :=
  List.Forall₂ (List.Forall₂ (Value.Matches W)) output.toList output'.toList

theorem print_matches (b : Builtin) {output output' : Output}
    (houtput : OutputMatches W output output') (h : List.Forall₂ (Value.Matches W) vs ws) :
    OutputMatches W (b.print vs output) (b.print ws output') := by
  cases b with
  | puts =>
      unfold OutputMatches print
      rw [Array.toList_push, Array.toList_push]
      exact List.rel_append houtput (.cons h .nil)
  | _ => exact houtput

end Builtin

end ScriptLang
