import ScriptLang.Proofs.Refinement.Correspondence

/-!
# Operations that are not defined

Where an operation has no value in the evaluator, the instruction of the machine fails for corresponding
operands. An instruction has a result only for operands of certain kinds, and values that correspond are of
the same kind, functions apart. Main statement: `Expr.combine?_mismatch`.
-/

namespace ScriptLang

/-! ## Instructions that succeed -/

namespace Opcode

variable {op : Opcode} {l r w : Value}

/-- Arithmetic works on two integers, or joins two strings. -/
theorem arithmeticResult_eq_ok (h : op.arithmeticResult l r = .ok w) :
    (∃ m n, l = .integer m ∧ r = .integer n) ∨ op = .add ∧ ∃ s t, l = .string s ∧ r = .string t := by
  unfold arithmeticResult at h
  split at h
  · exact .inl ⟨_, _, rfl, rfl⟩
  · split at h
    · next hadd => exact .inr ⟨hadd, _, _, rfl, rfl⟩
    · cases h
  · cases h

/-- Only integers have an order. -/
theorem greaterThan_eq_ok (h : Opcode.greaterThan.comparisonResult l r = .ok w) :
    ∃ m n, l = .integer m ∧ r = .integer n := by
  unfold comparisonResult at h
  split at h
  · exact ⟨_, _, rfl, rfl⟩
  all_goals contradiction

end Opcode

namespace Value

/-- A hash is built unless one of the keys cannot be one. -/
theorem hashOfPairs_eq_error [StringHash] {pairs : List (Value × Value)} (entries : Dictionary Value)
    (h : ∃ p ∈ pairs, p.1.key? = none) : ∃ key, hashOfPairs entries pairs = .error key := by
  induction pairs generalizing entries with
  | nil =>
      obtain ⟨p, hp, -⟩ := h
      cases hp
  | cons pair pairs ih =>
      obtain ⟨key, value⟩ := pair
      unfold hashOfPairs
      cases hkey : key.key? with
      | none => exact ⟨key, rfl⟩
      | some k =>
          apply ih
          obtain ⟨p, hp, hnone⟩ := h
          rcases List.mem_cons.mp hp with rfl | hp
          · rw [hkey] at hnone
            cases hnone
          · exact ⟨p, hp, hnone⟩

theorem hashResult_eq_error [StringHash] {items : List Value} (h : ∃ p ∈ MachineM.pairUp items, p.1.key? = none) :
    ∃ err, hashResult items = .error err := by
  obtain ⟨key, hkey⟩ := hashOfPairs_eq_error [] h
  exact ⟨_, by rw [hashResult, hkey]⟩

/-- A key among items that stand in turn. -/
theorem mem_pairUp {k v : Value} : ∀ {items rest : List Value}, items.length % 2 = 0 →
    (k, v) ∈ MachineM.pairUp (items ++ k :: v :: rest)
  | [], rest, _ => List.mem_cons_self
  | [_], _, h => absurd h (by simp)
  | key :: value :: items, rest, h =>
      List.mem_cons_of_mem _ (mem_pairUp (by rw [List.length_cons, List.length_cons] at h; omega))

end Value

/-! ## Operations that have no value -/

namespace Operator

variable {W : World} {l l' r r' v w : Value} {operator : Operator} {i : Instruction}

theorem unaryResult?_mismatch [StringHash] (h : Value.Matches W v w) (hnone : operator.unaryResult? v = none)
    (hi : operator.unaryInstruction.toOption = some i) (m : Machine) :
    ∃ err, i.result? m [w] = some (.error err) := by
  cases operator with
  | bang => cases hnone
  | minus =>
      cases hi
      cases h with
      | integer n => cases hnone
      | _ => exact ⟨_, rfl⟩
  | _ => cases hi

/-- The machine has no value for what is not arithmetic in the evaluator. -/
theorem arithmetic_mismatch (op : Opcode) (hl : Value.Matches W l l') (hr : Value.Matches W r r')
    (hnone : operator.binaryResult? l r = none)
    (hintegers : ∀ {m n : Int64} {x : Value}, operator.integerResult? m n = none →
      op.arithmeticResult (.integer m) (.integer n) ≠ .ok x)
    (hadd : op = .add → operator = .plus) : ∃ err, op.arithmeticResult l' r' = .error err := by
  cases hresult : op.arithmeticResult l' r' with
  | error err => exact ⟨err, rfl⟩
  | ok x =>
      rcases Opcode.arithmeticResult_eq_ok hresult with ⟨m, n, rfl, rfl⟩ | ⟨hop, s, t, rfl, rfl⟩
      · cases hl
        cases hr
        exact absurd hresult (hintegers hnone)
      · cases hl
        cases hr
        rw [hadd hop] at hnone
        cases hnone

theorem greaterThan_mismatch (hl : Value.Matches W l l') (hr : Value.Matches W r r')
    (hnone : ∀ m n, l = .integer m → r ≠ .integer n) :
    ∃ err, Opcode.greaterThan.comparisonResult l' r' = .error err := by
  cases hresult : Opcode.greaterThan.comparisonResult l' r' with
  | error err => exact ⟨err, rfl⟩
  | ok x =>
      obtain ⟨m, n, rfl, rfl⟩ := Opcode.greaterThan_eq_ok hresult
      cases hl
      cases hr
      exact absurd rfl (hnone m n rfl)

theorem binaryResult?_mismatch [StringHash] (hl : Value.Matches W l l') (hr : Value.Matches W r r')
    (hless : operator ≠ .lessThan) (hnone : operator.binaryResult? l r = none)
    (hi : operator.binaryInstruction.toOption = some i) (m : Machine) :
    ∃ err, i.result? m [l', r'] = some (.error err) := by
  cases operator with
  | plus =>
      cases hi
      obtain ⟨err, herr⟩ := arithmetic_mismatch .add hl hr hnone nofun fun _ => rfl
      exact ⟨err, congrArg some herr⟩
  | minus =>
      cases hi
      obtain ⟨err, herr⟩ := arithmetic_mismatch .sub hl hr hnone nofun nofun
      exact ⟨err, congrArg some herr⟩
  | asterisk =>
      cases hi
      obtain ⟨err, herr⟩ := arithmetic_mismatch .mul hl hr hnone nofun nofun
      exact ⟨err, congrArg some herr⟩
  | slash =>
      cases hi
      obtain ⟨err, herr⟩ := arithmetic_mismatch .div hl hr hnone
        (by
          intro m n x hnone hok
          by_cases hn : n = 0
          · simp only [Opcode.arithmeticResult, if_pos hn, reduceCtorEq] at hok
          · simp only [integerResult?, if_neg hn, reduceCtorEq] at hnone) nofun
      exact ⟨err, congrArg some herr⟩
  | greaterThan =>
      cases hi
      obtain ⟨err, herr⟩ := greaterThan_mismatch hl hr (by rintro m n rfl rfl; cases hnone)
      exact ⟨err, congrArg some herr⟩
  | equal =>
      rw [binaryResult?_equal] at hnone
      cases hnone
  | notEqual =>
      rw [binaryResult?_notEqual] at hnone
      cases hnone
  | lessThan => exact absurd rfl hless
  | bang => cases hi

end Operator

namespace Value

variable {W : World}

/-- If a key cannot be one, neither can the one that corresponds to it. -/
theorem hashOfPairs_mismatch [StringHash] {ps qs : List (Value × Value)} {entries entries' : Dictionary Value}
    {key : Value} (h : List.Forall₂ (fun p q => Matches W p.1 q.1 ∧ Matches W p.2 q.2) ps qs)
    (herror : hashOfPairs entries ps = .error key) : ∃ key', hashOfPairs entries' qs = .error key' := by
  induction h generalizing entries entries' with
  | nil => cases herror
  | @cons p q ps qs hpq _ ih =>
      obtain ⟨k, v⟩ := p
      obtain ⟨k', v'⟩ := q
      have hkey := hpq.1.key?_eq
      unfold hashOfPairs at herror ⊢
      cases hk : k.key? with
      | none =>
          rw [hk] at hkey
          simp only [← hkey]
          exact ⟨k', rfl⟩
      | some hashKey =>
          rw [hk] at hkey
          simp only [hk] at herror
          simp only [← hkey]
          exact ih herror

variable [StringHash]

theorem Matches.element_mismatch {c c' k k' : Value} (hc : Matches W c c') (hk : Matches W k k')
    (hnone : (c.element k).toOption = none) : ∃ err, c'.elementResult k' = .error err := by
  cases hc with
  | array _ =>
      cases hk with
      | integer => cases hnone
      | _ => exact ⟨_, rfl⟩
  | hash _ =>
      have hkey := hk.key?_eq
      unfold Value.element at hnone
      cases hget : k.key? with
      | some key =>
          simp only [hget] at hnone
          cases hnone
      | none =>
          rw [hget] at hkey
          simp only [elementResult, Value.element, ← hkey]
          exact ⟨_, rfl⟩
  | _ => exact ⟨_, rfl⟩

/-- Only functions of both kinds can be called. -/
theorem Matches.call_mismatch {f g : Value} {ws : List Value} {n : Nat} {m : Machine} (h : Matches W f g)
    (hfunction : f.kind ≠ .function) (hbuiltin : f.kind ≠ .builtin) :
    ∃ err, (Instruction.call n).result? m (g :: ws) = some (.error err) := by
  cases h with
  | builtin => exact absurd rfl hbuiltin
  | function => exact absurd rfl hfunction
  | _ => exact ⟨_, rfl⟩

end Value

/-- **Operations** on corresponding values fail on the machine where they have no value in the evaluator. -/
theorem Expr.combine?_mismatch [StringHash] {W : World} {e : Expr} {es : List Expr} {i : Instruction}
    {vs ws : List Value} (hes : e.operands? = some es) (hi : e.instruction? = some i)
    (hcall : ∀ callee arguments, e ≠ .call callee arguments) (hnone : e.combine? vs = none)
    (h : List.Forall₂ (Value.Matches W) vs ws) (hlength : vs.length = es.length) (m : Machine) :
    ∃ err, i.result? m ws = some (.error err) := by
  cases e with
  | array elements => cases hnone
  | hash pairs =>
      cases hi
      have hnone : (Value.hashOfPairs [] (MachineM.pairUp vs)).toOption = none := hnone
      cases hhash : Value.hashOfPairs [] (MachineM.pairUp vs) with
      | ok u =>
          rw [hhash] at hnone
          cases hnone
      | error key =>
          obtain ⟨key', hkey'⟩ := Value.hashOfPairs_mismatch (Value.pairUp_matches h) hhash
          exact ⟨_, congrArg some (by rw [Value.hashResult, hkey'])⟩
  | unary operator operand =>
      cases hes
      obtain ⟨v, rfl⟩ := List.length_eq_one_iff.mp hlength
      obtain ⟨w, ws, hv, hnil, rfl⟩ := List.forall₂_cons_left_iff.mp h
      cases hnil
      exact Operator.unaryResult?_mismatch hv hnone hi m
  | binary left operator right =>
      obtain ⟨hless, rfl⟩ := operands?_binary hes
      obtain ⟨l, r, rfl⟩ := List.length_eq_two.mp hlength
      rcases h with _ | ⟨hl, _ | ⟨hr, _ | ⟨_, _⟩⟩⟩
      exact Operator.binaryResult?_mismatch hl hr hless hnone hi m
  | index collection key =>
      cases hi
      cases hes
      obtain ⟨c, k, rfl⟩ := List.length_eq_two.mp hlength
      rcases h with _ | ⟨hc, _ | ⟨hk, _ | ⟨_, _⟩⟩⟩
      obtain ⟨err, herr⟩ := hc.element_mismatch hk hnone
      exact ⟨err, congrArg some herr⟩
  | call callee arguments => exact absurd rfl (hcall callee arguments)
  | _ => cases hes

end ScriptLang
