import ScriptLang.Proofs.Refinement.Reordering

/-!
# Simulation of expressions

`Simulates` says of a single evaluation that the machine follows it. Here is one lemma for each way in which
an expression is made of its parts: if the machine follows the evaluations of the parts, it follows that of
the whole (`Simulates.operation`, `Simulates.less`, `Simulates.call_function`, `Simulates.if_true` and so
on). A name and a literal have no parts.
-/

namespace ScriptLang

open Machine (Moves Works Returns)
open EvalM (enterCall leaveCall lookup?)
open Symbols (Knows Adds Found Clean)

/-! ## The code of a part

What the layout says of each kind of part, read backwards: from the code of the whole to that of its parts. -/

section

variable {c c' : Compiler} {offset : Nat} {is : Instructions}

theorem Emits.of_identifier {name : String} (h : Emits (.expr (.identifier name)) c offset is c') :
    ∃ symbol symbols, c.symbols.resolve? name = some (symbol, symbols) ∧
      is = [symbol.loadInstruction] ∧ c' = { c with symbols } := by
  cases h with
  | identifier hresolve => exact ⟨_, _, hresolve, rfl, rfl⟩
  | constant hv => cases hv
  | operation hes => cases hes

/-- A literal that loads a constant has no operands. -/
theorem Expr.operands?_of_constant {e : Expr} {v : Value} (h : e.constant? = some v) :
    e.operands? = none := by
  cases e <;> first | rfl | cases h

theorem Emits.of_constant {e : Expr} {v : Value} (he : e.constant? = some v)
    (h : Emits (.expr e) c offset is c') :
    is = [.constant c.constants.size] ∧ c' = { c with constants := c.constants.push v } := by
  cases h with
  | constant hv =>
      rw [he] at hv
      cases hv
      exact ⟨rfl, rfl⟩
  | operation hes =>
      rw [Expr.operands?_of_constant he] at hes
      cases hes
  | _ => cases he

theorem Emits.of_boolean {value : Bool} (h : Emits (.expr (.boolean value)) c offset is c') :
    is = [if value then .true else .false] ∧ c' = c := by
  cases h with
  | boolean => exact ⟨rfl, rfl⟩
  | constant hv => cases hv
  | operation hes => cases hes

/-- The code of an operation is that of its operands and one instruction. -/
theorem Emits.of_operation {e : Expr} {es : List Expr} (he : e.operands? = some es)
    (h : Emits (.expr e) c offset is c') :
    ∃ js i, e.instruction? = some i ∧ Emits (.exprs es) c offset js c' ∧ is = js ++ [i] := by
  cases h with
  | operation hes hi hemits =>
      rw [he] at hes
      cases hes
      exact ⟨_, _, hi, hemits, rfl⟩
  | less => exact absurd rfl (Expr.operands?_binary he).1
  | constant hv =>
      rw [Expr.operands?_of_constant hv] at he
      cases he
  | _ => cases he

theorem Emits.of_less {left right : Expr} (h : Emits (.expr (.binary left .lessThan right)) c offset is c') :
    ∃ js, Emits (.exprs [right, left]) c offset js c' ∧ is = js ++ [.greaterThan] := by
  cases h with
  | operation hes => exact absurd rfl (Expr.operands?_binary hes).1
  | less hemits => exact ⟨_, hemits, rfl⟩
  | constant hv => cases hv

theorem Emits.of_if {condition : Expr} {consequence : List Stmt} {alternative : Option (List Stmt)}
    (h : Emits (.expr (.if condition consequence alternative)) c offset is c') :
    ∃ c₁ c₂ js ks ls start, Emits (.expr condition) c offset js c₁ ∧
      Emits (.branch consequence) c₁ (offset + Instructions.size js + 3) ks c₂ ∧
      start = offset + Instructions.size js + 3 + Instructions.size ks + 3 ∧
      Emits (.branch (alternative.getD [])) c₂ start ls c' ∧
      is = js ++ .jumpNotTruthy start :: (ks ++ .jump (start + Instructions.size ls) :: ls) := by
  cases h with
  | «if» h₁ h₂ hstart h₃ => exact ⟨_, _, _, _, _, _, h₁, h₂, hstart, h₃, rfl⟩
  | operation hes => cases hes
  | constant hv => cases hv

theorem Emits.of_function {name : Option String} {parameters : List String} {body : List Stmt}
    (h : Emits (.expr (.function name parameters body)) c offset is c') :
    ∃ js cb, Emits (.body body) { c with symbols := c.symbols.openFunction name parameters } 0 js cb ∧
      (∀ i ∈ js, i.Fits) ∧ c' = cb.closed js parameters.length ∧
      is = cb.symbols.inner.captures.map Symbol.loadInstruction ++
        [.closure cb.constants.size cb.symbols.inner.captures.length] := by
  cases h with
  | function hbody hfits => exact ⟨_, _, hbody, hfits, rfl, rfl⟩
  | operation hes => cases hes
  | constant hv => cases hv

theorem Emits.of_let {name : String} {value : Expr} (h : Emits (.stmt (.let name value)) c offset is c') :
    ∃ js c₁, Emits (.expr value) c offset js c₁ ∧
      is = js ++ [(c₁.symbols.definedSymbol name).storeInstruction] ∧
      c' = { c₁ with symbols := c₁.symbols.define name } := by
  cases h with
  | «let» hvalue => exact ⟨_, _, hvalue, rfl, rfl⟩

end

/-! ## Two parts, one behind the other -/

/-- A part is two parts, and so is its code. -/
structure Part.Sequence (P P₁ P₂ : Part) : Prop extends P.Splits P₁ P₂ where
  emits : ∀ {c c' : Compiler} {offset : Nat} {is : Instructions}, Emits P c offset is c' →
    ∃ c₁ is₁ is₂, is = is₁ ++ is₂ ∧ Emits P₁ c offset is₁ c₁ ∧
      Emits P₂ c₁ (offset + Instructions.size is₁) is₂ c'

namespace Part

theorem sequence_exprs (e : Expr) (es : List Expr) : Sequence (.exprs (e :: es)) (.expr e) (.exprs es) where
  binders := fun _ => rfl
  allowed := fun _ => Part.isAllowed_split rfl rfl
  named := Bool.and_eq_true_iff.mp
  emits := by
    intro c c' offset is h
    cases h with
    | exprs_cons h₁ h₂ => exact ⟨_, _, _, rfl, h₁, h₂⟩

theorem sequence_stmts (s : Stmt) (ss : List Stmt) : Sequence (.stmts (s :: ss)) (.stmt s) (.stmts ss) where
  binders := fun _ => rfl
  allowed := fun _ => Part.isAllowed_split rfl rfl
  named := Bool.and_eq_true_iff.mp
  emits := by
    intro c c' offset is h
    cases h with
    | stmts_cons h₁ h₂ => exact ⟨_, _, _, rfl, h₁, h₂⟩

theorem sequence_branch {s : Stmt} {ss : List Stmt} (hs : ss = [] → s.isExpr = false) :
    Sequence (.branch (s :: ss)) (.stmt s) (.branch ss) where
  binders := fun _ => rfl
  allowed := fun _ => Part.isAllowed_split rfl rfl
  named := Bool.and_eq_true_iff.mp
  emits := by
    intro c c' offset is h
    cases h with
    | branch_cons _ h₁ h₂ => exact ⟨_, _, _, rfl, h₁, h₂⟩
    | branch_value => cases hs rfl

theorem sequence_body {s : Stmt} {ss : List Stmt}
    (hs : ss = [] → s.isExpr = false ∧ s.returnsValue = false) :
    Sequence (.body (s :: ss)) (.stmt s) (.body ss) where
  binders := fun _ => rfl
  allowed := fun _ => Part.isAllowed_split rfl rfl
  named := Bool.and_eq_true_iff.mp
  emits := by
    intro c c' offset is h
    cases h with
    | body_cons _ h₁ h₂ => exact ⟨_, _, _, rfl, h₁, h₂⟩
    | body_value => cases (hs rfl).1
    | body_return => cases (hs rfl).2

end Part

theorem Agenda.done_of_ne {agenda : Agenda} {scope l : Nat} {names : List String} {x : String}
    (h : agenda l x) (hl : l ≠ scope) : agenda.done scope names l x := ⟨h, fun heq => absurd heq hl⟩

/-- **The machine follows the evaluator** through a part of a program, or it runs out of stack. -/
def Simulates [StringHash] (p : Plan) (P : Part) (scope : Nat) (st : Evaluator) (o : Outcome)
    (st' : Evaluator) : Prop :=
  ∀ ⦃W : World⦄ ⦃agenda : Agenda⦄ ⦃running : Option Birth⦄ ⦃c c' : Compiler⦄ ⦃outer : List Nat⦄
    ⦃is : Instructions⦄ ⦃m : Machine⦄,
    Task p running scope outer m.code P agenda c m.frame.ip is c' → W.Apart st st' →
    Agree p W agenda running c scope outer st m →
    m.Overflows ∨ Follows p W (agenda.done scope (P.binders false)) running c' scope outer st m P.height
      (m.frame.ip + Instructions.size is) o st'

section

variable {p : Plan} {P P₁ P₂ : Part} {scope : Nat} {st st₁ st₂ : Evaluator} {v : Value} {vs vs₁ : List Value}
  {o : Outcome}

section

variable [StringHash]

/-- A `return` in the first one of two parts. -/
theorem Simulates.first_returns (hP : P.Sequence P₁ P₂) (h₁ : Simulates p P₁ scope st (.returned v) st₁) :
    Simulates p P scope st (.returned v) st₁ := by
  intro W agenda running c c' outer is m t happart hagree
  obtain ⟨c₁, is₁, is₂, rfl, hemits₁, hemits₂⟩ := hP.emits t.emits
  obtain ⟨t₁, -⟩ := t.pair hP.toSplits hemits₁ hemits₂
  rcases h₁ t₁ happart hagree with hover | ⟨W₁, m₁, hleaves⟩
  · exact .inl hover
  · refine .inr ⟨W₁, m₁, hleaves.grown, hleaves.returns, ?_, hleaves.values⟩
    exact hleaves.births.anti fun l x hx => ⟨Agenda.done_of_ne hx.1.1 hx.2, hx.2⟩

/-- One part behind another that leaves nothing on the stack. -/
theorem Simulates.after (hP : P.Sequence P₁ P₂) (hheight₁ : P₁.height = 0)
    (hheight : P.height = P₂.height) (h₁ : Simulates p P₁ scope st (.values vs₁) st₁)
    (h₂ : Simulates p P₂ scope st₁ o st₂)
    (hle₂ : st₁.functionsMade ≤ st₂.functionsMade) : Simulates p P scope st o st₂ := by
  intro W agenda running c c' outer is m t happart hagree
  obtain ⟨c₁, is₁, is₂, rfl, hemits₁, hemits₂⟩ := hP.emits t.emits
  obtain ⟨t₁, t₂⟩ := t.pair hP.toSplits hemits₁ hemits₂
  rcases h₁ t₁ (happart.left hle₂) hagree with hover | ⟨W₁, m₁, hcont₁⟩
  · exact .inl hover
  rw [hheight₁] at hcont₁
  rcases h₂ (hcont₁.task t₂) (happart.right hcont₁.grown) hcont₁.agree with hover | hfollows
  · exact .inl (hover.of_reaches hcont₁.reaches)
  rw [hcont₁.moves.ip_eq, Nat.add_assoc, ← Instructions.size_append] at hfollows
  rw [hP.binders, hheight]
  cases o with
  | values vs =>
      obtain ⟨W₂, m₂, hcont₂⟩ := hfollows
      exact .inr ⟨W₂, m₂, (hcont₁.after hcont₂).anti fun l x hx => Agenda.done_append.mp hx⟩
  | returned v =>
      obtain ⟨W₂, m₂, hleaves⟩ := hfollows
      exact .inr ⟨W₂, m₂, hcont₁.leaves hleaves hagree.active.room
        fun l x hx _ => Agenda.done_append.mp hx⟩

/-- Expressions, one behind the other, leave their values on the stack. -/
theorem Simulates.exprs_cons {e : Expr} {es : List Expr}
    (h₁ : Simulates p (.expr e) scope st (.values [v]) st₁)
    (h₂ : Simulates p (.exprs es) scope st₁ (.values vs) st₂)
    (hle₂ : st₁.functionsMade ≤ st₂.functionsMade) :
    Simulates p (.exprs (e :: es)) scope st (.values (v :: vs)) st₂ := by
  intro W agenda running c c' outer is m t happart hagree
  have hP := Part.sequence_exprs e es
  obtain ⟨c₁, is₁, is₂, rfl, hemits₁, hemits₂⟩ := hP.emits t.emits
  obtain ⟨t₁, t₂⟩ := t.pair hP.toSplits hemits₁ hemits₂
  rcases h₁ t₁ (happart.left hle₂) hagree with hover | ⟨W₁, m₁, hcont₁⟩
  · exact .inl hover
  rcases h₂ (hcont₁.task t₂) (happart.right hcont₁.grown) hcont₁.agree with hover | ⟨W₂, m₂, hcont₂⟩
  · exact .inl (hover.of_reaches hcont₁.reaches)
  have hboth := hcont₁.concat hcont₂ hagree.active.room rfl
  rw [hcont₁.moves.ip_eq, Nat.add_assoc, ← Instructions.size_append] at hboth
  have hheight : (Part.exprs (e :: es)).height = 1 + (Part.exprs es).height := Nat.add_comm _ _
  rw [hP.binders, hheight]
  exact .inr ⟨W₂, m₂, hboth.anti fun l x hx => Agenda.done_append.mp hx⟩

/-- A `return` in one of the expressions behind the first one. -/
theorem Simulates.exprs_tail {e : Expr} {es : List Expr} {w : Value}
    (h₁ : Simulates p (.expr e) scope st (.values [v]) st₁)
    (h₂ : Simulates p (.exprs es) scope st₁ (.returned w) st₂)
    (hle₂ : st₁.functionsMade ≤ st₂.functionsMade) :
    Simulates p (.exprs (e :: es)) scope st (.returned w) st₂ := by
  intro W agenda running c c' outer is m t happart hagree
  have hP := Part.sequence_exprs e es
  obtain ⟨c₁, is₁, is₂, rfl, hemits₁, hemits₂⟩ := hP.emits t.emits
  obtain ⟨t₁, t₂⟩ := t.pair hP.toSplits hemits₁ hemits₂
  rcases h₁ t₁ (happart.left hle₂) hagree with hover | ⟨W₁, m₁, hcont₁⟩
  · exact .inl hover
  rcases h₂ (hcont₁.task t₂) (happart.right hcont₁.grown) hcont₁.agree with hover | ⟨W₂, m₂, hleaves⟩
  · exact .inl (hover.of_reaches hcont₁.reaches)
  rw [hP.binders]
  exact .inr ⟨W₂, m₂, hcont₁.leaves hleaves hagree.active.room fun l x hx _ => Agenda.done_append.mp hx⟩

/-! ## Names and literals -/

omit [StringHash] in
/-- Nothing is bound by a part that binds no name. -/
theorem Agenda.done_nil {agenda : Agenda} {l : Nat} {x : String} (h : agenda l x) :
    agenda.done scope [] l x := ⟨h, fun _ => List.not_mem_nil⟩

/-- An instruction that puts a value on the stack. -/
theorem Agree.push {W : World} {agenda : Agenda} {running : Option Birth} {c : Compiler}
    {outer : List Nat} {m : Machine} {i : Instruction} {w : Value} {st : Evaluator}
    (hagree : Agree p W agenda running c scope outer st m) (hbounded : Bounded p running c)
    (hholds : m.code.Holds m.frame.ip [i]) (hpops : i.pops = 0)
    (hresult : i.result? m [] = some (.ok w)) (hmatch : Value.Matches W v w) (hcall : i.opcode ≠ .call)
    (hmade : i.closuresMade = 0) :
    m.Overflows ∨ ∃ m', Continues p W W (agenda.done scope []) running c scope outer st st m m' 1
      (m.frame.ip + Instructions.size [i]) [v] := by
  have hrefl : Continues p W W agenda running c scope outer st st m m i.pops m.frame.ip [] := by
    rw [hpops]
    exact .refl hagree
  have hoperands : i.result? m (m.window m.top i.pops) = some (.ok w) := by
    rw [hpops]
    exact hresult
  rcases hrefl.operate hbounded hagree.active.room hholds hoperands hmatch hcall hmade with
    hover | ⟨m₁, hcont⟩
  · exact .inl hover
  · rw [Instructions.size_cons, Instructions.size_nil, Nat.add_zero]
    exact .inr ⟨m₁, hcont.anti fun _ _ h => h.1⟩

/-- **A name** has the same value in both engines. -/
theorem Simulates.identifier (hp : p.Valid) {name : String}
    (hvalue : lookup? st.scopes name (scope + 1) scope = some v ∨
      lookup? st.scopes name (scope + 1) scope = none ∧
        ∃ b, Builtin.ofName? name = some b ∧ v = .builtin b) :
    Simulates p (.expr (.identifier name)) scope st (.values [v]) st := by
  intro W agenda running c c' outer is m t happart hagree
  obtain ⟨symbol, symbols, hresolve, rfl, rfl⟩ := t.emits.of_identifier
  obtain ⟨hsound, -, -, hfound⟩ := Symbols.resolve?_spec hresolve t.sound
  have hagree' := hagree.compile t.toScoped t.adds hsound t.grows.2 fun _ => rfl
  have hclean : Clean symbols.tables := t.adds.clean t.fresh.tabled nofun
  obtain ⟨w, hload⟩ := Active.load hp hagree'.births hagree'.values hagree'.active hagree'.tidy t.bounded
    hclean hfound
  have hmatch : Value.Matches W v w := by
    rw [hagree.active.chained.lookup?_eq (Nat.lt_succ_self _)] at hvalue
    rcases hvalue with hbound | ⟨hnone, b, hb, rfl⟩
    · exact hload.bound v hbound
    · exact hload.builtin hnone b hb
  obtain ⟨hcall, hmade⟩ := symbol.loadInstruction_opcode
  rcases hagree'.push t.bounded t.holds symbol.loadInstruction_pops.1 hload.result hmatch hcall hmade with
    hover | ⟨m₁, hcont⟩
  · exact .inl hover
  · exact .inr ⟨W, m₁, hcont⟩

omit [StringHash] in
theorem Expr.constant?_matches {e : Expr} (he : e.constant? = some v) (W : World) :
    Value.Matches W v v ∧ ∀ deep, e.binders deep = [] := by
  cases e with
  | integer value =>
      cases he
      exact ⟨.integer _, fun _ => rfl⟩
  | string contents =>
      cases he
      exact ⟨.string _, fun _ => rfl⟩
  | _ => cases he

theorem Simulates.constant {e : Expr} (he : e.constant? = some v) :
    Simulates p (.expr e) scope st (.values [v]) st := by
  intro W agenda running c c' outer is m t happart hagree
  obtain ⟨rfl, rfl⟩ := t.emits.of_constant he
  obtain ⟨hmatch, hbinders⟩ := Expr.constant?_matches he W
  have hagree' := hagree.compile t.toScoped t.adds t.grows.1 t.grows.2 fun _ => hbinders false
  have hconstant : m.bytecode.constants[c.constants.size]? = some v := by
    rw [hagree.values.constants]
    exact getElem?_of_isPrefix t.bounded.covers.constants Array.getElem?_push_size
  have hresult : (Instruction.constant c.constants.size).result? m [] = some (.ok v) := by
    simp only [Instruction.result?, hconstant, Option.map_some]
  rcases hagree'.push t.bounded t.holds rfl hresult hmatch Opcode.noConfusion rfl with hover | ⟨m₁, hcont⟩
  · exact .inl hover
  · rw [show Part.binders false (.expr e) = [] from hbinders false]
    exact .inr ⟨W, m₁, hcont⟩

theorem Simulates.boolean {value : Bool} :
    Simulates p (.expr (.boolean value)) scope st (.values [.boolean value]) st := by
  intro W agenda running c c' outer is m t happart hagree
  obtain ⟨rfl, rfl⟩ := t.emits.of_boolean
  have hholds := t.holds
  have hpush : m.Overflows ∨ ∃ m', Continues p W W (agenda.done scope []) running c' scope outer st st m m'
      1 (m.frame.ip + Instructions.size [if value then .true else .false]) [.boolean value] := by
    cases value with
    | true => exact hagree.push t.bounded hholds rfl rfl (.boolean _) Opcode.noConfusion rfl
    | false => exact hagree.push t.bounded hholds rfl rfl (.boolean _) Opcode.noConfusion rfl
  rcases hpush with hover | ⟨m₁, hcont⟩
  · exact .inl hover
  · exact .inr ⟨W, m₁, hcont⟩

/-- **A function literal** makes a function and the closure that corresponds to it. -/
theorem Simulates.function (hp : p.Valid) {name : Option String} {parameters : List String}
    {body : List Stmt} :
    Simulates p (.expr (.function name parameters body)) scope st
      (.values [.function st.functionsMade parameters body scope])
      { st with functionsMade := st.functionsMade + 1 } := by
  intro W agenda running c c' outer is m t happart hagree
  obtain ⟨js, cb, hbody, hfits, rfl, rfl⟩ := t.emits.of_function
  obtain ⟨hname, hnamed⟩ := Bool.and_eq_true_iff.mp t.named
  obtain rfl : name = none := of_decide_eq_true hname
  have l : Literal p running scope outer agenda c none parameters body js cb :=
    ⟨t.toScoped, hbody, hfits, nofun, nofun, t.allowed, hnamed⟩
  rcases hagree.function hp l happart t.holds with hover | ⟨W₁, m₁, hcont⟩
  · exact .inl hover
  · exact .inr ⟨W₁, m₁, hcont.anti fun _ _ => Agenda.done_le⟩

/-! ## Operations -/

omit [StringHash] in
/-- The operands of an operation are executed in front of its instruction. -/
theorem Task.operands {running : Option Birth} {outer : List Nat} {code : Code} {agenda : Agenda}
    {c c' : Compiler} {offset : Nat} {js : Instructions} {i : Instruction} {e : Expr} {es : List Expr}
    (t : Task p running scope outer code (.expr e) agenda c offset (js ++ [i]) c')
    (hes : e.operands? = some es) (hemits : Emits (.exprs es) c offset js c') :
    Task p running scope outer code (.exprs es) agenda c offset js c' :=
  t.inner (Expr.binders_operands hes) (Expr.isAllowed_operands hes) (Expr.isNamed_operands hes) hemits
    t.holds.left

/-- **An operation** combines the values of its operands. -/
theorem Simulates.operation {e : Expr} {es : List Expr} (hes : e.operands? = some es)
    (h : Simulates p (.exprs es) scope st (.values vs) st₁) (hv : e.combine? vs = some v)
    (hlength : vs.length = es.length) : Simulates p (.expr e) scope st (.values [v]) st₁ := by
  intro W agenda running c c' outer is m t happart hagree
  obtain ⟨js, i, hi, hemits, rfl⟩ := t.emits.of_operation hes
  have t₁ := t.operands hes hemits
  rcases h t₁ happart hagree with hover | ⟨W₁, m₁, hcont⟩
  · exact .inl hover
  obtain ⟨hpops, -, -⟩ := Expr.instruction?_pops hi hes
  have hvalues := hcont.values
  rw [hlength, ← hpops] at hvalues
  obtain ⟨w, hresult, hmatch, hcall, hmade⟩ :=
    Expr.combine?_matches hcont.agree.births.oneToOne hes hi hv hvalues m₁
  rw [show (Part.exprs es).height = i.pops from hpops.symm] at hcont
  rcases hcont.operate t.bounded hagree.active.room t.holds.right hresult hmatch hcall hmade with
    hover | ⟨m₂, hcont₂⟩
  · exact .inl hover
  · rw [Nat.add_assoc] at hcont₂
    rw [show Part.binders false (.expr e) = Part.binders false (.exprs es) from
      Expr.binders_operands hes false, Instructions.size_append, Instructions.size_cons,
      Instructions.size_nil, Nat.add_zero]
    exact .inr ⟨W₁, m₂, hcont₂⟩

theorem Simulates.operation_return {e : Expr} {es : List Expr} (hes : e.operands? = some es)
    (h : Simulates p (.exprs es) scope st (.returned v) st₁) :
    Simulates p (.expr e) scope st (.returned v) st₁ := by
  intro W agenda running c c' outer is m t happart hagree
  obtain ⟨js, i, hi, hemits, rfl⟩ := t.emits.of_operation hes
  have t₁ := t.operands hes hemits
  rw [show Part.binders false (.expr e) = Part.binders false (.exprs es) from
    Expr.binders_operands hes false]
  exact h t₁ happart hagree

/-! ## Calls -/

theorem Simulates.call_builtin {callee : Expr} {es : List Expr} {b : Builtin}
    (h : Simulates p (.exprs (callee :: es)) scope st (.values (.builtin b :: vs)) st₁)
    (hlength : vs.length = es.length) (hok : (b.result vs).isError = false) :
    Simulates p (.expr (.call callee es)) scope st (.values [b.result vs])
      { st₁ with output := b.print vs st₁.output } := by
  intro W agenda running c c' outer is m t happart hagree
  obtain ⟨js, i, hi, hemits, rfl⟩ := t.emits.of_operation rfl
  cases hi
  have t₁ := t.operands rfl hemits
  rcases h t₁ happart hagree with hover | ⟨W₁, m₁, hcont⟩
  · exact .inl hover
  rcases hcont.call_builtin (n := es.length) hlength.symm t.bounded hagree.active.room t.holds.right hok with
    hover | ⟨m₂, hcont₂⟩
  · exact .inl hover
  · rw [Nat.add_assoc] at hcont₂
    rw [Instructions.size_append, Instructions.size_cons, Instructions.size_nil, Nat.add_zero]
    exact .inr ⟨W₁, m₂, hcont₂⟩

/-- **A call of a function** runs the code of its closure. -/
theorem Simulates.call_function {callee : Expr} {es : List Expr} {identity home : Nat}
    {parameters : List String} {body : List Stmt}
    (h : Simulates p (.exprs (callee :: es)) scope st
      (.values (.function identity parameters body home :: vs)) st₁)
    (hlength : vs.length = es.length) (hparameters : vs.length = parameters.length)
    (hdepth : st₁.depth < maxCallDepth)
    (hbody : Simulates p (.body body) st₁.scopes.size (enterCall parameters vs home st₁) (.returned v) st₂)
    (hframe : Evaluator.Frame st₁.scopes.size (enterCall parameters vs home st₁) st₂) :
    Simulates p (.expr (.call callee es)) scope st (.values [v])
      (leaveCall st₁.scopes.size st₁.functionsMade st₂) := by
  intro W agenda running c c' outer is m t happart hagree
  obtain ⟨js, i, hi, hemits, rfl⟩ := t.emits.of_operation rfl
  cases hi
  have t₁ := t.operands rfl hemits
  have hle : st₁.functionsMade ≤ st₂.functionsMade := hframe.functionsMade
  rcases h t₁ (happart.left hle) hagree with hover | ⟨W₁, m₁, hcont⟩
  · exact .inl hover
  rcases hcont.enter (n := es.length) hlength.symm hparameters hdepth t.holds.right with
    hover | ⟨b, m₂, hmem, rfl, rfl, rfl, hargs, henters⟩
  · exact .inl hover
  have htop : es.length + 1 ≤ m₁.top := by
    rw [hcont.top]
    exact Nat.le_add_left _ _
  have hagree₂ := hcont.agree.enter hmem htop hlength.symm hparameters hargs henters
  have t₂ := hcont.agree.births.task hmem henters
  have hgrown : W.Grown W₁ st (enterCall b.parameters vs b.scope st₁) m m₁ := hcont.grown
  rcases hbody t₂ (happart.right hgrown) hagree₂ with hover | ⟨W₂, m₃, hleaves⟩
  · exact .inl (hover.of_reaches (hcont.reaches.trans henters.reaches))
  have hopened := hleaves.anti fun l x hx hne => Agenda.done_of_ne hx hne
  have hcont₃ := hcont.leave t.bounded hagree.active.room henters hopened hframe
  rw [Nat.add_assoc] at hcont₃
  rw [Instructions.size_append, Instructions.size_cons, Instructions.size_nil, Nat.add_zero]
  exact .inr ⟨W₂, m₃, hcont₃⟩

end

/-! ## Comparisons -/

section

variable {running : Option Birth} {outer : List Nat} {code : Code} {agenda : Agenda} {c c' : Compiler}
  {offset : Nat} {js : Instructions} {left right : Expr}

/-- The operands of `<` are plain or tame, and they contain no `return`. -/
theorem Expr.isAllowed_less {ordered : Bool}
    (h : (Part.expr (.binary left .lessThan right)).isAllowed ordered = true) :
    ((Part.expr left).isAllowed ordered = true ∧ (Part.expr right).isAllowed ordered = true) ∧
      (left.binders false = [] ∧ right.binders false = []) ∧
      (ordered = true → left.isPlain true = true ∧ right.isPlain true = true) ∧
      (ordered = false → left.returns = false ∧ right.returns = false) := by
  cases ordered with
  | true =>
      obtain ⟨hleft, hright⟩ := Bool.and_eq_true_iff.mp h
      exact ⟨⟨left.isPlain_mono hleft, right.isPlain_mono hright⟩,
        ⟨left.binders_of_plain hleft, right.binders_of_plain hright⟩, fun _ => ⟨hleft, hright⟩, nofun⟩
  | false =>
      obtain ⟨hreturns, htame⟩ := Bool.and_eq_true_iff.mp h
      obtain ⟨hleft, hright⟩ := Bool.and_eq_true_iff.mp htame
      have hreturns : (left.returns || right.returns) = false := by simpa using hreturns
      exact ⟨⟨hleft, hright⟩, ⟨left.binders_of_tame hleft, right.binders_of_tame hright⟩, nofun,
        fun _ => Bool.or_eq_false_iff.mp hreturns⟩

/-- The operands of `<` stand in the code the other way round. -/
theorem Task.swap {is : Instructions}
    (t : Task p running scope outer code (.expr (.binary left .lessThan right)) agenda c offset is c')
    (hemits : Emits (.exprs [right, left]) c offset js c') (hholds : code.Holds offset js) :
    Task p running scope outer code (.exprs [right, left]) agenda c offset js c' := by
  have hbinders : ∀ deep, Part.binders deep (.exprs [right, left]) =
      right.binders deep ++ left.binders deep := by
    intro deep
    show right.binders deep ++ (left.binders deep ++ []) = _
    rw [List.append_nil]
  obtain ⟨⟨hleft, hright⟩, -⟩ := Expr.isAllowed_less t.allowed
  obtain ⟨hleft', hright'⟩ := Bool.and_eq_true_iff.mp t.named
  have hallowed : (Part.exprs [right, left]).isAllowed p.ordered = true := by
    cases hordered : p.ordered with
    | true =>
        rw [hordered] at hleft hright
        show (right.isPlain false && (left.isPlain false && true)) = true
        rw [show right.isPlain false = true from hright, show left.isPlain false = true from hleft]
        rfl
    | false =>
        rw [hordered] at hleft hright
        show (right.isTame && (left.isTame && true)) = true
        rw [show right.isTame = true from hright, show left.isTame = true from hleft]
        rfl
  have hnamed : Expr.areNamed [right, left] = true := by
    rw [Expr.areNamed, Expr.areNamed, hleft', hright']
    rfl
  refine ⟨⟨t.sound, t.bounded, ?_, ?_⟩, hemits, hholds, hallowed, hnamed⟩
  · rw [hbinders, hbinders]
    exact t.fresh.swap
  · intro b hb x hx
    rw [hbinders] at hx
    exact t.within b hb (List.perm_append_comm.subset hx)

/-- What is known of the operands of `<`: where their code stands, that they bind nothing, and that their
evaluation leaves the scopes alone. -/
structure Task.Operands (p : Plan) (running : Option Birth) (scope : Nat) (outer : List Nat) (code : Code)
    (agenda : Agenda) (c : Compiler) (offset : Nat) (js : Instructions) (c' : Compiler)
    (left right : Expr) (is₁ is₂ : Instructions) (c₁ : Compiler) : Prop where
  eq : js = is₁ ++ is₂
  first : Task p running scope outer code (.expr right) agenda c offset is₁ c₁
  second : Task p running scope outer code (.expr left) (agenda.done scope []) c₁
    (offset + Instructions.size is₁) is₂ c'
  nothing : left.binders false = [] ∧ right.binders false = []
  plain : p.ordered = true → left.isPlain true = true ∧ right.isPlain true = true
  returns : p.ordered = false → left.returns = false ∧ right.returns = false

/-- The operands of a comparison are executed the other way round. -/
theorem Task.less
    (t : Task p running scope outer code (.expr (.binary left .lessThan right)) agenda c offset is c') :
    ∃ js is₁ is₂ c₁, is = js ++ [.greaterThan] ∧
      Task.Operands p running scope outer code agenda c offset js c' left right is₁ is₂ c₁ := by
  obtain ⟨js, hemits, rfl⟩ := t.emits.of_less
  obtain ⟨-, hnothing, hplain, hreturns⟩ := Expr.isAllowed_less t.allowed
  have t₀ := t.swap hemits t.holds.left
  obtain ⟨c₁, is₁, is₂, rfl, hemits₁, hemits₂⟩ := (Part.sequence_exprs right [left]).emits t₀.emits
  obtain ⟨t₁, t₂⟩ := t₀.pair (Part.sequence_exprs right [left]).toSplits hemits₁ hemits₂
  obtain ⟨c₂, is₂, is₃, rfl, hemits₂, hemits₃⟩ := (Part.sequence_exprs left []).emits hemits₂
  obtain ⟨t₂, -⟩ := t₂.pair (Part.sequence_exprs left []).toSplits hemits₂ hemits₃
  cases hemits₃
  rw [List.append_nil]
  rw [show Part.binders false (.expr right) = [] from hnothing.2] at t₂
  exact ⟨_, is₁, is₂, c₁, rfl, rfl, t₁, t₂, hnothing, hplain, hreturns⟩

end

section

variable {left right : Expr} {l r : Value} {W : World} {agenda : Agenda} {running : Option Birth}
  {c c' c₁ : Compiler} {outer : List Nat} {js is₁ is₂ : Instructions} {m : Machine}

/-- The compiler is behind the right operand, which has not been executed yet. -/
theorem Task.Operands.agree
    (t : Task.Operands p running scope outer m.code agenda c m.frame.ip js c' left right is₁ is₂ c₁)
    (hagree : Agree p W agenda running c scope outer st m) :
    Agree p W (agenda.done scope []) running c₁ scope outer st m :=
  (hagree.compile t.first.toScoped t.first.adds t.first.grows.1 t.first.grows.2
    fun _ => t.nothing.2).anti fun _ _ => Agenda.done_le

variable [StringHash]

/-- The machine computes the operands of `<` the other way round. -/
theorem Simulates.less_operands
    (t : Task.Operands p running scope outer m.code agenda c m.frame.ip js c' left right is₁ is₂ c₁)
    (hleft : Evaluates (.expr left) scope st (.values [l]) st₁)
    (hright : Evaluates (.expr right) scope st₁ (.values [r]) st₂)
    (h₁ : Simulates p (.expr left) scope st (.values [l]) st₁)
    (h₂ : Simulates p (.expr right) scope st₁ (.values [r]) st₂)
    (happart : W.Apart st st₂) (hagree : Agree p W agenda running c scope outer st m) :
    m.Overflows ∨ ∃ W' m', Continues p W W'
      (agenda.done scope (Part.binders false (.expr (.binary left .lessThan right)))) running c' scope outer
      st st₂ m m' 2 (m.frame.ip + Instructions.size js) [r, l] := by
  have hscope := hagree.active.chained.lt_size
  have hext₁ := hleft.extends hscope t.nothing.1
  have hscope₁ := Nat.lt_of_lt_of_le hscope hext₁.size
  have hext₂ := hright.extends hscope₁ t.nothing.2
  have houtput₁ : p.ordered = true → st₁.output = st.output := fun hordered =>
    (hleft.still rfl (t.plain hordered).1).2.1.output
  have houtput₂ : p.ordered = true → st₂.output = st₁.output := fun hordered =>
    (hright.still rfl (t.plain hordered).2).2.1.output
  have hle₁ := (hleft.frame hscope).functionsMade
  have hle₂ := (hright.frame hscope₁).functionsMade
  -- the functions of the left operand have not been made yet
  rcases h₂ t.first (happart.later hle₁) (hagree.later hext₁ houtput₁) with hover | ⟨W₁, m₁, hcont₁⟩
  · exact .inl hover
  rw [show Part.binders false (.expr right) = [] from t.nothing.2] at hcont₁
  have hahead := (t.agree hagree).ahead hcont₁ (hext₁.trans hext₂)
    fun hordered => (houtput₂ hordered).trans (houtput₁ hordered)
  rcases h₁ (hcont₁.task t.second) (happart.left hle₂) hahead with hover | ⟨W₂, m₂, hcont₂⟩
  · exact .inl (hover.of_reaches hcont₁.reaches)
  rw [show Part.binders false (.expr left) = [] from t.nothing.1] at hcont₂
  obtain ⟨new, rfl, -⟩ := hcont₂.grown
  have hmerged := Agree.merge hcont₁ hcont₂ hext₂ houtput₂ fun _ _ => Agenda.done_le
  have hsub : new ++ W ⊆ new ++ W₁ := List.append_subset.mpr ⟨List.subset_append_left _ _,
    List.Subset.trans hcont₁.grown.subset (List.subset_append_right _ _)⟩
  have hboth := hcont₁.join hcont₂ hagree.active.room rfl (List.subset_append_right _ _) hsub
    (hcont₁.grown.swap hcont₂.grown) hmerged
  rw [hcont₁.moves.ip_eq, Nat.add_assoc, ← Instructions.size_append, ← t.eq] at hboth
  refine .inr ⟨_, m₂, hboth.anti fun _ _ hx => ?_⟩
  exact Agenda.done_nil (Agenda.done_nil hx.1)

/-- **A comparison** with `<`. -/
theorem Simulates.less {l r : Int64}
    (hleft : Evaluates (.expr left) scope st (.values [.integer l]) st₁)
    (hright : Evaluates (.expr right) scope st₁ (.values [.integer r]) st₂)
    (h₁ : Simulates p (.expr left) scope st (.values [.integer l]) st₁)
    (h₂ : Simulates p (.expr right) scope st₁ (.values [.integer r]) st₂) :
    Simulates p (.expr (.binary left .lessThan right)) scope st (.values [.boolean (decide (l < r))]) st₂ := by
  intro W agenda running c c' outer is m t happart hagree
  obtain ⟨js, is₁, is₂, c₁, rfl, t'⟩ := t.less
  rcases Simulates.less_operands t' hleft hright h₁ h₂ happart hagree with hover | ⟨W₁, m₁, hcont⟩
  · exact .inl hover
  have hresult : Instruction.greaterThan.result? m₁ (m₁.window m.top 2) =
      some (.ok (.boolean (decide (l < r)))) := by
    have hvalues := hcont.values
    generalize hws : m₁.window m.top ([Value.integer r, Value.integer l]).length = ws at hvalues
    obtain _ | ⟨hr, _ | ⟨hl, hnil⟩⟩ := hvalues
    cases hr
    cases hl
    cases hnil
    rfl
  rcases hcont.operate t.bounded hagree.active.room t.holds.right hresult (.boolean _) Opcode.noConfusion
    rfl with hover | ⟨m₂, hcont₂⟩
  · exact .inl hover
  · rw [Nat.add_assoc] at hcont₂
    rw [Instructions.size_append, Instructions.size_cons, Instructions.size_nil, Nat.add_zero]
    exact .inr ⟨W₁, m₂, hcont₂⟩

/-- There is no `return` in an operand of `<`. -/
theorem Simulates.less_return {e : Expr} {st₀ : Evaluator}
    (h₁ : Evaluates (.expr e) scope st₀ (.returned v) st₁) (he : e = left ∨ e = right) :
    Simulates p (.expr (.binary left .lessThan right)) scope st (.returned v) st₂ := by
  intro W agenda running c c' outer is m t happart hagree
  obtain ⟨-, -, hplain, hreturns⟩ := Expr.isAllowed_less t.allowed
  have hvalues : ∃ vs, Outcome.returned v = .values vs := by
    cases hordered : p.ordered with
    | true =>
        obtain ⟨hleft, hright⟩ := hplain hordered
        exact (h₁.still rfl (he.elim (· ▸ hleft) (· ▸ hright))).1
    | false =>
        obtain ⟨hleft, hright⟩ := hreturns hordered
        exact h₁.exists_values rfl (he.elim (· ▸ hleft) (· ▸ hright))
  obtain ⟨vs, hvs⟩ := hvalues
  cases hvs

end

/-! ## Conditionals -/

/-- The compiler gets over a part that is not executed. -/
theorem Continues.skip [StringHash] {W W₁ : World} {agenda : Agenda} {running : Option Birth}
    {c₁ c₂ : Compiler} {outer : List Nat} {m m₁ : Machine} {height ip offset : Nat} {code : Code}
    {is : Instructions}
    (h₁ : Continues p W W₁ agenda running c₁ scope outer st st₁ m m₁ height ip vs)
    (t : Task p running scope outer code P agenda c₁ offset is c₂)
    (hnothing : p.ordered = false → P.binders false = []) :
    Continues p W W₁ (agenda.done scope (P.binders false)) running c₂ scope outer st st₁ m m₁ height ip vs :=
  Continues.anti ⟨h₁.grown, h₁.moves, h₁.top, h₁.values, h₁.agree.compile t.toScoped t.adds t.grows.1
    t.grows.2 hnothing⟩
    fun _ _ => Agenda.done_le

section

variable {running : Option Birth} {outer : List Nat} {code : Code} {agenda : Agenda} {c c' : Compiler}
  {offset : Nat} {is : Instructions} {condition : Expr} {consequence : List Stmt}
  {alternative : Option (List Stmt)}

/-- The parts of an `if`: its condition, and its branches with a jump behind the first one. -/
structure Task.Branches (p : Plan) (running : Option Birth) (scope : Nat) (outer : List Nat) (code : Code)
    (agenda : Agenda) (c : Compiler) (offset : Nat) (is : Instructions) (c' : Compiler) (condition : Expr)
    (consequence alternative : List Stmt) (js ks ls : Instructions) (c₁ c₂ : Compiler) (start : Nat) :
    Prop where
  first : Task p running scope outer code (.expr condition) agenda c offset js c₁
  choose : code.Holds (offset + Instructions.size js) [.jumpNotTruthy start]
  second : Task p running scope outer code (.branch consequence)
    (agenda.done scope (condition.binders false)) c₁ (offset + Instructions.size js + 3) ks c₂
  jump : code.Holds (offset + Instructions.size js + 3 + Instructions.size ks)
    [.jump (offset + Instructions.size is)]
  third : Task p running scope outer code (.branch alternative)
    ((agenda.done scope (condition.binders false)).done scope (Stmt.bindersAll false consequence)) c₂
    start ls c'
  finish : start + Instructions.size ls = offset + Instructions.size is
  nothing : p.ordered = false → Stmt.bindersAll false consequence = [] ∧ Stmt.bindersAll false alternative = []

/-- The parts of an `if` can be compared, and its branches bind nothing in a tame program. -/
theorem Expr.isAllowed_if {ordered : Bool}
    (h : (Part.expr (.if condition consequence alternative)).isAllowed ordered = true) :
    (Part.expr condition).isAllowed ordered = true ∧ (Part.branch consequence).isAllowed ordered = true ∧
      (Part.branch (alternative.getD [])).isAllowed ordered = true ∧
      (ordered = false → Stmt.bindersAll false consequence = [] ∧
        Stmt.bindersAll false (alternative.getD []) = []) := by
  cases ordered with
  | true =>
      have h : (Expr.if condition consequence alternative).isPlain false = true := h
      rw [Expr.isPlain_if] at h
      obtain ⟨hcondition, hbranches⟩ := Bool.and_eq_true_iff.mp (Bool.and_eq_true_iff.mp h).2
      obtain ⟨hconsequence, halternative⟩ := Bool.and_eq_true_iff.mp hbranches
      exact ⟨hcondition, hconsequence, halternative, nofun⟩
  | false =>
      have h : (Expr.if condition consequence alternative).isTame = true := h
      rw [Expr.isTame_if] at h
      obtain ⟨hcondition, hbranches⟩ := Bool.and_eq_true_iff.mp h
      obtain ⟨hconsequence, halternative⟩ := Bool.and_eq_true_iff.mp hbranches
      obtain ⟨hnothing₁, hconsequence⟩ := Bool.and_eq_true_iff.mp hconsequence
      obtain ⟨hnothing₂, halternative⟩ := Bool.and_eq_true_iff.mp halternative
      exact ⟨hcondition, hconsequence, halternative,
        fun _ => ⟨List.isEmpty_iff.mp hnothing₁, List.isEmpty_iff.mp hnothing₂⟩⟩

/-- The branches of a conditional expression stand behind its condition. -/
theorem Task.branches
    (t : Task p running scope outer code (.expr (.if condition consequence alternative)) agenda c offset is
      c') :
    ∃ js ks ls c₁ c₂ start, Task.Branches p running scope outer code agenda c offset is c' condition
      consequence (alternative.getD []) js ks ls c₁ c₂ start := by
  obtain ⟨c₁, c₂, js, ks, ls, start, h₁, h₂, hstart, h₃, rfl⟩ := t.emits.of_if
  have hscoped := t.toScoped
  have hnamed := t.named
  rw [Part.binders, Part.binders, Expr.binders_if, Expr.binders_if] at hscoped
  rw [Part.isNamed, Expr.isNamed_if] at hnamed
  obtain ⟨hallowed₁, hallowed₂, hallowed₃, hnothing⟩ := Expr.isAllowed_if t.allowed
  obtain ⟨hnamed₁, hnameds⟩ := Bool.and_eq_true_iff.mp hnamed
  obtain ⟨hnamed₂, hnamed₃⟩ := Bool.and_eq_true_iff.mp hnameds
  have hsub₁ := condition.own_sublist.subset
  have hsub₂ := (Stmt.ownAll_sublist consequence).subset
  have hsub₃ := (Stmt.ownAll_sublist (alternative.getD [])).subset
  have hsubs := List.append_subset.mpr ⟨List.subset_append_of_subset_left _ hsub₂,
    List.subset_append_of_subset_right _ hsub₃⟩
  obtain ⟨hsound₁, -⟩ := h₁.grows t.sound
  obtain ⟨hsound₂, hgrows₂⟩ := h₂.grows hsound₁
  obtain ⟨-, hgrows₃⟩ := h₃.grows hsound₂
  have hunknown := hscoped.fresh.unknown
  have hadds₁ := h₁.adds_unnamed t.sound hunknown.left hnamed₁
  have hunknown₁ := hunknown.right hadds₁ hsub₁
  have hadds₂ := h₂.adds_unnamed hsound₁ hunknown₁.left hnamed₂
  have hadds₃ := h₃.adds_unnamed hsound₂ (hunknown₁.right hadds₂ hsub₂) hnamed₃
  have hrest := hscoped.right hsub₁ hsubs hadds₁ hsound₁
  -- the code: the condition, a jump, the consequence, a jump, the alternative
  have hsize : (Instruction.jumpNotTruthy start).size = 3 ∧
      (Instruction.jump (start + Instructions.size ls)).size = 3 := ⟨rfl, rfl⟩
  have hfinish : start + Instructions.size ls = offset + Instructions.size (js ++
      .jumpNotTruthy start :: (ks ++ .jump (start + Instructions.size ls) :: ls)) := by
    rw [Instructions.size_append, Instructions.size_cons, Instructions.size_append, Instructions.size_cons]
    omega
  have hjump := t.holds.right
  have hbranches := hjump.tail
  have hover := hbranches.right
  have halternative := hover.tail
  rw [hsize.1] at hbranches hover halternative
  rw [hsize.2, ← hstart] at halternative
  refine ⟨js, ks, ls, c₁, c₂, start, ⟨?_, h₁, t.holds.left, hallowed₁, hnamed₁⟩, ?_,
    ⟨?_, h₂, hbranches.left, hallowed₂, hnamed₂⟩, ?_, ⟨?_, h₃, halternative, hallowed₃, hnamed₃⟩, hfinish,
    hnothing⟩
  · exact hscoped.left hsub₁ hsubs (hadds₂.trans hadds₃) (hgrows₂.trans hgrows₃)
  · exact hjump.head
  · exact hrest.left hsub₂ hsub₃ hadds₃ hgrows₃
  · rw [← hfinish]
    exact hover.head
  · exact hrest.right hsub₂ hsub₃ hadds₂ hsound₂

end

section

variable {condition : Expr} {consequence : List Stmt} {alternative : Option (List Stmt)}

/-- What an `if` has bound, its parts have bound. -/
theorem Agenda.done_if {agenda : Agenda} {l : Nat} {x : String}
    (h : agenda.done scope ((Expr.if condition consequence alternative).binders false) l x) :
    ((agenda.done scope (condition.binders false)).done scope (Stmt.bindersAll false consequence)).done
      scope (Stmt.bindersAll false (alternative.getD [])) l x := by
  rw [Expr.binders_if] at h
  exact done_append.mp (done_append.mp h)

/-- An outcome that is no `return` has so many values. -/
def Outcome.HasLength (n : Nat) : Outcome → Prop
  | .values vs => vs.length = n
  | .returned _ => True

variable [StringHash]

/-- The consequence is executed, and the machine jumps over the alternative. -/
theorem Simulates.if_true (h₁ : Simulates p (.expr condition) scope st (.values [v]) st₁)
    (hv : v.isTruthy = true) (h₂ : Simulates p (.branch consequence) scope st₁ o st₂)
    (hle : st₁.functionsMade ≤ st₂.functionsMade) (ho : o.HasLength 1) :
    Simulates p (.expr (.if condition consequence alternative)) scope st o st₂ := by
  intro W agenda running c c' outer is m t happart hagree
  obtain ⟨js, ks, ls, c₁, c₂, start, t'⟩ := t.branches
  have hroom := hagree.active.room
  rcases h₁ t'.first (happart.left hle) hagree with hover | ⟨W₁, m₁, hcont₁⟩
  · exact .inl hover
  obtain ⟨m₂, hcont₂⟩ := hcont₁.jumpNotTruthy t'.first.bounded hroom t'.choose
  rw [if_pos hv] at hcont₂
  rcases h₂ (hcont₂.task t'.second) (happart.right hcont₂.grown) hcont₂.agree with hover | hfollows
  · exact .inl (hover.of_reaches hcont₂.reaches)
  rw [hcont₂.moves.ip_eq] at hfollows
  cases o with
  | values vs =>
      obtain ⟨W₂, m₃, hcont₃⟩ := hfollows
      have hcont₄ := (hcont₂.after hcont₃).skip t'.third fun hordered => (t'.nothing hordered).2
      obtain ⟨m₄, hcont₅⟩ := hcont₄.jump t.bounded hroom (Nat.le_of_eq ho) t'.jump
      exact .inr ⟨W₂, m₄, hcont₅.anti fun _ _ => Agenda.done_if⟩
  | returned w =>
      obtain ⟨W₂, m₃, hleaves⟩ := hfollows
      exact .inr ⟨W₂, m₃, hcont₂.leaves hleaves hroom fun _ _ hx _ => (Agenda.done_if hx).1⟩

/-- The machine jumps over the consequence, and the alternative is executed. -/
theorem Simulates.if_false (h₁ : Simulates p (.expr condition) scope st (.values [v]) st₁)
    (hv : v.isTruthy = false) (h₂ : Simulates p (.branch (alternative.getD [])) scope st₁ o st₂)
    (hle : st₁.functionsMade ≤ st₂.functionsMade) :
    Simulates p (.expr (.if condition consequence alternative)) scope st o st₂ := by
  intro W agenda running c c' outer is m t happart hagree
  obtain ⟨js, ks, ls, c₁, c₂, start, t'⟩ := t.branches
  have hroom := hagree.active.room
  rcases h₁ t'.first (happart.left hle) hagree with hover | ⟨W₁, m₁, hcont₁⟩
  · exact .inl hover
  obtain ⟨m₂, hcont₂⟩ := hcont₁.jumpNotTruthy t'.first.bounded hroom t'.choose
  rw [hv, if_neg Bool.false_ne_true] at hcont₂
  have hcont₃ := hcont₂.skip t'.second fun hordered => (t'.nothing hordered).1
  rcases h₂ (hcont₃.task t'.third) (happart.right hcont₃.grown) hcont₃.agree with hover | hfollows
  · exact .inl (hover.of_reaches hcont₃.reaches)
  rw [hcont₃.moves.ip_eq, t'.finish] at hfollows
  cases o with
  | values vs =>
      obtain ⟨W₂, m₃, hcont₄⟩ := hfollows
      exact .inr ⟨W₂, m₃, (hcont₃.after hcont₄).anti fun _ _ => Agenda.done_if⟩
  | returned w =>
      obtain ⟨W₂, m₃, hleaves⟩ := hfollows
      exact .inr ⟨W₂, m₃, hcont₃.leaves hleaves hroom fun _ _ hx _ => Agenda.done_if hx⟩

theorem Simulates.if_return (h₁ : Simulates p (.expr condition) scope st (.returned v) st₁) :
    Simulates p (.expr (.if condition consequence alternative)) scope st (.returned v) st₁ := by
  intro W agenda running c c' outer is m t happart hagree
  obtain ⟨js, ks, ls, c₁, c₂, start, t'⟩ := t.branches
  rcases h₁ t'.first happart hagree with hover | ⟨W₁, m₁, hleaves⟩
  · exact .inl hover
  · exact .inr ⟨W₁, m₁, hleaves.anti fun l x hx hne => Agenda.done_of_ne hx.1 hne⟩

end

end

end ScriptLang
