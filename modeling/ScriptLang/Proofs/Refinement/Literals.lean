import ScriptLang.Proofs.Refinement.Progress

/-!
# Function literals

A function literal makes a function in the evaluator, and in the machine a closure out of the values of the
names that it captures. The two correspond from then on: what the closure has captured is what the function
will find, since a name that is bound is not bound again. Main statements:

* `Agree.function` — a literal that no `let` gives a name;
* `Agree.let_function` — a literal together with its `let`, whose name the function knows, too.
-/

namespace ScriptLang

open Machine (Moves Works Returns)
open Symbols (Knows Adds Found Clean)

section

variable {p : Plan} {W : World} {agenda : Agenda} {running : Option Birth} {c c' cb : Compiler}
  {scope : Nat} {outer : List Nat} {st : Evaluator} {m m' : Machine} {own all : List String}
  {name : Option String} {parameters : List String} {body : List Stmt} {js : Instructions}

/-! ## Going on without executing anything -/

/-- No scope binds a name that is unknown yet. -/
theorem Agree.untouched (hagree : Agree p W agenda running c scope outer st m)
    (hscoped : Scoped p running scope outer own all agenda c c') :
    Untouched st.scopes (scope :: outer) all := by
  intro l hl x hx
  rcases List.mem_cons.mp hl with rfl | hl
  · cases hbound : bound? st.scopes l x with
    | none => rfl
    | some v =>
        obtain ⟨symbol, hget, -⟩ := hagree.active.locals x v hbound
        have hknows : Knows c.symbols.tables x := Symbols.knows_cons.mpr (.inl ⟨symbol, hget⟩)
        exact absurd hknows (hscoped.fresh.unknown.unknown x hx)
  · have hrole := hagree.active.role
    cases hrole with
    | main _ _ houter =>
        rw [houter] at hl
        cases hl
    | @call b _ _ houter _ _ _ hmem =>
        rw [houter] at hl
        exact (hagree.births.alive b hmem).apart l hl x (hscoped.within b rfl hx)

/-- The compiler goes on to a place that belongs to the same function. -/
theorem Agree.compile (hagree : Agree p W agenda running c scope outer st m)
    (hscoped : Scoped p running scope outer own all agenda c c')
    (hadds : Adds c.symbols own c'.symbols) (hsound : c'.symbols.Sound) (hgrows : c.Grows c')
    (hnothing : p.ordered = false → own = []) :
    Agree p W agenda running c' scope outer st m := by
  have huntouched := hagree.untouched hscoped
  refine ⟨hagree.births, hagree.values, ?_, hagree.tidy, ?_⟩
  swap
  · intro hordered x hx
    rcases hadds.knows hx with hold | hnew
    · exact hagree.known hordered x hold
    · rw [hnothing hordered] at hnew
      cases hnew
  apply hagree.active.compile hadds hsound hgrows.symbols.nested_eq
  · intro x hx l hl
    exact huntouched l (List.mem_cons_of_mem _ hl) x (hscoped.fresh.own_subset hx)
  · intro x symbol hget hplace
    rcases hadds.new x symbol hget with hold | ⟨hown, -⟩ | ⟨hfree, -⟩
    · exact .inl hold
    · exact .inr hown
    · rw [hfree] at hplace
      cases hplace

theorem Agree.anti {agenda' : Agenda} (hagree : Agree p W agenda running c scope outer st m)
    (hle : ∀ l x, agenda' l x → agenda l x) : Agree p W agenda' running c scope outer st m :=
  ⟨hagree.births.anti hle, hagree.values, hagree.active, hagree.tidy, hagree.known⟩

/-! ## Captured values -/

theorem Symbol.loadInstruction_opcode (symbol : Symbol) : symbol.loadInstruction.opcode ≠ .call ∧
    symbol.loadInstruction.closuresMade = 0 := by
  rw [loadInstruction]
  cases symbol.place <;> exact ⟨Opcode.noConfusion, rfl⟩

/-- Loading the values that a closure captures. -/
theorem Agree.loads [StringHash] (hp : p.Valid) (hbounded : Bounded p running c)
    (hclean : Clean c.symbols.tables) (symbols : List Symbol) {is : Instructions} :
    ∀ {m : Machine}, Agree p W agenda running c scope outer st m →
      (∀ symbol ∈ symbols, c.symbols.inner.Lends symbol) →
      m.code.Holds m.frame.ip (symbols.map Symbol.loadInstruction ++ is) →
      m.Overflows ∨ ∃ m', Works m.top
          (m.frame.ip + Instructions.size (symbols.map Symbol.loadInstruction)) m m' ∧
        m'.top = m.top + symbols.length ∧ m'.nextIdentity = m.nextIdentity ∧
        (∀ (k : Nat) (symbol : Symbol), symbols[k]? = some symbol →
          ∀ v, valueAt st.scopes (scope :: outer) symbol.name = some v →
            Value.Matches W v (m'.slot (m.top + k))) ∧
        Agree p W agenda running c scope outer st m' := by
  induction symbols with
  | nil =>
      intro m hagree _ _
      refine .inr ⟨m, .refl _ _, rfl, rfl, fun k symbol hk => ?_, hagree⟩
      cases hk
  | cons symbol symbols ih =>
      intro m hagree hlends hholds
      obtain ⟨hlend, hlends⟩ := List.forall_mem_cons.mp hlends
      have hroom := hagree.active.room
      have hfound : Found symbol.name c.symbols.inner c.symbols.outer symbol := .inl hlend.1
      obtain ⟨w, hload⟩ := Active.load hp hagree.births hagree.values hagree.active hagree.tidy hbounded
        hclean hfound
      obtain ⟨hpops, -, -⟩ := symbol.loadInstruction_pops
      obtain ⟨hcall, hmade⟩ := symbol.loadInstruction_opcode
      have hresult : symbol.loadInstruction.result? m (m.operands symbol.loadInstruction.pops) =
          some (.ok w) := by
        rw [hpops]
        exact hload.result
      rcases Machine.works_of_result hholds hresult (by omega) with
        hover | ⟨m₁, hw, htop, hslot, hle, houtput, hidentity⟩
      · exact .inl hover
      · rw [hpops, Nat.sub_zero] at hw htop hslot
        rw [Instruction.print_eq hcall] at houtput
        rw [hmade] at hidentity
        have hagree₁ := hagree.works hbounded hw hroom (by omega) hle houtput hidentity
        rcases ih hagree₁ hlends (hw.moves.holds hholds.tail) with
          hover | ⟨m₂, hw₂, htop₂, hidentity₂, hvalues, hagree₂⟩
        · exact .inl (hover.of_reaches hw.reaches)
        · rw [hw.moves.ip_eq] at hw₂
          refine .inr ⟨m₂, ?_, ?_, hidentity₂.trans hidentity, ?_, hagree₂⟩
          · rw [List.map_cons, Instructions.size_cons, ← Nat.add_assoc]
            exact hw.trans hw₂ (by omega)
          · rw [htop₂, htop, List.length_cons]
            omega
          · intro k captured hk v hv
            cases k with
            | zero =>
                cases hk
                rw [Nat.add_zero, hw₂.kept _ (by omega), hslot]
                exact hload.bound v hv
            | succ k =>
                have hrest := hvalues k captured hk v hv
                rw [htop] at hrest
                rw [show m.top + (k + 1) = m.top + 1 + k by omega]
                exact hrest

/-! ## Literals and their code -/

/-- What an evaluation of a function literal makes. -/
structure Newborn (p : Plan) (W : World) (scope : Nat) (outer : List Nat) (st : Evaluator) (m : Machine)
    (name : Option String) (parameters : List String) (body : List Stmt) (c : Compiler) (b : Birth) :
    Prop where
  functionId : b.functionId = st.functionsMade
  closureId : b.closureId = m.nextIdentity
  name_eq : b.name = name
  function : b.function = .function st.functionsMade parameters body scope
  names : b.names = parameters ++ Stmt.bindersAll true body
  levels : b.levels = scope :: outer
  opened : b.opened.symbols = c.symbols.openFunction name parameters
  compiled : b.Compiled p
  captured : ∀ (k : Nat) (symbol : Symbol), b.closed.symbols.inner.captures[k]? = some symbol →
    ∃ w, b.free[k]? = some w ∧
      ∀ v, valueAt st.scopes (scope :: outer) symbol.name = some v → Value.Matches W v w

/-- The compiler behind a function literal. -/
def Compiler.closed (cb : Compiler) (js : Instructions) (numParameters : Nat) : Compiler where
  symbols := cb.symbols.leave
  constants := cb.constants.push (.compiledFunction
    ⟨Instructions.toCode js, cb.symbols.inner.numDefinitions, numParameters⟩)

/-- A function literal that is to be evaluated, with the code of its body. -/
structure Literal (p : Plan) (running : Option Birth) (scope : Nat) (outer : List Nat) (agenda : Agenda)
    (c : Compiler) (name : Option String) (parameters : List String) (body : List Stmt)
    (js : Instructions) (cb : Compiler) : Prop
    extends Scoped p running scope outer [] (parameters ++ Stmt.bindersAll true body) agenda c
      (cb.closed js parameters.length) where
  emits : Emits (.body body) { c with symbols := c.symbols.openFunction name parameters } 0 js cb
  fits : ∀ i ∈ js, i.Fits
  fresh_name : ∀ x ∈ Stmt.bindersAll true body, name ≠ some x
  clean_name : ∀ x, name = some x → Builtin.ofName? x = none
  allowed : (Part.body body).isAllowed p.ordered = true
  named : Stmt.areNamed body = true

namespace Literal

theorem sound_opened (l : Literal p running scope outer agenda c name parameters body js cb) :
    (c.symbols.openFunction name parameters).Sound := l.sound.openFunction name parameters

theorem grows_body (l : Literal p running scope outer agenda c name parameters body js cb) :
    cb.symbols.Sound ∧ (c.symbols.openFunction name parameters).Grows cb.symbols ∧
      c.constants.toList <+: cb.constants.toList := by
  obtain ⟨hsound, hgrows⟩ := l.emits.grows l.sound_opened
  exact ⟨hsound, hgrows.symbols, hgrows.constants⟩

theorem adds_body (l : Literal p running scope outer agenda c name parameters body js cb) :
    Adds (c.symbols.openFunction name parameters) (Stmt.bindersAll false body) cb.symbols :=
  l.emits.adds_unnamed l.sound_opened (Unknown.openFunction l.fresh.unknown l.fresh_name) l.named

/-- The constant of a function literal is among those of the program. -/
theorem constant (l : Literal p running scope outer agenda c name parameters body js cb) :
    p.constants[cb.constants.size]? = some (.compiledFunction
      ⟨Instructions.toCode js, cb.symbols.inner.numDefinitions, parameters.length⟩) :=
  getElem?_of_isPrefix l.bounded.covers.constants Array.getElem?_push_size

theorem covers (l : Literal p running scope outer agenda c name parameters body js cb) : p.Covers cb := by
  obtain ⟨-, hgrows, -⟩ := l.grows_body
  have hnested : cb.symbols.nested = true :=
    hgrows.nested_eq.trans (Symbols.openFunction_nested _ _ _)
  refine ⟨fun x symbol hget => ?_, (isPrefix_push _ _).trans l.bounded.covers.constants⟩
  apply l.bounded.covers.table x symbol
  show cb.symbols.leave.main.bindings.get? x = some symbol
  rw [Symbols.main_leave hnested]
  exact hget

/-- The compiler gets behind a function literal, and the table there lends what the function captures. -/
theorem leave (l : Literal p running scope outer agenda c name parameters body js cb) :
    (cb.closed js parameters.length).symbols.Sound ∧ c.Grows (cb.closed js parameters.length) ∧
      Adds c.symbols [] (cb.closed js parameters.length).symbols ∧
      ∀ symbol ∈ cb.symbols.inner.captures,
        (cb.closed js parameters.length).symbols.inner.Lends symbol := by
  obtain ⟨hsound, hgrows, hconstants⟩ := l.grows_body
  obtain ⟨hleave, -, hgrows', hlends⟩ := hsound.leave hgrows
  exact ⟨hleave, ⟨hgrows', hconstants.trans (isPrefix_push _ _)⟩, l.adds_body.leave, hlends⟩

/-- The code of the closure is that of the literal. -/
theorem compiled (l : Literal p running scope outer agenda c name parameters body js cb)
    (functionId closureId : Nat) (free : List Value) :
    Birth.Compiled p
      { functionId, closureId, name, parameters, body, scope, outer
        opened := { c with symbols := c.symbols.openFunction name parameters }
        closed := cb, code := js, free } where
  emits := l.emits
  fits := l.fits
  sound := l.sound_opened
  opened := ⟨c.symbols, rfl⟩
  parameters := (List.nodup_append.mp l.fresh.unknown.nodup).1
  unknown := Unknown.openFunction l.fresh.unknown l.fresh_name
  tabled := by
    apply Clean.openFunction (List.nodup_append.mp l.fresh.unknown.nodup).1 l.fresh.tabled
    · exact fun x hx => (l.fresh.clean x (List.mem_append_left _ hx)).1
    · exact l.clean_name
  clean := by
    intro x hx
    obtain ⟨hbuiltin, hglobal⟩ := l.fresh.clean x hx
    exact ⟨hbuiltin, fun hmem => absurd (hglobal hmem).2 List.not_mem_nil⟩
  allowed := l.allowed
  named := l.named
  covers := l.covers

end Literal

/-! ## Making a closure -/

/-- Correspondence persists in a running call when functions are made. -/
theorem Active.mono {W' : World} (hactive : Active W running c scope outer st m) (hW : W ⊆ W') :
    Active W' running c scope outer st m where
  sound := hactive.sound
  chained := hactive.chained
  locals := by
    intro x v hx
    obtain ⟨symbol, hget, hplace, hmatch⟩ := hactive.locals x v hx
    exact ⟨symbol, hget, hplace, hmatch.mono hW⟩
  foreign := hactive.foreign
  role := by
    cases hactive.role with
    | main hn hscope houter hclosure hbase hcallers =>
        exact .main hn hscope houter hclosure hbase hcallers
    | call hn hscope houter hclosure hbase hcallers hmem hself =>
        exact .call hn hscope houter hclosure hbase hcallers (hW hmem) hself
  room := hactive.room
  top_le := hactive.top_le
  depth := hactive.depth

/-- The globals and the output when a closure has been made. -/
theorem Values.born {b : Birth} (hvalues : Values p W st m) (hid : b.closureId = m.nextIdentity)
    (hglobals : m'.globals = m.globals) (hbytecode : m'.bytecode = m.bytecode)
    (houtput : m'.output = m.output) (hidentity : m'.nextIdentity = m.nextIdentity + 1) :
    Values p (b :: W) st m' where
  globals := by
    intro x v hx
    obtain ⟨symbol, hget, hplace, hmatch⟩ := hvalues.globals x v hx
    rw [hglobals]
    exact ⟨symbol, hget, hplace, hmatch.mono (List.subset_cons_self b W)⟩
  output := by
    rw [houtput]
    exact fun hordered => (hvalues.output hordered).imp fun _ _ hall =>
      hall.imp fun _ _ hmatch => hmatch.mono (List.subset_cons_self b W)
  closures := by
    rw [hidentity]
    intro b' hb'
    rcases List.mem_cons.mp hb' with rfl | hb'
    · rw [hid]
      exact Nat.lt_succ_self _
    · exact Nat.lt_succ_of_lt (hvalues.closures b' hb')
  constants := by
    rw [hbytecode]
    exact hvalues.constants

/-- **A function literal** makes a closure out of the values that it captures. -/
theorem Agree.closure [StringHash] (hp : p.Valid) (hagree : Agree p W agenda running c scope outer st m)
    (l : Literal p running scope outer agenda c name parameters body js cb)
    (hholds : m.code.Holds m.frame.ip (cb.symbols.inner.captures.map Symbol.loadInstruction ++
      [.closure cb.constants.size cb.symbols.inner.captures.length])) :
    m.Overflows ∨ ∃ m' b, Newborn p W scope outer st m name parameters body c b ∧
      Moves m.top (m.frame.ip + Instructions.size (cb.symbols.inner.captures.map Symbol.loadInstruction ++
        [.closure cb.constants.size cb.symbols.inner.captures.length])) m m' ∧
      m'.top = m.top + 1 ∧ m'.nextIdentity = m.nextIdentity + 1 ∧ m'.slot m.top = b.closure.toValue ∧
      Active (b :: W) running (cb.closed js parameters.length) scope outer st m' ∧
      Values p (b :: W) st m' := by
  have hroom := hagree.active.room
  obtain ⟨hsound, hgrows, hadds, hlends⟩ := l.leave
  have hclean := hadds.clean l.fresh.tabled nofun
  have hagree' := hagree.compile l.toScoped hadds hsound hgrows fun _ => rfl
  rcases Agree.loads hp l.bounded hclean _ hagree' hlends hholds with
    hover | ⟨m₁, hw₁, htop₁, hidentity₁, hvalues₁, hagree₁⟩
  · exact .inl hover
  have hholds₁ : m₁.code.Holds m₁.frame.ip
      [.closure cb.constants.size cb.symbols.inner.captures.length] := hw₁.moves.holds hholds.right
  have hresult : (Instruction.closure cb.constants.size cb.symbols.inner.captures.length).result? m₁
      (m₁.operands cb.symbols.inner.captures.length) = some (.ok (.closure m₁.nextIdentity
        ⟨Instructions.toCode js, cb.symbols.inner.numDefinitions, parameters.length⟩
        (m₁.operands cb.symbols.inner.captures.length))) := by
    simp only [Instruction.result?, hagree₁.values.constants, l.constant]
  have hroom₁ : m₁.frame.base + m₁.frame.numLocals ≤ m.top := by
    rw [hw₁.moves.base_eq, hw₁.moves.numLocals_eq]
    exact hroom
  rcases Machine.works_of_result hholds₁ hresult (by rw [htop₁]; exact Nat.le_add_left _ _) with
    hover | ⟨m₂, hw₂, htop₂, hslot₂, hle₂, houtput₂, hidentity₂⟩
  · exact .inl (hover.of_reaches hw₁.reaches)
  have hpops : (Instruction.closure cb.constants.size cb.symbols.inner.captures.length).pops =
      cb.symbols.inner.captures.length := rfl
  rw [hpops, htop₁, Nat.add_sub_cancel] at hw₂ htop₂ hslot₂
  rw [hw₁.moves.ip_eq] at hw₂
  let b : Birth :=
    { functionId := st.functionsMade, closureId := m₁.nextIdentity, name, parameters, body, scope, outer
      opened := { c with symbols := c.symbols.openFunction name parameters }, closed := cb, code := js
      free := m₁.operands cb.symbols.inner.captures.length }
  refine .inr ⟨m₂, b, ⟨rfl, hidentity₁, rfl, rfl, rfl, rfl, rfl, l.compiled _ _ _, ?_⟩, ?_, htop₂, ?_, hslot₂,
    ?_, ?_⟩
  · intro k symbol hk
    have hlt := (List.getElem?_eq_some_iff.mp hk).1
    refine ⟨m₁.slot (m.top + k), ?_, hvalues₁ k symbol hk⟩
    show (m₁.operands cb.symbols.inner.captures.length)[k]? = _
    rw [Machine.operands_eq_window, htop₁, Nat.add_sub_cancel]
    exact Machine.getElem?_window hlt
  · rw [Instructions.size_append, ← Nat.add_assoc]
    exact hw₁.moves.trans hw₂.moves (Nat.le_refl _)
  · rw [hidentity₂, hidentity₁]
    rfl
  · have hactive := hagree₁.active.works l.bounded hw₂ hroom₁ (by omega) hle₂
    exact hactive.mono (List.subset_cons_self b W)
  · exact hagree₁.values.born rfl hw₂.globals hw₂.bytecode houtput₂ hidentity₂

/-- One more function that has been made. -/
theorem Births.cons {b : Birth} {scopes : Array Scope} (hbirths : Births p W agenda scopes)
    (hcompiled : b.Compiled p) (halive : b.Alive p W agenda scopes)
    (hfunction : ∀ b' ∈ W, b'.functionId ≠ b.functionId)
    (hclosure : ∀ b' ∈ W, b'.closureId ≠ b.closureId) : Births p (b :: W) agenda scopes where
  compiled := List.forall_mem_cons.mpr ⟨hcompiled, hbirths.compiled⟩
  alive := by
    have hsub := List.subset_cons_self b W
    exact List.forall_mem_cons.mpr
      ⟨halive.mono hsub, fun b' hb' => (hbirths.alive b' hb').mono hsub⟩
  oneToOne := hbirths.oneToOne.cons hfunction hclosure
  pending_lt := hbirths.pending_lt

namespace Newborn

variable {agenda' : Agenda} {b : Birth}

theorem levels_eq (hb : Newborn p W scope outer st m name parameters body c b) :
    b.scope = scope ∧ b.outer = outer := List.cons.inj hb.levels

/-- No other function has the identity of a new one, and no other closure. -/
theorem fresh (hb : Newborn p W scope outer st m name parameters body c b) (hvalues : Values p W st m)
    {st' : Evaluator} (happart : W.Apart st st') (hlt : st.functionsMade < st'.functionsMade) :
    (∀ b' ∈ W, b'.functionId ≠ b.functionId) ∧ ∀ b' ∈ W, b'.closureId ≠ b.closureId := by
  constructor
  · intro b' hb' heq
    rw [hb.functionId] at heq
    have hid := happart b' hb'
    omega
  · intro b' hb' heq
    rw [hb.closureId] at heq
    have hid := hvalues.closures b' hb'
    omega

theorem grown (hb : Newborn p W scope outer st m name parameters body c b)
    (hidentity : m'.nextIdentity = m.nextIdentity + 1) :
    W.Grown (b :: W) st { st with functionsMade := st.functionsMade + 1 } m m' := by
  refine ⟨[b], rfl, rfl, hidentity, fun b' hb' => ?_⟩
  obtain rfl := List.mem_singleton.mp hb'
  rw [hb.functionId, hb.closureId]
  exact ⟨Nat.le_refl _, Nat.lt_succ_self _, Nat.le_refl _⟩

theorem settled (hb : Newborn p W scope outer st m name parameters body c b)
    (l : Literal p running scope outer agenda c name parameters body js cb)
    (hle : ∀ lv x, agenda' lv x → agenda lv x)
    (hname : ∀ lv ∈ scope :: outer, ∀ x, agenda' lv x → name ≠ some x) :
    Settled b.levels agenda' b.opened.symbols b.body := by
  have hsettled := (l.fresh.anti hle).settled hname
  rw [hb.levels, hb.opened]
  intro lv hlv x hx
  obtain ⟨hknows, hbinders⟩ := hsettled lv hlv x hx
  refine ⟨hknows, fun hmem => hbinders ?_⟩
  have hbody : Value.function b.functionId b.parameters b.body b.scope =
      .function st.functionsMade parameters body scope := hb.function
  injection hbody with _ _ hbody
  rwa [hbody] at hmem

theorem parameters_eq (hb : Newborn p W scope outer st m name parameters body c b) :
    b.parameters = parameters := by
  have hfunction : Value.function b.functionId b.parameters b.body b.scope =
      .function st.functionsMade parameters body scope := hb.function
  injection hfunction

/-- The tables inside a new function know its parameters, its name, and what is known around it. -/
theorem known (hb : Newborn p W scope outer st m name parameters body c b)
    (hagree : Agree p W agenda running c scope outer st m) (hordered : p.ordered = false) {x : String}
    (hx : Knows b.opened.symbols.tables x) :
    x ∈ b.parameters ∨ name = some x ∨ Known st.scopes b.levels x := by
  have hnodup := hb.compiled.parameters
  rw [hb.parameters_eq] at hnodup ⊢
  rw [hb.opened] at hx
  rw [hb.levels]
  exact (Symbols.openFunction_knows hnodup hx).imp_right (Or.imp_right (hagree.known hordered x))

theorem tidy (hb : Newborn p W scope outer st m name parameters body c b)
    (hagree : Agree p W agenda running c scope outer st m) : ∀ l ∈ b.levels, p.Tidy st.scopes l := by
  rw [hb.levels]
  exact hagree.active.tidy hagree.births hagree.tidy

/-- A function without a name can be called at once. -/
theorem alive (hb : Newborn p W scope outer st m none parameters body c b)
    (hagree : Agree p W agenda running c scope outer st m)
    (l : Literal p running scope outer agenda c none parameters body js cb) :
    b.Alive p W agenda st.scopes where
  chained := by
    rw [hb.levels_eq.1, hb.levels_eq.2]
    exact hagree.active.chained
  settled := hb.settled l (fun _ _ h => h) nofun
  apart := by
    rw [hb.levels, hb.names]
    exact hagree.untouched l.toScoped
  captured := by
    rw [hb.levels]
    exact hb.captured
  self := by
    intro x hx
    rw [hb.name_eq] at hx
    cases hx
  tidy := hb.tidy hagree
  known := fun hordered x hx => (hb.known hagree hordered hx).imp_right (Or.resolve_left · nofun)

/-- A function that has just been bound to the name that its literal records. -/
theorem alive_bind {x : String} (hb : Newborn p W scope outer st m (some x) parameters body c b)
    (hagree : Agree p W agenda running c scope outer st m)
    (l : Literal p running scope outer agenda c (some x) parameters body js cb)
    (hdue : agenda scope x) (hparameters : x ∉ parameters) (hglobal : scope ≠ 0 → x ∉ p.globals)
    (hnone : ∀ lv ∈ scope :: outer, bound? st.scopes lv x = none)
    (hle : ∀ lv y, agenda' lv y → agenda lv y)
    (hname : ∀ lv ∈ scope :: outer, ∀ y, agenda' lv y → x ≠ y) :
    b.Alive p W agenda' (st.bind x b.function scope).scopes := by
  have hother : ∀ {lv y}, y ≠ x → bound? (st.bind x b.function scope).scopes lv y =
      bound? st.scopes lv y := fun hne => bound?_bind_of_ne fun _ => hne
  have hself : bound? (st.bind x b.function scope).scopes scope x = some b.function :=
    bound?_bind_self hagree.active.chained.lt_size
  have hsettled := hb.settled l hle fun lv hlv y hy heq => hname lv hlv y hy (Option.some.inj heq)
  refine ⟨?_, hsettled, ?_, ?_, ?_, ?_, ?_⟩
  · rw [hb.levels_eq.1, hb.levels_eq.2]
    exact (Evaluator.Frame.bind x _).chained hagree.active.chained
  · intro lv hlv y hy
    rw [hb.levels] at hlv
    rw [hb.names] at hy
    refine (hother ?_).trans (hagree.untouched l.toScoped lv hlv y hy)
    rintro rfl
    rcases List.mem_append.mp hy with hmem | hmem
    · exact hparameters hmem
    · exact l.fresh_name y hmem rfl
  · intro k symbol hk
    obtain ⟨w, hw, hmatch⟩ := hb.captured k symbol hk
    refine ⟨w, hw, fun v hv => hmatch v ?_⟩
    -- a name that is still to be bound is not captured
    have hne : symbol.name ≠ x := by
      intro heq
      have hcompiled := hb.compiled
      have hknows := hcompiled.grows.1.knows_of_captures hcompiled.adds.outer (List.mem_of_getElem? hk)
      rw [hb.opened, Symbols.openFunction_outer, heq] at hknows
      exact l.fresh.here x hdue hknows
    rw [hb.levels] at hv
    rw [← hv]
    exact (valueAt_congr fun lv _ => hother hne).symm
  · intro y hy v hv
    rw [hb.name_eq] at hy
    cases hy
    rw [hb.levels, valueAt_cons_of_some hself] at hv
    exact (Option.some.inj hv).symm
  · intro lv hlv y v hy
    by_cases heq : y = x
    · subst heq
      rw [hb.levels] at hlv
      refine ⟨l.clean_name y rfl, fun hne hmem => ?_⟩
      rcases List.mem_cons.mp hlv with rfl | hlv
      · exact hglobal hne hmem
      · rw [bound?_bind_of_ne fun hl => absurd hl (Nat.ne_of_lt (hagree.active.chained.lt_of_mem hlv)),
          hnone lv (List.mem_cons_of_mem _ hlv)] at hy
        cases hy
    · rw [hother heq] at hy
      exact hb.tidy hagree lv hlv y v hy
  · intro hordered y hy
    refine (hb.known hagree hordered hy).imp_right fun h => ?_
    rcases h with heq | hknown
    · cases heq
      rw [hb.levels]
      exact .of_bound hself
    · exact hknown.bind

end Newborn

/-! ## Function literals -/

variable [StringHash]

/-- A function literal that no `let` gives a name. -/
theorem Agree.function (hp : p.Valid) (hagree : Agree p W agenda running c scope outer st m)
    (l : Literal p running scope outer agenda c none parameters body js cb)
    (happart : W.Apart st { st with functionsMade := st.functionsMade + 1 })
    (hholds : m.code.Holds m.frame.ip (cb.symbols.inner.captures.map Symbol.loadInstruction ++
      [.closure cb.constants.size cb.symbols.inner.captures.length])) :
    m.Overflows ∨ ∃ W' m', Continues p W W' agenda running (cb.closed js parameters.length) scope outer
      st { st with functionsMade := st.functionsMade + 1 } m m' 1
      (m.frame.ip + Instructions.size (cb.symbols.inner.captures.map Symbol.loadInstruction ++
        [.closure cb.constants.size cb.symbols.inner.captures.length]))
      [.function st.functionsMade parameters body scope] := by
  rcases hagree.closure hp l hholds with
    hover | ⟨m₁, b, hb, hmoves, htop, hidentity, hslot, hactive, hvalues⟩
  · exact .inl hover
  have hstill : st.Still { st with functionsMade := st.functionsMade + 1 } := ⟨rfl, rfl, rfl⟩
  obtain ⟨hfunction, hclosure⟩ := hb.fresh hagree.values happart (Nat.lt_succ_self _)
  have halive := hb.alive hagree l
  obtain ⟨-, -, hadds, -⟩ := l.leave
  refine .inr ⟨b :: W, m₁, hb.grown hidentity, hmoves, htop, ?_, ?_, hvalues.still hstill,
    hactive.still hstill, hagree.tidy, fun hordered x hx => ?_⟩
  · show List.Forall₂ _ [_] [m₁.slot m.top]
    rw [hslot, ← hb.function]
    exact .cons (.function List.mem_cons_self) .nil
  · exact hagree.births.cons hb.compiled halive hfunction hclosure
  · exact hagree.known hordered x ((hadds.knows hx).resolve_right List.not_mem_nil)

/-- A function literal together with the `let` that gives it a name. -/
theorem Agree.let_function {x : String} (hp : p.Valid)
    (hagree : Agree p W agenda running c scope outer st m)
    (l : Literal p running scope outer agenda c (some x) parameters body js cb)
    (hscoped : Scoped p running scope outer [x] (parameters ++ Stmt.bindersAll true body ++ [x]) agenda c
      { cb.closed js parameters.length with
        symbols := (cb.closed js parameters.length).symbols.define x })
    (happart : W.Apart st { st with functionsMade := st.functionsMade + 1 })
    (hholds : m.code.Holds m.frame.ip (cb.symbols.inner.captures.map Symbol.loadInstruction ++
      [.closure cb.constants.size cb.symbols.inner.captures.length] ++
      [((cb.closed js parameters.length).symbols.definedSymbol x).storeInstruction])) :
    m.Overflows ∨ ∃ W' m', Continues p W W' (agenda.done scope [x]) running
      { cb.closed js parameters.length with
        symbols := (cb.closed js parameters.length).symbols.define x } scope outer
      st (({ st with functionsMade := st.functionsMade + 1 } : Evaluator).bind x
        (.function st.functionsMade parameters body scope) scope) m m' 0
      (m.frame.ip + Instructions.size (cb.symbols.inner.captures.map Symbol.loadInstruction ++
        [.closure cb.constants.size cb.symbols.inner.captures.length] ++
        [((cb.closed js parameters.length).symbols.definedSymbol x).storeInstruction])) [] := by
  rcases hagree.closure hp l hholds.left with
    hover | ⟨m₁, b, hb, hmoves, htop, hidentity, hslot, hactive, hvalues⟩
  · exact .inl hover
  have hmem : x ∈ parameters ++ Stmt.bindersAll true body ++ [x] :=
    List.mem_append_right _ (List.mem_singleton_self _)
  have hdue := hscoped.fresh.due x (List.mem_singleton_self _)
  have hnone : ∀ lv ∈ scope :: outer, bound? st.scopes lv x = none := fun lv hlv =>
    hagree.untouched hscoped lv hlv x hmem
  have hparameters : x ∉ parameters := by
    intro hx
    have hnodup := (List.nodup_append.mp hscoped.fresh.unknown.nodup).2.2
    exact hnodup x (List.mem_append_left _ hx) x (List.mem_singleton_self _) rfl
  have hapart : ∀ b', running = some b' → ∀ lv ∈ b'.levels, bound? st.scopes lv x = none := by
    intro b' hb' lv hlv
    have hrole := hagree.active.role
    subst hb'
    cases hrole with
    | call _ _ houter =>
        apply hnone
        rw [houter]
        exact List.mem_cons_of_mem _ hlv
  have hmatch : Value.Matches (b :: W) b.function (m₁.slot m.top) := by
    rw [hslot]
    exact .function List.mem_cons_self
  obtain ⟨m₂, hmoves₂, htop₂, hidentity₂, hactive₂, hvalues₂⟩ := Active.define_value hmoves htop
    hagree.active.room hactive hvalues hmatch hscoped.bounded hapart hholds.right
  have hname : ∀ lv ∈ scope :: outer, ∀ y, agenda.done scope [x] lv y → x ≠ y := by
    rintro lv hlv y ⟨hagenda, hnot⟩ rfl
    rcases List.mem_cons.mp hlv with rfl | hlv
    · exact hnot rfl (List.mem_singleton_self _)
    · exact (hscoped.fresh.around lv hlv x hagenda).2 hmem
  obtain ⟨hfunction, hclosure⟩ := hb.fresh hagree.values happart (Nat.lt_succ_self _)
  have halive := hb.alive_bind hagree l hdue hparameters hscoped.fresh.tidy.2 hnone (fun _ _ h => h.1) hname
  have hbirths :=
    (hagree.births.bind (v := b.function) hscoped.fresh).cons hb.compiled halive hfunction hclosure
  have hstill : (st.bind x b.function scope).Still (({ st with functionsMade := st.functionsMade + 1 } :
      Evaluator).bind x b.function scope) := ⟨rfl, rfl, rfl⟩
  rw [← hb.function]
  obtain ⟨-, -, hadds, -⟩ := l.leave
  have hknows : Adds c.symbols [x] ((cb.closed js parameters.length).symbols.define x) := by
    have hgiven := (Unknown.right hscoped.fresh.unknown hadds (List.nil_subset _)).unknown x
      (List.mem_singleton_self _)
    exact hadds.trans (.define hgiven)
  refine .inr ⟨b :: W, m₂, (hb.grown hidentity).of_eq rfl hidentity₂, ?_, htop₂, .nil, ?_⟩
  · rw [Instructions.size_append, ← Nat.add_assoc, Instructions.size_cons, Instructions.size_nil,
      Nat.add_zero]
    exact hmoves₂
  · exact Agree.still ⟨hbirths, hvalues₂, hactive₂, hagree.tidy.bind hscoped.fresh.tidy,
      hagree.known_define hknows⟩ hstill

end

end ScriptLang
