import ScriptLang.Proofs.Refinement.Literals

/-!
# Calls

A call of a function opens a scope in the evaluator and a frame in the machine. At its beginning the
parameters are bound in both (`Continues.enter`), and then the body of the function is what there is to
execute (`Births.task`). Behind its `return` the caller finds everything as it was, except that the result
stands on the stack, functions have been made, and values have been put out (`Continues.leave`).
-/

namespace ScriptLang

open Machine (Moves Works Returns)
open EvalM (enterCall leaveCall)
open Symbols (Knows Adds Found Clean)

section

variable {p : Plan} {W W₁ : World} {agenda agenda₁ : Agenda} {running : Option Birth} {c c₁ : Compiler}
  {scope : Nat} {outer : List Nat} {st st₁ st₂ : Evaluator} {m m₁ m₂ m' : Machine} {ip₁ : Nat}
  {v : Value} {vs : List Value}

/-! ## Built-in functions -/

/-- **A call of a built-in function** puts its result in the place of the function and the arguments. -/
theorem Continues.call_builtin [StringHash] {b : Builtin} {is : Instructions} {n : Nat}
    (h₁ : Continues p W W₁ agenda running c₁ scope outer st st₁ m m₁ (n + 1) ip₁ (.builtin b :: vs))
    (hn : n = vs.length) (hbounded : Bounded p running c₁)
    (hroom : m.frame.base + m.frame.numLocals ≤ m.top)
    (hholds : m.code.Holds ip₁ (.call n :: is)) (hok : (b.result vs).isError = false) :
    m.Overflows ∨ ∃ m', Continues p W W₁ agenda running c₁ scope outer st
      { st₁ with output := b.print vs st₁.output } m m' 1 (ip₁ + (Instruction.call n).size)
      [b.result vs] := by
  have htop := h₁.top
  have hroom₁ := h₁.room hroom
  have hvalues := h₁.values
  have hwindow : m₁.operands (n + 1) = m₁.window m.top (n + 1) := h₁.operands_eq
  rw [List.length_cons, ← hn, ← hwindow] at hvalues
  generalize hoperands : m₁.operands (n + 1) = ws at hvalues
  rcases hvalues with _ | ⟨hcallee, hargs⟩
  rename_i callee ws
  cases hcallee
  have hresult : (Instruction.call n).result? m₁ (m₁.operands (Instruction.call n).pops) =
      some (.ok (b.result ws)) := by
    rw [show (Instruction.call n).pops = n + 1 from rfl, hoperands]
    rfl
  rcases Machine.works_of_result (h₁.holds hholds) hresult (by
    rw [show (Instruction.call n).pops = n + 1 from rfl]; omega) with
    hover | ⟨m₂, hw, htop₂, hslot, hle, houtput, hidentity⟩
  · exact .inl (hover.of_reaches h₁.reaches)
  · rw [show (Instruction.call n).pops = n + 1 from rfl, htop, Nat.add_sub_cancel] at hw htop₂ hslot
    rw [show (Instruction.call n).pops = n + 1 from rfl, hoperands] at houtput
    rw [h₁.moves.ip_eq] at hw
    refine .inr ⟨m₂, h₁.grown.of_eq rfl hidentity, h₁.moves.trans hw.moves (Nat.le_refl _), htop₂, ?_,
      h₁.agree.births, ?_, ?_, h₁.agree.tidy, h₁.agree.known⟩
    · show List.Forall₂ (Value.Matches W₁) [b.result vs] [m₂.slot m.top]
      rw [hslot]
      exact .cons (b.result_matches hargs hok) .nil
    · have hold := h₁.agree.values
      refine ⟨?_, ?_, ?_, ?_⟩
      · rw [hw.globals]
        exact hold.globals
      · rw [houtput]
        exact fun hordered => b.print_matches (hold.output hordered) hargs
      · rw [hidentity]
        exact hold.closures
      · rw [hw.bytecode]
        exact hold.constants
    · have hactive := h₁.agree.active.works hbounded hw hroom₁ (by omega) hle
      exact ⟨hactive.sound, hactive.chained, hactive.locals, hactive.foreign, hactive.role, hactive.room,
        hactive.top_le, hactive.depth⟩

/-! ## Calls of functions -/

section

variable {b : Birth} {n : Nat} {u : Value}

/-- The functions that have been made, when one of them is called. -/
theorem Births.enter (hbirths : Births p W agenda st.scopes) (vs : List Value) :
    Births p W (agenda.opened st.scopes.size (Stmt.bindersAll false b.body))
      (enterCall b.parameters vs b.scope st).scopes where
  compiled := hbirths.compiled
  alive := by
    intro b' hb'
    have halive := hbirths.alive b' hb'
    apply halive.transfer
    · exact fun l hl => getElem?_enterCall (halive.lt_size hl)
    · intro l hl x hx
      rwa [Agenda.opened, if_neg (Nat.ne_of_lt (halive.lt_size hl))] at hx
  oneToOne := hbirths.oneToOne
  pending_lt := by
    intro l x hx
    rw [Evaluator.Frame.size_enterCall]
    by_cases hl : l = st.scopes.size
    · rw [hl]
      exact Nat.lt_succ_self _
    · rw [Agenda.opened, if_neg hl] at hx
      exact Nat.lt_succ_of_lt (hbirths.pending_lt l x hx)

/-- What the scope of a call binds are the parameters. -/
theorem Plan.Tidy.enter (hcompiled : b.Compiled p) (vs : List Value) :
    p.Tidy (enterCall b.parameters vs b.scope st).scopes st.scopes.size := by
  intro x v hbound
  obtain ⟨k, hk, -⟩ := bound?_enterCall_self hbound
  obtain ⟨hbuiltin, hglobal⟩ :=
    hcompiled.clean x (List.mem_append_left (Stmt.bindersAll true b.body) (List.mem_of_getElem? hk))
  exact ⟨hbuiltin, fun _ => hglobal⟩

/-- In a call every name stands for something that the tables inside the function know. -/
theorem Birth.Alive.known_enter (halive : b.Alive p W agenda st.scopes)
    (hlength : vs.length = b.parameters.length) :
    p.ordered = false → ∀ x, Knows b.opened.symbols.tables x →
      Known (enterCall b.parameters vs b.scope st).scopes (st.scopes.size :: b.levels) x := by
  intro hordered x hx
  rcases halive.known hordered x hx with hparameter | hknown
  · obtain ⟨v, hv⟩ : ∃ v, bound? (enterCall b.parameters vs b.scope st).scopes st.scopes.size x =
        some v := exists_bound?_enterCall_self hlength hparameter
    exact .of_bound hv
  · refine Known.cons (hknown.congr ?_)
    exact valueAt_congr fun l hl => bound?_enterCall (halive.lt_size hl)

section

variable [StringHash]

theorem Values.enter (hvalues : Values p W st m) (hpos : 0 < st.scopes.size)
    (henters : m.Enters b.closure n ip₁ m') : Values p W (enterCall b.parameters vs b.scope st) m' where
  globals := by
    intro x v hx
    rw [bound?_enterCall hpos] at hx
    rw [henters.globals]
    exact hvalues.globals x v hx
  output := by
    rw [henters.output]
    exact hvalues.output
  closures := by
    rw [henters.nextIdentity]
    exact hvalues.closures
  constants := by
    rw [henters.bytecode]
    exact hvalues.constants

/-- A call begins with its arguments under the names of the parameters. -/
theorem Active.enter (hbirths : Births p W agenda st.scopes) (hmem : b ∈ W)
    (hdepth : m.callers.length = st.depth) (htop : n + 1 ≤ m.top) (hn : n = vs.length)
    (hargs : List.Forall₂ (Value.Matches W) vs (m.window (m.top - n) n))
    (henters : m.Enters b.closure n ip₁ m') :
    Active W (some b) b.opened st.scopes.size b.levels (enterCall b.parameters vs b.scope st) m' := by
  have hcompiled := hbirths.compiled b hmem
  have halive := hbirths.alive b hmem
  obtain ⟨around, hopened⟩ := hcompiled.opened
  refine ⟨hcompiled.sound, chained_enterCall halive.chained, ?_, ?_, ?_, ?_, henters.top_le, ?_⟩
  · intro x v hx
    obtain ⟨k, hk, hv⟩ := bound?_enterCall_self hx
    have hlt : k < n := hn ▸ (List.getElem?_eq_some_iff.mp hv).1
    refine ⟨⟨x, .local, k⟩, ?_, .inl rfl, ?_⟩
    · rw [hopened]
      exact Symbols.openFunction_parameter hcompiled.parameters hk
    · have hslot : m'.variable ⟨x, .local, k⟩ = m.slot (m.top - n + k) := by
        show m'.slot (m'.frame.base + k) = _
        rw [henters.frame]
        exact henters.kept (m.top - n + k) (by omega)
      have hrel := Value.MatchesAll.getElem? hargs k
      rw [hv, Machine.getElem?_window hlt] at hrel
      rw [hslot]
      cases hrel with
      | some hmatch => exact hmatch
  · intro x symbol hget hplace l hl
    rw [bound?_enterCall (halive.lt_size hl)]
    rw [hopened] at hget
    rcases Symbols.openFunction_get? hcompiled.parameters hget with ⟨hx, -⟩ | ⟨-, hfunction⟩
    · exact halive.apart l hl x (List.mem_append_left _ hx)
    · rw [hfunction] at hplace
      cases hplace
  · refine .call hcompiled.nested ?_ rfl ?_ ?_ ?_ hmem ?_
    · exact Nat.ne_of_gt (Nat.zero_lt_of_lt halive.chained.lt_size)
    · rw [henters.frame]
    · rw [henters.frame]
      show 1 ≤ m.top - n
      omega
    · rw [henters.callers]
      exact List.cons_ne_nil _ _
    · intro x symbol hget hplace
      rw [hopened] at hget
      rcases Symbols.openFunction_get? hcompiled.parameters hget with ⟨-, hlocal⟩ | ⟨hname, -⟩
      · rw [hlocal] at hplace
        cases hplace
      · exact hname
  · have hclosure : m'.frame.closure? = some b.closure := by rw [henters.frame]
    rw [frame_numLocals hclosure, henters.frame, henters.top]
    exact Nat.le_refl _
  · rw [henters.callers]
    exact congrArg Nat.succ hdepth

/-- Both engines have entered a function. -/
theorem Agree.enter (hagree : Agree p W agenda running c scope outer st m) (hmem : b ∈ W)
    (htop : n + 1 ≤ m.top) (hn : n = vs.length) (hlength : vs.length = b.parameters.length)
    (hargs : List.Forall₂ (Value.Matches W) vs (m.window (m.top - n) n))
    (henters : m.Enters b.closure n ip₁ m') :
    Agree p W (agenda.opened st.scopes.size (Stmt.bindersAll false b.body)) (some b) b.opened
      st.scopes.size b.levels (enterCall b.parameters vs b.scope st) m' where
  births := hagree.births.enter vs
  values := hagree.values.enter (Nat.zero_lt_of_lt hagree.active.chained.lt_size) henters
  active := Active.enter hagree.births hmem hagree.active.depth htop hn hargs henters
  tidy := .enter (hagree.births.compiled b hmem) vs
  known := (hagree.births.alive b hmem).known_enter hlength

/-- The body of a function that has been entered. -/
theorem Births.task (hbirths : Births p W agenda st.scopes) (hmem : b ∈ W)
    (henters : m.Enters b.closure n ip₁ m') :
    Task p (some b) st.scopes.size b.levels m'.code (.body b.body)
      (agenda.opened st.scopes.size (Stmt.bindersAll false b.body)) b.opened m'.frame.ip b.code
      b.closed := by
  have hcompiled := hbirths.compiled b hmem
  have halive := hbirths.alive b hmem
  have hcode : m'.code = Instructions.toCode b.code := by
    rw [Machine.code, henters.frame]
    rfl
  have hip : m'.frame.ip = 0 := by rw [henters.frame]
  rw [hcode, hip]
  refine ⟨⟨hcompiled.sound, ⟨hcompiled.covers, ?_⟩, ?_, ?_⟩, hcompiled.emits,
    Code.holds_toCode hcompiled.fits, hcompiled.allowed, hcompiled.named⟩
  · intro b' hb'
    cases hb'
    exact .refl _
  · apply Fresh.of_settled hcompiled.unknown hcompiled.tabled _ halive.settled
    · exact fun hsize => Nat.lt_irrefl _ (halive.lt_size hsize)
    · exact fun x hx => hcompiled.clean x (List.mem_append_right _ hx)
  · intro b' hb'
    cases hb'
    exact List.subset_append_right _ _

/-- The closure that is called stands below its arguments. -/
theorem Continues.callee {identity home : Nat} {parameters : List String} {body : List Stmt}
    (h₁ : Continues p W W₁ agenda running c₁ scope outer st st₁ m m₁ (n + 1) ip₁
      (.function identity parameters body home :: vs)) (hn : n = vs.length) :
    ∃ b, b ∈ W₁ ∧ b.parameters = parameters ∧ b.body = body ∧ b.scope = home ∧
      m₁.slot (m₁.top - 1 - n) = b.closure.toValue ∧
      List.Forall₂ (Value.Matches W₁) vs (m₁.window (m₁.top - n) n) := by
  have htop := h₁.top
  have hvalues := h₁.values
  rw [List.length_cons, ← hn, Nat.add_comm n 1, Machine.window_add, Machine.window_one,
    List.singleton_append, List.forall₂_cons] at hvalues
  obtain ⟨hcallee, hargs⟩ := hvalues
  rw [show m.top + 1 = m₁.top - n by omega] at hargs
  rw [show m.top = m₁.top - 1 - n by omega] at hcallee
  generalize m₁.slot (m₁.top - 1 - n) = callee at hcallee ⊢
  cases hcallee with
  | @function b hmem => exact ⟨b, hmem, rfl, rfl, rfl, rfl, hargs⟩

/-- A closure that is called is entered with the arguments on the stack. -/
theorem Continues.enter {identity home : Nat} {parameters : List String} {body : List Stmt}
    {is : Instructions}
    (h₁ : Continues p W W₁ agenda running c₁ scope outer st st₁ m m₁ (n + 1) ip₁
      (.function identity parameters body home :: vs))
    (hn : n = vs.length) (hlength : vs.length = parameters.length) (hdepth : st₁.depth < maxCallDepth)
    (hholds : m.code.Holds ip₁ (.call n :: is)) :
    m.Overflows ∨ ∃ b m₂, b ∈ W₁ ∧ b.parameters = parameters ∧ b.body = body ∧ b.scope = home ∧
      List.Forall₂ (Value.Matches W₁) vs (m₁.window (m₁.top - n) n) ∧
      m₁.Enters b.closure n (ip₁ + (Instruction.call n).size) m₂ := by
  have htop := h₁.top
  have hactive := h₁.agree.active
  obtain ⟨b, hmem, rfl, rfl, rfl, hcall, hargs⟩ := h₁.callee hn
  obtain ⟨hparameters, hlocals⟩ := (h₁.agree.births.compiled b hmem).routine
  have hnumber : n = b.closure.function.numParameters := hn.trans hlength
  have hframes : m₁.callers.length + 1 < maxFrames := by
    have hcallers := hactive.depth
    have hless : maxCallDepth + 1 < maxFrames := by decide
    omega
  rcases Machine.enters_of_call (h₁.holds hholds) (by omega) hactive.top_le hcall hnumber
    (hnumber ▸ hparameters) (hnumber ▸ hlocals) hframes with hover | ⟨m₂, henters⟩
  · exact .inl (hover.of_reaches h₁.reaches)
  · rw [h₁.moves.ip_eq] at henters
    exact .inr ⟨b, m₂, hmem, rfl, rfl, rfl, hargs, henters⟩

end

/-! ## The end of a call -/

section

variable {parameters : List String} {home i : Nat}

/-- The scopes around a call are at its end what they were before. -/
theorem Evaluator.Frame.leaveCall_getElem?
    (hframe : Frame st₁.scopes.size (enterCall parameters vs home st₁) st₂) (hi : i < st₁.scopes.size) :
    (leaveCall st₁.scopes.size st₁.functionsMade st₂).scopes[i]? = st₁.scopes[i]? ∧
      st₂.scopes[i]? = st₁.scopes[i]? := by
  have hkept := hframe.of_enterCall.2 i hi
  refine ⟨?_, hkept⟩
  by_cases hmade : st₂.functionsMade = st₁.functionsMade
  · rw [hframe.leaveCall_scopes hmade]
  · rw [leaveCall, if_neg hmade, hkept]

theorem Evaluator.Frame.size_leaveCall
    (hframe : Frame st₁.scopes.size (enterCall parameters vs home st₁) st₂) :
    st₁.scopes.size ≤ (leaveCall st₁.scopes.size st₁.functionsMade st₂).scopes.size := by
  by_cases hmade : st₂.functionsMade = st₁.functionsMade
  · exact Nat.le_of_eq (by rw [hframe.leaveCall_scopes hmade])
  · rw [leaveCall, if_neg hmade]
    exact Nat.le_of_lt hframe.of_enterCall.1

/-- What is bound behind a call has been bound at its end. -/
theorem Evaluator.Frame.bound?_leaveCall {l : Nat} {x : String}
    (hframe : Frame st₁.scopes.size (enterCall parameters vs home st₁) st₂)
    (hbound : bound? (leaveCall st₁.scopes.size st₁.functionsMade st₂).scopes l x = some v) :
    bound? st₂.scopes l x = some v := by
  by_cases hmade : st₂.functionsMade = st₁.functionsMade
  · have hscopes := hframe.leaveCall_scopes hmade
    rw [hscopes] at hbound
    have hlt : l < st₁.scopes.size := by
      by_contra hge
      rw [bound?, Array.getElem?_eq_none (Nat.le_of_not_lt hge)] at hbound
      cases hbound
    rw [bound?, (hframe.leaveCall_getElem? hlt).2]
    exact hbound
  · rwa [leaveCall, if_neg hmade] at hbound

end

section

variable {W₂ : World} {m₃ : Machine} {names parameters : List String} {home ip₂ : Nat}

theorem Leaves.births_leaveCall [StringHash] (hbirths₁ : Births p W₁ agenda st₁.scopes)
    (hleaves : Leaves p W₁ W₂ (agenda.opened st₁.scopes.size names) st₁.scopes.size
      (enterCall parameters vs home st₁) st₂ m₂ m₃ v)
    (hframe : Evaluator.Frame st₁.scopes.size (enterCall parameters vs home st₁) st₂) :
    Births p W₂ agenda (leaveCall st₁.scopes.size st₁.functionsMade st₂).scopes where
  compiled := hleaves.births.compiled
  alive := by
    intro b' hb'
    apply (hleaves.births.alive b' hb').transfer
    · intro l hl
      by_cases hmade : st₂.functionsMade = st₁.functionsMade
      · -- no function has been made in the call, so that the scopes of this one are older
        have hold : b' ∈ W₁ := by
          rcases hleaves.grown.made b' hb' with hold | ⟨hge, hlt⟩
          · exact hold
          · rw [hmade] at hlt
            exact absurd hge (Nat.not_le.mpr hlt)
        obtain ⟨hleft, hthere⟩ := hframe.leaveCall_getElem? ((hbirths₁.alive b' hold).lt_size hl)
        rw [hleft, hthere]
      · rw [leaveCall, if_neg hmade]
    · intro l _ x hx
      have hne : l ≠ st₁.scopes.size := Nat.ne_of_lt (hbirths₁.pending_lt l x hx)
      exact ⟨by rwa [Agenda.opened, if_neg hne], hne⟩
  oneToOne := hleaves.births.oneToOne
  pending_lt := fun l x hx => Nat.lt_of_lt_of_le (hbirths₁.pending_lt l x hx) hframe.size_leaveCall

theorem Values.leaveCall (hvalues : Values p W st₂ m)
    (hframe : Evaluator.Frame st₁.scopes.size (enterCall parameters vs home st₁) st₂) :
    Values p W (leaveCall st₁.scopes.size st₁.functionsMade st₂) m :=
  ⟨fun x u hx => hvalues.globals x u (hframe.bound?_leaveCall hx), hvalues.output, hvalues.closures,
    hvalues.constants⟩

/-- **The end of a call**: the machine goes on in the calling code, with the result in the place of the
closure and the arguments. -/
theorem Continues.leave [StringHash]
    (h₁ : Continues p W W₁ agenda running c₁ scope outer st st₁ m m₁ (n + 1) ip₁ (u :: vs))
    (hbounded : Bounded p running c₁) (hroom : m.frame.base + m.frame.numLocals ≤ m.top)
    (henters : m₁.Enters b.closure n ip₂ m₂)
    (hleaves : Leaves p W₁ W₂ (agenda.opened st₁.scopes.size names) st₁.scopes.size
      (enterCall parameters vs home st₁) st₂ m₂ m₃ v)
    (hframe : Evaluator.Frame st₁.scopes.size (enterCall parameters vs home st₁) st₂) :
    Continues p W W₂ agenda running c₁ scope outer st
      (leaveCall st₁.scopes.size st₁.functionsMade st₂) m m₃ 1 ip₂ [v] := by
  have htop := h₁.top
  have hactive := h₁.agree.active
  have hscope := hactive.chained.lt_size
  obtain ⟨w, hreturns, hmatch⟩ := hleaves.returns
  have hbase : m₂.frame.base = m.top + 1 := by
    rw [henters.frame]
    show m₁.top - n = _
    omega
  obtain ⟨hframe₃, hcallers₃, htop₃, hslot₃, hkept₃⟩ := hreturns.left _ _ henters.callers
  rw [hbase] at htop₃ hslot₃ hkept₃
  have hslots : ∀ k < m.top, m₃.slot k = m₁.slot k := fun k hk =>
    (hkept₃ k hk).trans (henters.kept k (by omega))
  have hglobals : m₃.globals = m₁.globals := by
    rw [hreturns.globals (by rw [henters.frame]; rfl), henters.globals]
  have hsame : ∀ l < st₁.scopes.size, ∀ x,
      bound? (leaveCall st₁.scopes.size st₁.functionsMade st₂).scopes l x = bound? st₁.scopes l x := by
    intro l hl x
    rw [bound?, bound?, (hframe.leaveCall_getElem? hl).1]
  have hgrown : W₁.Grown W₂ st₁ (leaveCall st₁.scopes.size st₁.functionsMade st₂) m₁ m₃ := by
    obtain ⟨new, hnew, hmade, hidentity, hids⟩ := hleaves.grown
    rw [henters.nextIdentity] at hidentity hids
    exact ⟨new, hnew, hmade, hidentity, hids⟩
  have hlevels : ∀ l ∈ scope :: outer, ∀ x,
      bound? (leaveCall st₁.scopes.size st₁.functionsMade st₂).scopes l x = bound? st₁.scopes l x :=
    fun l hl => hsame l (hactive.chained.mem_lt_size hl)
  refine ⟨h₁.grown.trans hgrown, ?_, htop₃, ?_, hleaves.births_leaveCall h₁.agree.births hframe,
    hleaves.values.leaveCall hframe, ?_, h₁.agree.tidy.congr (hsame scope hscope), fun hordered x hx =>
      (h₁.agree.known hordered x hx).congr (valueAt_congr fun l hl => hlevels l hl x)⟩
  · refine ⟨h₁.reaches.trans (henters.reaches.trans hreturns.reaches), ?_, ?_, ?_, ?_, ?_⟩
    · rw [hreturns.bytecode, henters.bytecode, h₁.moves.bytecode]
    · rw [hframe₃, h₁.moves.frame]
    · rw [hcallers₃, h₁.moves.callers]
    · intro k hk hlocal
      rw [hslots k hk, h₁.moves.kept k hk hlocal]
    · intro hsome
      rw [hglobals, h₁.moves.globals hsome]
  · show List.Forall₂ (Value.Matches W₂) [v] [m₃.slot m.top]
    rw [show m₃.slot m.top = w from hslot₃]
    exact .cons hmatch .nil
  · refine ⟨hactive.sound, (Evaluator.Frame.call hscope hframe).chained hactive.chained, ?_, ?_, ?_, ?_,
      ?_, ?_⟩
    · intro x u hx
      rw [hsame scope hscope] at hx
      obtain ⟨symbol, hget, hplace, hmatch⟩ := hactive.locals x u hx
      refine ⟨symbol, hget, hplace, ?_⟩
      have hvariable : m₃.variable symbol = m₁.variable symbol := by
        rcases hplace with hp | hp
        · have hindex := hactive.index_lt hbounded hget hp
          have hroom₁ := h₁.room hroom
          simp only [Machine.variable, hp]
          rw [hframe₃]
          exact hslots (m₁.frame.base + symbol.index) (by omega)
        · simp only [Machine.variable, hp]
          rw [hglobals]
      rw [hvariable]
      exact hmatch.mono hleaves.grown.subset
    · intro x symbol hget hplace l hl
      rw [hsame l (Nat.lt_trans (hactive.chained.lt_of_mem hl) hscope)]
      exact hactive.foreign x symbol hget hplace l hl
    · cases hactive.role with
      | main hn hscope houter hclosure hbase hcallers =>
          refine .main hn hscope houter ?_ ?_ (hcallers₃.trans hcallers)
          · rw [hframe₃]
            exact hclosure
          · rw [hframe₃]
            exact hbase
      | call hn hscope houter hclosure hbase hcallers hmem hself =>
          refine .call hn hscope houter ?_ ?_ ?_ (hleaves.grown.subset hmem) hself
          · rw [hframe₃]
            exact hclosure
          · rw [hframe₃]
            exact hbase
          · rw [hcallers₃]
            exact hcallers
    · have hroom₁ := h₁.room hroom
      rw [hframe₃]
      show m₁.frame.base + m₁.frame.numLocals ≤ m₃.top
      omega
    · have hle := hactive.top_le
      omega
    · rw [hcallers₃, hactive.depth]
      show _ = st₂.depth - 1
      rw [hframe.depth]
      exact (Nat.add_sub_cancel _ _).symm

end

end

end

end ScriptLang
