import ScriptLang.Proofs.Refinement.State

/-!
# Progress of both engines

A part of a program that both engines are about to execute (`Task`), the states in which they agree
(`Agree`), and what they come to behind the part: they go on (`Continues`) or the running call is over
(`Leaves`). The lemmas put progress together, one part behind another, and one instruction behind a part.
-/

namespace ScriptLang

open Machine (Moves Works Returns)
open Symbols (Knows Adds Found Clean)

/-! ## Functions made on the way

Both engines count the functions that they make. As long as they make the same ones, the counts go up by the
same number; the machine may make them in another order where a comparison has its operands the other way
round. -/

/-- The functions that have been made while the evaluator went from `st` to `st'` and the machine from `m` to
`m'`. -/
def World.Grown (W W' : World) (st st' : Evaluator) (m m' : Machine) : Prop :=
  ∃ new : World, W' = new ++ W ∧ st'.functionsMade = st.functionsMade + new.length ∧
    m'.nextIdentity = m.nextIdentity + new.length ∧
    ∀ b ∈ new, st.functionsMade ≤ b.functionId ∧ b.functionId < st'.functionsMade ∧
      m.nextIdentity ≤ b.closureId

/-- No function has an identity that the evaluator gives to functions on its way from `st` to `st'`. The
machine may be ahead of it. -/
def World.Apart (W : World) (st st' : Evaluator) : Prop :=
  ∀ b ∈ W, b.functionId < st.functionsMade ∨ st'.functionsMade ≤ b.functionId

namespace World

variable {W W₁ W₂ : World} {st st₁ st₂ : Evaluator} {m m₁ m₂ : Machine}

theorem Grown.refl (W : World) (st : Evaluator) (m : Machine) : Grown W W st st m m :=
  ⟨[], rfl, rfl, rfl, nofun⟩

theorem Grown.subset (h : Grown W W₁ st st₁ m m₁) : W ⊆ W₁ := by
  obtain ⟨new, rfl, -⟩ := h
  exact List.subset_append_right _ _

theorem Grown.le (h : Grown W W₁ st st₁ m m₁) :
    st.functionsMade ≤ st₁.functionsMade ∧ m.nextIdentity ≤ m₁.nextIdentity := by
  obtain ⟨new, -, hmade, hidentity, -⟩ := h
  omega

/-- A function was there before, or it has been made on the way. -/
theorem Grown.made (h : Grown W W₁ st st₁ m m₁) : ∀ b ∈ W₁, b ∈ W ∨
    st.functionsMade ≤ b.functionId ∧ b.functionId < st₁.functionsMade := by
  obtain ⟨new, rfl, -, -, hnew⟩ := h
  intro b hb
  rcases List.mem_append.mp hb with hb | hb
  · exact .inr ⟨(hnew b hb).1, (hnew b hb).2.1⟩
  · exact .inl hb

/-- Only the counts of the functions made matter. -/
theorem Grown.of_eq (h : Grown W W₁ st st₁ m m₁) (hmade : st₂.functionsMade = st₁.functionsMade)
    (hidentity : m₂.nextIdentity = m₁.nextIdentity) : Grown W W₁ st st₂ m m₂ := by
  rw [Grown, hmade, hidentity]
  exact h

theorem Grown.trans (h₁ : Grown W W₁ st st₁ m m₁) (h₂ : Grown W₁ W₂ st₁ st₂ m₁ m₂) :
    Grown W W₂ st st₂ m m₂ := by
  obtain ⟨new₁, rfl, hmade₁, hidentity₁, hnew₁⟩ := h₁
  obtain ⟨new₂, rfl, hmade₂, hidentity₂, hnew₂⟩ := h₂
  refine ⟨new₂ ++ new₁, (List.append_assoc _ _ _).symm, ?_, ?_, ?_⟩
  · rw [List.length_append]
    omega
  · rw [List.length_append]
    omega
  · intro b hb
    rcases List.mem_append.mp hb with hb | hb
    · have hb := hnew₂ b hb
      omega
    · have hb := hnew₁ b hb
      omega

/-- The machine has executed the second one of two parts first. -/
theorem Grown.swap {new : World} (h₁ : Grown W W₁ st₁ st₂ m m₁) (h₂ : Grown W (new ++ W) st st₁ m₁ m₂) :
    Grown W (new ++ W₁) st st₂ m m₂ := by
  obtain ⟨new₁, rfl, hmade₁, hidentity₁, hnew₁⟩ := h₁
  obtain ⟨new₂, heq, hmade₂, hidentity₂, hnew₂⟩ := h₂
  obtain rfl := List.append_cancel_right heq
  refine ⟨new ++ new₁, (List.append_assoc _ _ _).symm, ?_, ?_, ?_⟩
  · rw [List.length_append]
    omega
  · rw [List.length_append]
    omega
  · intro b hb
    rcases List.mem_append.mp hb with hb | hb
    · have hb := hnew₂ b hb
      omega
    · have hb := hnew₁ b hb
      omega

theorem Apart.left (h : W.Apart st st₂) (hle : st₁.functionsMade ≤ st₂.functionsMade) :
    W.Apart st st₁ := fun b hb => (h b hb).imp_right (Nat.le_trans hle)

theorem Apart.right (h : W.Apart st st₂) (hgrown : Grown W W₁ st st₁ m m₁) : W₁.Apart st₁ st₂ := by
  intro b hb
  have hle := hgrown.le.1
  rcases hgrown.made b hb with hold | hnew
  · rcases h b hold with hlt | hge
    · exact .inl (Nat.lt_of_lt_of_le hlt hle)
    · exact .inr hge
  · exact .inl hnew.2

/-- The first one of two parts has been evaluated in the meantime. -/
theorem Apart.later (h : W.Apart st st₂) (hle : st.functionsMade ≤ st₁.functionsMade) :
    W.Apart st₁ st₂ := fun b hb => (h b hb).imp_left fun hlt => Nat.lt_of_lt_of_le hlt hle

end World

/-! ## Parts that are to be executed -/

/-- Some names that code binds while the compiler goes from `c` to `c'`: `own` in the running scope, `all`
with those of its functions. -/
structure Scoped (p : Plan) (running : Option Birth) (scope : Nat) (outer : List Nat) (own all : List String)
    (agenda : Agenda) (c c' : Compiler) : Prop where
  sound : c.symbols.Sound
  bounded : Bounded p running c'
  fresh : Fresh p.globals own all c.symbols scope outer agenda
  within : ∀ b, running = some b → all ⊆ b.names

/-- A part of a program that is to be executed: where its code stands, and what is known of its names. -/
structure Task (p : Plan) (running : Option Birth) (scope : Nat) (outer : List Nat) (code : Code)
    (P : Part) (agenda : Agenda) (c : Compiler) (offset : Nat) (is : Instructions) (c' : Compiler) : Prop
    extends Scoped p running scope outer (P.binders false) (P.binders true) agenda c c' where
  emits : Emits P c offset is c'
  holds : code.Holds offset is
  allowed : P.isAllowed p.ordered = true
  named : P.isNamed none = true

/-- A part consists of two parts, one behind the other. -/
structure Part.Splits (P P₁ P₂ : Part) : Prop where
  binders : ∀ deep, P.binders deep = P₁.binders deep ++ P₂.binders deep
  allowed : ∀ ordered, P.isAllowed ordered = true →
    P₁.isAllowed ordered = true ∧ P₂.isAllowed ordered = true
  named : P.isNamed none = true → P₁.isNamed none = true ∧ P₂.isNamed none = true

section

variable {p : Plan} {running : Option Birth} {scope offset offset₁ offset₂ : Nat} {outer : List Nat}
  {own₁ own₂ all₁ all₂ : List String} {agenda : Agenda} {c c₁ c' : Compiler} {code : Code}
  {P P₁ P₂ : Part} {is is₁ is₂ : Instructions}

theorem Scoped.left (h : Scoped p running scope outer (own₁ ++ own₂) (all₁ ++ all₂) agenda c c')
    (h₁ : own₁ ⊆ all₁) (h₂ : own₂ ⊆ all₂) (hadds : Adds c₁.symbols own₂ c'.symbols)
    (hgrows : c₁.Grows c') : Scoped p running scope outer own₁ all₁ agenda c c₁ :=
  ⟨h.sound, h.bounded.anti hadds hgrows, h.fresh.left h₁ h₂,
    fun b hb _ hx => h.within b hb (List.mem_append_left _ hx)⟩

theorem Scoped.right (h : Scoped p running scope outer (own₁ ++ own₂) (all₁ ++ all₂) agenda c c')
    (h₁ : own₁ ⊆ all₁) (h₂ : own₂ ⊆ all₂) (hadds : Adds c.symbols own₁ c₁.symbols)
    (hsound : c₁.symbols.Sound) :
    Scoped p running scope outer own₂ all₂ (agenda.done scope own₁) c₁ c' :=
  ⟨hsound, h.bounded, h.fresh.right h₁ h₂ hadds,
    fun b hb _ hx => h.within b hb (List.mem_append_right _ hx)⟩

namespace Task

theorem adds (t : Task p running scope outer code P agenda c offset is c') :
    Adds c.symbols (P.binders false) c'.symbols :=
  t.emits.adds_unnamed t.sound t.fresh.unknown t.named

theorem grows (t : Task p running scope outer code P agenda c offset is c') :
    c'.symbols.Sound ∧ c.Grows c' := t.emits.grows t.sound

/-- Two parts, one behind the other. Their code may stand anywhere. -/
theorem split (t : Task p running scope outer code P agenda c offset is c') (hP : P.Splits P₁ P₂)
    (h₁ : Emits P₁ c offset₁ is₁ c₁) (hholds₁ : code.Holds offset₁ is₁)
    (h₂ : Emits P₂ c₁ offset₂ is₂ c') (hholds₂ : code.Holds offset₂ is₂) :
    Task p running scope outer code P₁ agenda c offset₁ is₁ c₁ ∧
      Task p running scope outer code P₂ (agenda.done scope (P₁.binders false)) c₁ offset₂ is₂ c' := by
  obtain ⟨hallowed₁, hallowed₂⟩ := hP.allowed _ t.allowed
  obtain ⟨hnamed₁, hnamed₂⟩ := hP.named t.named
  have hscoped := t.toScoped
  rw [hP.binders, hP.binders] at hscoped
  have hsub₁ := P₁.own_sublist.subset
  have hsub₂ := P₂.own_sublist.subset
  obtain ⟨hsound₁, -⟩ := h₁.grows t.sound
  have hunknown := hscoped.fresh.unknown
  have hadds₁ := h₁.adds_unnamed t.sound hunknown.left hnamed₁
  have hadds₂ := h₂.adds_unnamed hsound₁ (hunknown.right hadds₁ hsub₁) hnamed₂
  obtain ⟨-, hgrows₂⟩ := h₂.grows hsound₁
  exact ⟨⟨hscoped.left hsub₁ hsub₂ hadds₂ hgrows₂, h₁, hholds₁, hallowed₁, hnamed₁⟩,
    ⟨hscoped.right hsub₁ hsub₂ hadds₁ hsound₁, h₂, hholds₂, hallowed₂, hnamed₂⟩⟩

/-- Two parts whose code stands one behind the other. -/
theorem pair (t : Task p running scope outer code P agenda c offset (is₁ ++ is₂) c')
    (hP : P.Splits P₁ P₂) (h₁ : Emits P₁ c offset is₁ c₁)
    (h₂ : Emits P₂ c₁ (offset + Instructions.size is₁) is₂ c') :
    Task p running scope outer code P₁ agenda c offset is₁ c₁ ∧
      Task p running scope outer code P₂ (agenda.done scope (P₁.binders false)) c₁
        (offset + Instructions.size is₁) is₂ c' :=
  t.split hP h₁ t.holds.left h₂ t.holds.right

/-- A part of a part that binds the same names. -/
theorem inner (t : Task p running scope outer code P agenda c offset is c')
    (hbinders : ∀ deep, P.binders deep = P₁.binders deep)
    (hallowed : P.isAllowed p.ordered = true → P₁.isAllowed p.ordered = true)
    (hnamed : P.isNamed none = true → P₁.isNamed none = true)
    (h₁ : Emits P₁ c offset₁ is₁ c') (hholds₁ : code.Holds offset₁ is₁) :
    Task p running scope outer code P₁ agenda c offset₁ is₁ c' := by
  have hscoped := t.toScoped
  rw [hbinders, hbinders] at hscoped
  exact ⟨hscoped, h₁, hholds₁, hallowed t.allowed, hnamed t.named⟩

end Task

end

/-! ## States that agree -/

/-- Both engines are at the same place of a program. -/
structure Agree (p : Plan) (W : World) (agenda : Agenda) (running : Option Birth) (c : Compiler)
    (scope : Nat) (outer : List Nat) (st : Evaluator) (m : Machine) : Prop where
  births : Births p W agenda st.scopes
  values : Values p W st m
  active : Active W running c scope outer st m
  tidy : p.Tidy st.scopes scope
  known : p.ordered = false → ∀ x, Knows c.symbols.tables x → Known st.scopes (scope :: outer) x

/-- What is still to be bound when the call that runs in a scope is over. -/
def Agenda.without (agenda : Agenda) (scope : Nat) : Agenda := fun l x => agenda l x ∧ l ≠ scope

section

variable [StringHash]

/-- Both engines have executed a part of a program. The machine is at the offset `ip` of the running code,
and the values of the part stand on the stack from its old top on. -/
structure Continues (p : Plan) (W W' : World) (agenda : Agenda) (running : Option Birth) (c' : Compiler)
    (scope : Nat) (outer : List Nat) (st st' : Evaluator) (m m' : Machine) (height ip : Nat)
    (vs : List Value) : Prop where
  grown : W.Grown W' st st' m m'
  moves : Moves m.top ip m m'
  top : m'.top = m.top + height
  values : List.Forall₂ (Value.Matches W') vs (m'.window m.top vs.length)
  agree : Agree p W' agenda running c' scope outer st' m'

/-- Both engines have executed a part of a program up to a `return`. -/
structure Leaves (p : Plan) (W W' : World) (agenda : Agenda) (scope : Nat) (st st' : Evaluator)
    (m m' : Machine) (v : Value) : Prop where
  grown : W.Grown W' st st' m m'
  returns : ∃ w, Returns w m m' ∧ Value.Matches W' v w
  births : Births p W' (agenda.without scope) st'.scopes
  values : Values p W' st' m'

/-- The machine follows the evaluator to an outcome. -/
def Follows (p : Plan) (W : World) (agenda : Agenda) (running : Option Birth) (c' : Compiler)
    (scope : Nat) (outer : List Nat) (st : Evaluator) (m : Machine) (height ip : Nat) :
    Outcome → Evaluator → Prop
  | .values vs, st' =>
    ∃ W' m', Continues p W W' agenda running c' scope outer st st' m m' height ip vs
  | .returned v, st' => ∃ W' m', Leaves p W W' agenda scope st st' m m' v

end

section

variable {p : Plan} {W W' W₁ W₂ : World} {agenda agenda' agenda₁ agenda₂ : Agenda}
  {running : Option Birth} {c c' c₁ c₂ : Compiler} {scope : Nat} {outer : List Nat}
  {st st' st₁ st₂ : Evaluator} {m m' m₁ m₂ : Machine} {h ip ip₁ ip₂ height₁ height₂ : Nat}
  {v : Value} {vs vs₁ vs₂ : List Value}

/-! ### One part behind another -/

section

variable [StringHash]

namespace Continues

theorem code_eq (h₁ : Continues p W W₁ agenda running c₁ scope outer st st₁ m m₁ height₁ ip₁ vs₁) :
    m₁.code = m.code := h₁.moves.code_eq

theorem reaches (h₁ : Continues p W W₁ agenda running c₁ scope outer st st₁ m m₁ height₁ ip₁ vs₁) :
    m.Reaches m₁ := h₁.moves.reaches

/-- The code of a part that comes next. -/
theorem task {P : Part} {is : Instructions}
    (h₁ : Continues p W W₁ agenda running c₁ scope outer st st₁ m m₁ height₁ ip₁ vs₁)
    (t : Task p running scope outer m.code P agenda' c ip₁ is c') :
    Task p running scope outer m₁.code P agenda' c m₁.frame.ip is c' := by
  rw [h₁.code_eq, h₁.moves.ip_eq]
  exact t

/-- Values on the stack stay there while a part behind is executed. -/
theorem window_eq (h₁ : Continues p W W₁ agenda₁ running c₁ scope outer st st₁ m m₁ height₁ ip₁ vs₁)
    (h₂ : Moves m₁.top ip₂ m₁ m₂) (hroom : m.frame.base + m.frame.numLocals ≤ m.top)
    (hheight : vs₁.length ≤ height₁) :
    m₂.window m.top vs₁.length = m₁.window m.top vs₁.length := by
  apply Machine.window_congr
  intro k hk hlt
  have htop := h₁.top
  apply h₂.kept k (by omega)
  rw [h₁.moves.isLocal_iff]
  exact fun hlocal => absurd hlocal.2 (by omega)

/-- Values of two parts on the stack, whichever of them comes first in the evaluator. -/
theorem join {W₀ W₃ : World} {st₀ st₃ : Evaluator}
    (h₁ : Continues p W W₁ agenda₁ running c₁ scope outer st st₁ m m₁ height₁ ip₁ vs₁)
    (h₂ : Continues p W₀ W₂ agenda₂ running c₂ scope outer st₀ st₂ m₁ m₂ height₂ ip₂ vs₂)
    (hroom : m.frame.base + m.frame.numLocals ≤ m.top) (hheight : height₁ = vs₁.length)
    (hsub₁ : W₁ ⊆ W₃) (hsub₂ : W₂ ⊆ W₃) (hgrown : W.Grown W₃ st' st₃ m m₂)
    (hagree : Agree p W₃ agenda₂ running c₂ scope outer st₃ m₂) :
    Continues p W W₃ agenda₂ running c₂ scope outer st' st₃ m m₂ (height₁ + height₂) ip₂
      (vs₁ ++ vs₂) where
  grown := hgrown
  moves := h₁.moves.trans h₂.moves (by rw [h₁.top]; exact Nat.le_add_right _ _)
  top := by rw [h₂.top, h₁.top, Nat.add_assoc]
  values := by
    rw [List.length_append, Machine.window_add, h₁.window_eq h₂.moves hroom (Nat.le_of_eq hheight.symm),
      ← hheight, ← h₁.top]
    have hmono₁ := h₁.values.imp fun _ _ hmatch => hmatch.mono hsub₁
    have hmono₂ := h₂.values.imp fun _ _ hmatch => hmatch.mono hsub₂
    rw [hheight]
    exact List.rel_append hmono₁ hmono₂
  agree := hagree

/-- **One part behind another**, which keeps the values of the first one on the stack. -/
theorem concat (h₁ : Continues p W W₁ agenda₁ running c₁ scope outer st st₁ m m₁ height₁ ip₁ vs₁)
    (h₂ : Continues p W₁ W₂ agenda₂ running c₂ scope outer st₁ st₂ m₁ m₂ height₂ ip₂ vs₂)
    (hroom : m.frame.base + m.frame.numLocals ≤ m.top) (hheight : height₁ = vs₁.length) :
    Continues p W W₂ agenda₂ running c₂ scope outer st st₂ m m₂ (height₁ + height₂) ip₂
      (vs₁ ++ vs₂) :=
  h₁.join h₂ hroom hheight h₂.grown.subset (List.Subset.refl _) (h₁.grown.trans h₂.grown) h₂.agree

/-- One part behind another that leaves nothing on the stack. -/
theorem after (h₁ : Continues p W W₁ agenda₁ running c₁ scope outer st st₁ m m₁ 0 ip₁ vs₁)
    (h₂ : Continues p W₁ W₂ agenda₂ running c₂ scope outer st₁ st₂ m₁ m₂ height₂ ip₂ vs₂) :
    Continues p W W₂ agenda₂ running c₂ scope outer st st₂ m m₂ height₂ ip₂ vs₂ where
  grown := h₁.grown.trans h₂.grown
  moves := h₁.moves.trans h₂.moves (Nat.le_of_eq h₁.top.symm)
  top := by rw [h₂.top, h₁.top, Nat.add_zero]
  values := by
    have hvalues := h₂.values
    rw [h₁.top] at hvalues
    exact hvalues
  agree := h₂.agree

/-- A part that goes on, and one that ends the call behind it. -/
theorem leaves (h₁ : Continues p W W₁ agenda₁ running c₁ scope outer st st₁ m m₁ height₁ ip₁ vs₁)
    (h₂ : Leaves p W₁ W₂ agenda₂ scope st₁ st₂ m₁ m₂ v)
    (hroom : m.frame.base + m.frame.numLocals ≤ m.top)
    (hagenda : ∀ l x, agenda l x → l ≠ scope → agenda₂ l x) :
    Leaves p W W₂ agenda scope st st₂ m m₂ v where
  grown := h₁.grown.trans h₂.grown
  returns := by
    obtain ⟨w, hreturns, hmatch⟩ := h₂.returns
    exact ⟨w, hreturns.of_moves h₁.moves (by omega), hmatch⟩
  births := h₂.births.anti fun l x hx => ⟨hagenda l x hx.1 hx.2, hx.2⟩
  values := h₂.values

theorem anti (h₁ : Continues p W W₁ agenda running c₁ scope outer st st₁ m m₁ height₁ ip₁ vs₁)
    (hle : ∀ l x, agenda' l x → agenda l x) :
    Continues p W W₁ agenda' running c₁ scope outer st st₁ m m₁ height₁ ip₁ vs₁ :=
  ⟨h₁.grown, h₁.moves, h₁.top, h₁.values, 
    ⟨h₁.agree.births.anti hle, h₁.agree.values, h₁.agree.active, h₁.agree.tidy, h₁.agree.known⟩⟩

end Continues

theorem Leaves.anti (hleaves : Leaves p W W₁ agenda scope st st₁ m m₁ v)
    (hle : ∀ l x, agenda' l x → l ≠ scope → agenda l x) : Leaves p W W₁ agenda' scope st st₁ m m₁ v :=
  ⟨hleaves.grown, hleaves.returns, hleaves.births.anti fun l x hx => ⟨hle l x hx.1 hx.2, hx.2⟩,
    hleaves.values⟩

/-! ### Instructions -/

/-- A stretch of code that stores nothing leaves the running call as it is. -/
theorem Active.works (hactive : Active W running c scope outer st m) (hbounded : Bounded p running c)
    (hw : Works h ip m m') (hkept : m.frame.base + m.frame.numLocals ≤ h)
    (hroom : m.frame.base + m.frame.numLocals ≤ m'.top) (hle : m'.top ≤ stackSize) :
    Active W running c scope outer st m' where
  sound := hactive.sound
  chained := hactive.chained
  locals := by
    intro x v hx
    obtain ⟨symbol, hget, hplace, hmatch⟩ := hactive.locals x v hx
    refine ⟨symbol, hget, hplace, ?_⟩
    have hsame : m'.variable symbol = m.variable symbol := by
      rcases hplace with hp | hp
      · have hindex := hactive.index_lt hbounded hget hp
        simp only [Machine.variable, hp]
        rw [hw.frame]
        exact hw.kept _ (Nat.lt_of_lt_of_le (Nat.add_lt_add_left hindex _) hkept)
      · simp only [Machine.variable, hp]
        rw [hw.globals]
    rw [hsame]
    exact hmatch
  foreign := hactive.foreign
  role := by
    cases hactive.role with
    | main hn hscope houter hclosure hbase hcallers =>
        refine .main hn hscope houter ?_ ?_ (hw.callers.trans hcallers)
        · rw [hw.frame]
          exact hclosure
        · rw [hw.frame]
          exact hbase
    | call hn hscope houter hclosure hbase hcallers hmem hself =>
        refine .call hn hscope houter ?_ ?_ ?_ hmem hself
        · rw [hw.frame]
          exact hclosure
        · rw [hw.frame]
          exact hbase
        · rw [hw.callers]
          exact hcallers
  room := by
    rw [hw.frame]
    exact hroom
  top_le := hle
  depth := by
    rw [hw.callers]
    exact hactive.depth

end

/-- Globals, output and functions are what the relation is about. -/
theorem Values.of_eq (hvalues : Values p W st m) (hglobals : m'.globals = m.globals)
    (hbytecode : m'.bytecode = m.bytecode) (houtput : m'.output = m.output)
    (hidentity : m'.nextIdentity = m.nextIdentity) : Values p W st m' where
  globals := by
    rw [hglobals]
    exact hvalues.globals
  output := by
    rw [houtput]
    exact hvalues.output
  closures := by
    rw [hidentity]
    exact hvalues.closures
  constants := by
    rw [hbytecode]
    exact hvalues.constants

/-- Code that stores nothing leaves the states in agreement. -/
theorem Agree.works [StringHash] (hagree : Agree p W agenda running c scope outer st m)
    (hbounded : Bounded p running c) (hw : Works h ip m m')
    (hkept : m.frame.base + m.frame.numLocals ≤ h)
    (hroom : m.frame.base + m.frame.numLocals ≤ m'.top) (hle : m'.top ≤ stackSize)
    (houtput : m'.output = m.output) (hidentity : m'.nextIdentity = m.nextIdentity) :
    Agree p W agenda running c scope outer st m' :=
  ⟨hagree.births, hagree.values.of_eq hw.globals hw.bytecode houtput hidentity,
    hagree.active.works hbounded hw hkept hroom hle, hagree.tidy, hagree.known⟩

/-- Below the slots of a call there is the one of its closure. -/
theorem Role.base_pos (hrole : Role W c scope outer m running) (hcallers : m.callers ≠ []) :
    1 ≤ m.frame.base := by
  cases hrole with
  | main _ _ _ _ _ hnil => exact absurd hnil hcallers
  | call _ _ _ _ hbase _ _ _ => exact hbase

/-- Nothing has been executed yet. -/
theorem Continues.refl [StringHash] (hagree : Agree p W agenda running c scope outer st m) :
    Continues p W W agenda running c scope outer st st m m 0 m.frame.ip [] :=
  ⟨.refl _ _ _, .refl _ _, rfl, .nil, hagree⟩

theorem Instruction.print_eq {i : Instruction} (hcall : i.opcode ≠ .call) (vs : List Value)
    (output : Output) : i.print vs output = output := by
  cases i with
  | call => exact absurd rfl hcall
  | _ => rfl

namespace Continues

variable [StringHash] {i : Instruction} {is : Instructions} {w : Value}

/-- The values of a part are what an instruction behind it finds. -/
theorem operands_eq (h₁ : Continues p W W₁ agenda running c₁ scope outer st st₁ m m₁ height₁ ip₁ vs) :
    m₁.operands height₁ = m₁.window m.top height₁ := by
  rw [Machine.operands_eq_window, h₁.top, Nat.add_sub_cancel]

/-- The code behind a part stands where the machine has got to. -/
theorem holds (h₁ : Continues p W W₁ agenda running c₁ scope outer st st₁ m m₁ height₁ ip₁ vs)
    (hholds : m.code.Holds ip₁ is) : m₁.code.Holds m₁.frame.ip is := by
  rw [h₁.code_eq, h₁.moves.ip_eq]
  exact hholds

theorem room (h₁ : Continues p W W₁ agenda running c₁ scope outer st st₁ m m₁ height₁ ip₁ vs)
    (hroom : m.frame.base + m.frame.numLocals ≤ m.top) :
    m₁.frame.base + m₁.frame.numLocals ≤ m.top := by
  rw [h₁.moves.base_eq, h₁.moves.numLocals_eq]
  exact hroom

/-- **An instruction behind its operands** puts its result in their place, or it overflows the stack. -/
theorem operate (h₁ : Continues p W W₁ agenda running c₁ scope outer st st₁ m m₁ i.pops ip₁ vs)
    (hbounded : Bounded p running c₁) (hroom : m.frame.base + m.frame.numLocals ≤ m.top)
    (hholds : m.code.Holds ip₁ (i :: is))
    (hresult : i.result? m₁ (m₁.window m.top i.pops) = some (.ok w)) (hmatch : Value.Matches W₁ v w)
    (hcall : i.opcode ≠ .call) (hmade : i.closuresMade = 0) :
    m.Overflows ∨ ∃ m', Continues p W W₁ agenda running c₁ scope outer st st₁ m m' 1
      (ip₁ + i.size) [v] := by
  have htop := h₁.top
  have hroom₁ := h₁.room hroom
  rw [← h₁.operands_eq] at hresult
  rcases Machine.works_of_result (h₁.holds hholds) hresult (by omega) with
    hover | ⟨m₂, hw, htop₂, hslot, hle, houtput, hidentity⟩
  · exact .inl (hover.of_reaches h₁.reaches)
  · rw [htop, Nat.add_sub_cancel] at hw htop₂ hslot
    rw [Instruction.print_eq hcall] at houtput
    rw [hmade] at hidentity
    rw [h₁.moves.ip_eq] at hw
    refine .inr ⟨m₂, h₁.grown.of_eq rfl hidentity, h₁.moves.trans hw.moves (Nat.le_refl _), htop₂, ?_, ?_⟩
    · show List.Forall₂ (Value.Matches W₁) [v] [m₂.slot m.top]
      rw [hslot]
      exact .cons hmatch .nil
    · exact h₁.agree.works hbounded hw hroom₁ (by omega) hle houtput hidentity

/-- The value of an expression statement is taken off the stack again, where its slot keeps it. -/
theorem pop (h₁ : Continues p W W₁ agenda running c₁ scope outer st st₁ m m₁ 1 ip₁ [v])
    (hbounded : Bounded p running c₁) (hroom : m.frame.base + m.frame.numLocals ≤ m.top)
    (hholds : m.code.Holds ip₁ (.pop :: is)) :
    ∃ m', Continues p W W₁ agenda running c₁ scope outer st st₁ m m' 0
      (ip₁ + Instruction.pop.size) [v] := by
  have htop := h₁.top
  have hroom₁ := h₁.room hroom
  have hle := h₁.agree.active.top_le
  obtain ⟨m₂, hw, htop₂, houtput, hidentity⟩ := Machine.works_of_pop (h₁.holds hholds) (by omega)
  rw [h₁.moves.ip_eq] at hw
  refine ⟨m₂, h₁.grown.of_eq rfl hidentity, h₁.moves.trans hw.moves (by omega), by omega, ?_, ?_⟩
  · have hvalue := h₁.values
    have hslot : m₂.slot m.top = m₁.slot m.top := hw.kept _ (by omega)
    show List.Forall₂ (Value.Matches W₁) [v] [m₂.slot m.top]
    rw [hslot]
    exact hvalue
  · exact h₁.agree.works hbounded hw (by omega) (by omega) (by omega) houtput hidentity

theorem jump {target : Nat}
    (h₁ : Continues p W W₁ agenda running c₁ scope outer st st₁ m m₁ height₁ ip₁ vs)
    (hbounded : Bounded p running c₁) (hroom : m.frame.base + m.frame.numLocals ≤ m.top)
    (hheight : vs.length ≤ height₁) (hholds : m.code.Holds ip₁ (.jump target :: is)) :
    ∃ m', Continues p W W₁ agenda running c₁ scope outer st st₁ m m' height₁ target vs := by
  have htop := h₁.top
  have hroom₁ := h₁.room hroom
  have hle := h₁.agree.active.top_le
  obtain ⟨m₂, hw, htop₂, houtput, hidentity⟩ := Machine.works_of_jump (h₁.holds hholds)
  refine ⟨m₂, h₁.grown.of_eq rfl hidentity, h₁.moves.trans hw.moves (by omega), by omega, ?_, ?_⟩
  · rw [h₁.window_eq hw.moves hroom hheight]
    exact h₁.values
  · exact h₁.agree.works hbounded hw (by omega) (by omega) (by omega) houtput hidentity

/-- A condition is taken off the stack, and decides where the machine goes on. -/
theorem jumpNotTruthy {target : Nat}
    (h₁ : Continues p W W₁ agenda running c₁ scope outer st st₁ m m₁ 1 ip₁ [v])
    (hbounded : Bounded p running c₁) (hroom : m.frame.base + m.frame.numLocals ≤ m.top)
    (hholds : m.code.Holds ip₁ (.jumpNotTruthy target :: is)) :
    ∃ m', Continues p W W₁ agenda running c₁ scope outer st st₁ m m' 0
      (if v.isTruthy then ip₁ + (Instruction.jumpNotTruthy target).size else target) [] := by
  have htop := h₁.top
  have hroom₁ := h₁.room hroom
  have hle := h₁.agree.active.top_le
  have hvalue : Value.Matches W₁ v (m₁.slot m.top) := by
    rcases h₁.values with _ | ⟨hmatch, _⟩
    exact hmatch
  obtain ⟨m₂, hw, htop₂, houtput, hidentity⟩ :=
    Machine.works_of_jumpNotTruthy (h₁.holds hholds) (by omega)
  rw [htop, Nat.add_sub_cancel, ← hvalue.isTruthy_eq, h₁.moves.ip_eq] at hw
  refine ⟨m₂, h₁.grown.of_eq rfl hidentity, h₁.moves.trans hw.moves (by omega), by omega, .nil, ?_⟩
  exact h₁.agree.works hbounded hw (by omega) (by omega) (by omega) houtput hidentity

/-! ### Returns -/

theorem returnValue (h₁ : Continues p W W₁ agenda₁ running c₁ scope outer st st₁ m m₁ 1 ip₁ [v])
    (hroom : m.frame.base + m.frame.numLocals ≤ m.top) (hholds : m.code.Holds ip₁ (.returnValue :: is))
    (hagenda : ∀ l x, agenda l x → l ≠ scope → agenda₁ l x) :
    ∃ m', Leaves p W W₁ agenda scope st st₁ m m' v := by
  have htop := h₁.top
  have hroom₁ := h₁.room hroom
  have hle := h₁.agree.active.top_le
  obtain ⟨m₂, hreturns, hglobals, houtput, hidentity⟩ :=
    Machine.returns_of_returnValue (h₁.holds hholds) (by omega) hle h₁.agree.active.role.base_pos
      (by omega)
  rw [htop, Nat.add_sub_cancel] at hreturns
  refine ⟨m₂, h₁.grown.of_eq rfl hidentity, ⟨m₁.slot m.top, hreturns.of_moves h₁.moves (by omega), ?_⟩, ?_, ?_⟩
  · rcases h₁.values with _ | ⟨hmatch, _⟩
    exact hmatch
  · exact h₁.agree.births.anti fun l x hx => hagenda l x hx.1 hx.2
  · exact h₁.agree.values.of_eq hglobals hreturns.bytecode houtput hidentity

theorem «return» (h₁ : Continues p W W₁ agenda₁ running c₁ scope outer st st₁ m m₁ 0 ip₁ vs)
    (hroom : m.frame.base + m.frame.numLocals ≤ m.top) (hholds : m.code.Holds ip₁ (.return :: is))
    (hagenda : ∀ l x, agenda l x → l ≠ scope → agenda₁ l x) :
    ∃ m', Leaves p W W₁ agenda scope st st₁ m m' .null := by
  have htop := h₁.top
  have hroom₁ := h₁.room hroom
  have hle := h₁.agree.active.top_le
  obtain ⟨m₂, hreturns, hglobals, houtput, hidentity⟩ :=
    Machine.returns_of_return (h₁.holds hholds) hle h₁.agree.active.role.base_pos (by omega)
  refine ⟨m₂, h₁.grown.of_eq rfl hidentity, ⟨.null, hreturns.of_moves h₁.moves (by omega), .null⟩, ?_, ?_⟩
  · exact h₁.agree.births.anti fun l x hx => hagenda l x hx.1 hx.2
  · exact h₁.agree.values.of_eq hglobals hreturns.bytecode houtput hidentity

end Continues

/-! ### Definitions -/

open Symbols in
theorem definedSymbol_eq (s : Symbols) (name : String) :
    s.definedSymbol name = ⟨name, if s.nested then .local else .global, s.inner.numDefinitions⟩ := by
  rw [definedSymbol, definitionPlace_eq]

/-- What is stored under a new symbol is its value from then on, and the other symbols keep theirs. -/
theorem Active.store [StringHash] {name : String} {is : Instructions}
    (hactive : Active W running c scope outer st m)
    (hbounded : Bounded p running { c with symbols := c.symbols.define name })
    (htop : m.frame.base + m.frame.numLocals + 1 ≤ m.top)
    (hholds : m.code.Holds m.frame.ip ((c.symbols.definedSymbol name).storeInstruction :: is)) :
    ∃ m', Moves (m.top - 1) (m.frame.ip + (c.symbols.definedSymbol name).storeInstruction.size) m m' ∧
      m'.top = m.top - 1 ∧ m'.variable (c.symbols.definedSymbol name) = m.slot (m.top - 1) ∧
      (∀ x symbol, c.symbols.inner.bindings.get? x = some symbol →
        symbol.place = .local ∨ symbol.place = .global → m'.variable symbol = m.variable symbol) ∧
      (c.symbols.nested = true → m'.globals = m.globals) ∧ m'.output = m.output ∧
      m'.nextIdentity = m.nextIdentity := by
  have hsound := hactive.sound.inner
  cases hactive.role with
  | main hnested _ _ hclosure =>
      have hfits := hholds.2 _ List.mem_cons_self
      simp only [definedSymbol_eq, hnested, Symbol.storeInstruction] at hholds hfits ⊢
      obtain ⟨m', hmoves, htop', hslots, hglobals, houtput, hidentity⟩ :=
        Machine.moves_of_setGlobal hholds (by omega) hclosure
      have hindex := setGlobal_fits hfits
      refine ⟨m', hmoves, htop', ?_, ?_, fun h => absurd h Bool.false_ne_true, houtput, hidentity⟩
      · show m'.globals[c.symbols.inner.numDefinitions]?.getD .null = _
        rw [hglobals, Vector.getElem?_setIfInBounds_self_of_lt hindex]
        rfl
      · intro x symbol hget hplace
        have hvalid := (hsound x symbol hget).2
        unfold Symbol.Valid at hvalid
        rcases hplace with hp | hp
        · simp only [hp] at hvalid
          rw [Symbols.nested] at hnested
          rw [hnested] at hvalid
          exact absurd hvalid.1 Bool.false_ne_true
        · simp only [hp] at hvalid
          simp only [Machine.variable, hp]
          rw [hglobals, Vector.getElem?_setIfInBounds_ne (by omega)]
  | @call b hnested _ _ hclosure =>
      simp only [definedSymbol_eq, hnested, if_true, Symbol.storeInstruction] at hholds ⊢
      have hlocals : c.symbols.inner.numDefinitions < m.frame.numLocals := by
        rw [Active.frame_numLocals hclosure]
        exact (hbounded.slots b rfl).numDefinitions
      obtain ⟨m', hmoves, htop', hslot, hother, hglobals, houtput, hidentity⟩ :=
        Machine.moves_of_setLocal hholds hlocals (by omega) hactive.top_le
      refine ⟨m', hmoves, htop', ?_, ?_, fun _ => hglobals, houtput, hidentity⟩
      · show m'.slot (m'.frame.base + c.symbols.inner.numDefinitions) = _
        rw [hmoves.base_eq, hslot]
      · intro x symbol hget hplace
        have hvalid := (hsound x symbol hget).2
        unfold Symbol.Valid at hvalid
        rcases hplace with hp | hp
        · simp only [hp] at hvalid
          simp only [Machine.variable, hp]
          rw [hmoves.base_eq]
          exact hother _ (by omega)
        · simp only [Machine.variable, hp]
          rw [hglobals]

/-- A name that is bound is not that of a built-in function, and only the main program binds globals. -/
theorem Fresh.tidy {globals all : List String} {name : String} {s : Symbols}
    (h : Fresh globals [name] all s scope outer agenda) :
    Builtin.ofName? name = none ∧ (scope ≠ 0 → name ∉ globals) := by
  obtain ⟨hbuiltin, hglobal⟩ := h.clean name (h.own_subset (List.mem_singleton_self _))
  exact ⟨hbuiltin, fun hne hmem => hne (hglobal hmem).1⟩

/-- The scope stays tidy when a name is bound. -/
theorem Plan.Tidy.bind {name : String} (h : p.Tidy st.scopes scope)
    (hname : Builtin.ofName? name = none ∧ (scope ≠ 0 → name ∉ p.globals)) :
    p.Tidy (st.bind name v scope).scopes scope := by
  intro x u hx
  by_cases heq : x = name
  · exact heq ▸ hname
  · rw [bound?_bind_of_ne fun _ => heq] at hx
    exact h x u hx

/-- What a name stands for, it may stand for something else when a name is bound. -/
theorem Known.bind {levels : List Nat} {name x : String} (h : Known st.scopes levels x) :
    Known (st.bind name v scope).scopes levels x := by
  refine h.imp_left fun hx => ?_
  intro hnone
  apply hx
  rw [valueAt_eq_none_iff] at hnone ⊢
  intro l hl
  have hl := hnone l hl
  by_cases hnew : l = scope ∧ x = name
  · obtain ⟨rfl, rfl⟩ := hnew
    by_cases hlt : l < st.scopes.size
    · rw [bound?_bind_self hlt] at hl
      cases hl
    · rw [bound?, Array.getElem?_eq_none (Nat.le_of_not_lt hlt)]
      rfl
  · rwa [bound?_bind_of_ne fun h₁ h₂ => hnew ⟨h₁, h₂⟩] at hl

/-- A definition makes its name known. -/
theorem Agree.known_define {name : String} (hagree : Agree p W agenda running c scope outer st m)
    (hadds : Adds c.symbols [name] c'.symbols) :
    p.ordered = false → ∀ x, Knows c'.symbols.tables x →
      Known (st.bind name v scope).scopes (scope :: outer) x := by
  intro hordered x hx
  rcases hadds.knows hx with hold | hnew
  · exact (hagree.known hordered x hold).bind
  · obtain rfl := List.mem_singleton.mp hnew
    exact .of_bound (bound?_bind_self hagree.active.chained.lt_size)

/-- Binding a name that was still to be bound changes nothing for the functions that have been made. -/
theorem Births.bind {name : String} {all : List String} (hbirths : Births p W agenda st.scopes)
    (hfresh : Fresh p.globals [name] all c.symbols scope outer agenda) :
    Births p W (agenda.done scope [name]) (st.bind name v scope).scopes where
  compiled := hbirths.compiled
  alive := by
    intro b hb
    have hdue := hfresh.due name (List.mem_singleton_self _)
    exact ((hbirths.alive b hb).bind (hbirths.compiled b hb) hdue hfresh.tidy).anti fun _ _ h => h.1
  oneToOne := hbirths.oneToOne
  pending_lt := by
    intro l x hx
    rw [Evaluator.bind, Array.size_modify]
    exact hbirths.pending_lt l x hx.1

section

variable [StringHash]

/-- The running call behind a definition. -/
theorem Active.define {name : String} {w : Value} (hactive : Active W running c scope outer st m)
    (hapart : ∀ b, running = some b → ∀ l ∈ b.levels, bound? st.scopes l name = none)
    (hmoves : Moves h ip m m') (hroom : m.frame.base + m.frame.numLocals ≤ m'.top)
    (hle : m'.top ≤ stackSize) (hnew : m'.variable (c.symbols.definedSymbol name) = w)
    (hold : ∀ x symbol, c.symbols.inner.bindings.get? x = some symbol →
      symbol.place = .local ∨ symbol.place = .global → m'.variable symbol = m.variable symbol)
    (hmatch : Value.Matches W v w) :
    Active W running { c with symbols := c.symbols.define name } scope outer (st.bind name v scope) m' where
  sound := hactive.sound.define name
  chained := (Evaluator.Frame.bind name v).chained hactive.chained
  locals := by
    intro x u hx
    by_cases hname : x = name
    · subst hname
      rw [bound?_bind_self hactive.chained.lt_size] at hx
      cases hx
      refine ⟨c.symbols.definedSymbol x, Bindings.get?_insert_self _ _ _, ?_, hnew ▸ hmatch⟩
      rw [definedSymbol_eq]
      cases c.symbols.nested
      · exact .inr rfl
      · exact .inl rfl
    · rw [bound?_bind_of_ne fun _ => hname] at hx
      obtain ⟨symbol, hget, hplace, hmatch⟩ := hactive.locals x u hx
      refine ⟨symbol, (Bindings.get?_insert_of_ne hname _ _).trans hget, hplace, ?_⟩
      rw [hold x symbol hget hplace]
      exact hmatch
  foreign := by
    intro x symbol hget hplace l hl
    have hne : l ≠ scope := Nat.ne_of_lt (hactive.chained.lt_of_mem hl)
    rw [bound?_bind_of_ne fun heq => absurd heq hne]
    by_cases hname : x = name
    · subst hname
      cases hactive.role with
      | main _ _ houter =>
          rw [houter] at hl
          cases hl
      | @call b _ _ houter =>
          rw [houter] at hl
          exact hapart b rfl l hl
    · exact hactive.foreign x symbol ((Bindings.get?_insert_of_ne hname _ _).symm.trans hget) hplace l hl
  role := by
    cases hactive.role with
    | main hn hscope houter hclosure hbase hcallers =>
        exact .main hn hscope houter (hmoves.closure?_eq.trans hclosure) (hmoves.base_eq.trans hbase)
          (hmoves.callers.trans hcallers)
    | call hn hscope houter hclosure hbase hcallers hmem hself =>
        refine .call hn hscope houter (hmoves.closure?_eq.trans hclosure) ?_ ?_ hmem ?_
        · rw [hmoves.base_eq]
          exact hbase
        · rw [hmoves.callers]
          exact hcallers
        · intro x symbol hget hplace
          by_cases hname : x = name
          · subst hname
            have hself : (c.symbols.define x).inner.bindings.get? x = some (c.symbols.definedSymbol x) :=
              Bindings.get?_insert_self _ _ _
            rw [hself] at hget
            cases hget
            rw [definedSymbol_eq, hn] at hplace
            cases hplace
          · exact hself x symbol ((Bindings.get?_insert_of_ne hname _ _).symm.trans hget) hplace
  room := by
    rw [hmoves.base_eq, hmoves.numLocals_eq]
    exact hroom
  top_le := hle
  depth := by
    rw [hmoves.callers]
    exact hactive.depth

/-- The globals and the output behind a definition. -/
theorem Values.define {name : String} {w : Value} (hvalues : Values p W st m)
    (hactive : Active W running c scope outer st m)
    (hcovers : p.Covers { c with symbols := c.symbols.define name })
    (hmoves : Moves h ip m m') (hnew : m'.variable (c.symbols.definedSymbol name) = w)
    (hold : ∀ x symbol, c.symbols.inner.bindings.get? x = some symbol →
      symbol.place = .local ∨ symbol.place = .global → m'.variable symbol = m.variable symbol)
    (hglobals : c.symbols.nested = true → m'.globals = m.globals) (houtput : m'.output = m.output)
    (hidentity : m'.nextIdentity = m.nextIdentity) (hmatch : Value.Matches W v w) :
    Values p W (st.bind name v scope) m' where
  globals := by
    intro x u hx
    cases hactive.role with
    | call hnested hscope =>
        rw [bound?_bind_of_ne fun heq => absurd heq.symm hscope] at hx
        rw [hglobals hnested]
        exact hvalues.globals x u hx
    | main hnested hscope =>
        have htable := hcovers.table x
        have hdefined : (c.symbols.define name).nested = false := hnested
        rw [Symbols.main_of_nested hdefined] at htable
        subst hscope
        by_cases hname : x = name
        · subst hname
          rw [bound?_bind_self hactive.chained.lt_size] at hx
          cases hx
          refine ⟨c.symbols.definedSymbol x, htable _ (Bindings.get?_insert_self _ _ _), ?_, ?_⟩
          · rw [definedSymbol_eq, hnested]
            rfl
          · rw [definedSymbol_eq, hnested] at hnew
            have hslot : m'.globals[c.symbols.inner.numDefinitions]?.getD .null = w := hnew
            rw [definedSymbol_eq]
            show Value.Matches W v (m'.globals[c.symbols.inner.numDefinitions]?.getD .null)
            rw [hslot]
            exact hmatch
        · rw [bound?_bind_of_ne fun _ => hname] at hx
          obtain ⟨symbol, hget, hplace, hmatch⟩ := hvalues.globals x u hx
          obtain ⟨symbol', hget', hplace', -⟩ := hactive.locals x u hx
          -- the table of the program has the same symbol as the table on the way
          have hlater := htable symbol' ((Bindings.get?_insert_of_ne hname _ _).trans hget')
          rw [hget] at hlater
          cases hlater
          have hsame := hold x symbol hget' hplace'
          simp only [Machine.variable, hplace] at hsame
          rw [← hsame] at hmatch
          exact ⟨symbol, hget, hplace, hmatch⟩
  output := by
    rw [houtput]
    exact hvalues.output
  closures := by
    rw [hidentity]
    exact hvalues.closures
  constants := by
    rw [hmoves.bytecode]
    exact hvalues.constants

/-- **A definition** stores the value of the part in front of it. -/
theorem Active.define_value {name : String} {is : Instructions} (hmoves : Moves m.top ip₁ m m₁)
    (htop : m₁.top = m.top + 1) (hroom : m.frame.base + m.frame.numLocals ≤ m.top)
    (hactive : Active W running c scope outer st m₁) (hvalues : Values p W st m₁)
    (hmatch : Value.Matches W v (m₁.slot m.top))
    (hbounded : Bounded p running { c with symbols := c.symbols.define name })
    (hapart : ∀ b, running = some b → ∀ l ∈ b.levels, bound? st.scopes l name = none)
    (hholds : m.code.Holds ip₁ ((c.symbols.definedSymbol name).storeInstruction :: is)) :
    ∃ m', Moves m.top (ip₁ + (c.symbols.definedSymbol name).storeInstruction.size) m m' ∧
      m'.top = m.top ∧ m'.nextIdentity = m₁.nextIdentity ∧
      Active W running { c with symbols := c.symbols.define name } scope outer (st.bind name v scope) m' ∧
      Values p W (st.bind name v scope) m' := by
  have hroom₁ : m₁.frame.base + m₁.frame.numLocals ≤ m.top := by
    rw [hmoves.base_eq, hmoves.numLocals_eq]
    exact hroom
  have hle := hactive.top_le
  obtain ⟨m₂, hmoves₂, htop₂, hnew, hold, hglobals, houtput, hidentity⟩ :=
    hactive.store hbounded (by omega) (hmoves.holds hholds)
  rw [htop, Nat.add_sub_cancel] at hmoves₂ htop₂ hnew
  rw [hmoves.ip_eq] at hmoves₂
  refine ⟨m₂, hmoves.trans hmoves₂ (Nat.le_refl _), htop₂, hidentity, ?_, ?_⟩
  · exact hactive.define hapart hmoves₂ (by omega) (by omega) hnew hold hmatch
  · exact hvalues.define hactive hbounded.covers hmoves₂ hnew hold hglobals houtput hidentity hmatch

/-- A definition behind a part that is no function literal. -/
theorem Continues.define {name : String} {is : Instructions}
    (h₁ : Continues p W W₁ agenda₁ running c₁ scope outer st st₁ m m₁ 1 ip₁ [v])
    (hscoped : Scoped p running scope outer [name] [name] agenda₁ c₁
      { c₁ with symbols := c₁.symbols.define name })
    (hroom : m.frame.base + m.frame.numLocals ≤ m.top)
    (hholds : m.code.Holds ip₁ ((c₁.symbols.definedSymbol name).storeInstruction :: is)) :
    ∃ m', Continues p W W₁ (agenda₁.done scope [name]) running
      { c₁ with symbols := c₁.symbols.define name } scope outer st (st₁.bind name v scope) m m' 0
      (ip₁ + (c₁.symbols.definedSymbol name).storeInstruction.size) [] := by
  have hmatch : Value.Matches W₁ v (m₁.slot m.top) := by
    rcases h₁.values with _ | ⟨hmatch, _⟩
    exact hmatch
  have hapart : ∀ b, running = some b → ∀ l ∈ b.levels, bound? st₁.scopes l name = none := by
    intro b hb l hl
    have hrole := h₁.agree.active.role
    subst hb
    cases hrole with
    | call _ _ _ _ _ _ hmem =>
        have halive := h₁.agree.births.alive b hmem
        exact halive.apart l hl name (hscoped.within b rfl (List.mem_singleton_self _))
  obtain ⟨m₂, hmoves, htop, hidentity, hactive, hvalues⟩ := Active.define_value h₁.moves h₁.top hroom
    h₁.agree.active h₁.agree.values hmatch hscoped.bounded hapart hholds
  exact ⟨m₂, h₁.grown.of_eq rfl hidentity, hmoves, htop, .nil,
    ⟨h₁.agree.births.bind hscoped.fresh, hvalues, hactive, h₁.agree.tidy.bind hscoped.fresh.tidy,
      h₁.agree.known_define (.define (hscoped.fresh.unknown.unknown name (List.mem_singleton_self _)))⟩⟩

end

/-! ## States that differ in the functions made -/

/-- Nothing has happened in the evaluator between two states, except that functions have been made. -/
structure Evaluator.Still (st st' : Evaluator) : Prop where
  scopes : st'.scopes = st.scopes
  depth : st'.depth = st.depth
  output : st'.output = st.output

theorem Evaluator.Still.refl (st : Evaluator) : st.Still st := ⟨rfl, rfl, rfl⟩

theorem Evaluator.Still.trans {st st₁ st₂ : Evaluator} (h₁ : st.Still st₁) (h₂ : st₁.Still st₂) :
    st.Still st₂ :=
  ⟨h₂.scopes.trans h₁.scopes, h₂.depth.trans h₁.depth, h₂.output.trans h₁.output⟩

/-- The running call does not notice that functions were made. -/
theorem Active.still (hactive : Active W running c scope outer st m)
    (h : st.Still st') : Active W running c scope outer st' m where
  sound := hactive.sound
  chained := by
    rw [h.scopes]
    exact hactive.chained
  locals := by
    rw [h.scopes]
    exact hactive.locals
  foreign := by
    rw [h.scopes]
    exact hactive.foreign
  role := hactive.role
  room := hactive.room
  top_le := hactive.top_le
  depth := by
    rw [h.depth]
    exact hactive.depth

theorem Values.still (hvalues : Values p W st m) (h : st.Still st') :
    Values p W st' m where
  globals := by
    rw [h.scopes]
    exact hvalues.globals
  output := by
    rw [h.output]
    exact hvalues.output
  closures := hvalues.closures
  constants := hvalues.constants

/-- States go on to agree when the evaluator has made functions. -/
theorem Agree.still (hagree : Agree p W agenda running c scope outer st m)
    (h : st.Still st') : Agree p W agenda running c scope outer st' m := by
  refine ⟨?_, hagree.values.still h, hagree.active.still h, ?_, ?_⟩
  · rw [h.scopes]
    exact hagree.births
  · rw [h.scopes]
    exact hagree.tidy
  · rw [h.scopes]
    exact hagree.known

end

end ScriptLang
