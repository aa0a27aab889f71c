import ScriptLang.Proofs.Compiler.Soundness
import ScriptLang.Proofs.Symbols.Resolution

/-!
# How code uses names

A part of a program looks names up and binds names in the function around it, in the order in which it is
compiled. `Part.uses` says so of its text alone. A function literal uses the names that its body looks up
and does not find bound, and it binds none. Main statement: `Emits.uses` — compiling a part does to the tables
what these uses do.

`SymbolTable.Tracks names` and `Symbols.Scoped` relate the tables to the names that are bound: a table of a
function stores these names and those that it has captured, which are bound in a function further out.
-/

namespace ScriptLang

/-! ## Uses

Which names a function has to capture is a question about its text: the names that are looked up before they
are bound. `Use.unbound` answers it for a list of uses, and `Part.uses` is that list. -/

/-- What is done with a name in the function at hand. -/
inductive Use where
  | look (name : String)
  | bind (name : String)
  deriving DecidableEq

namespace Use

/-- The names that are bound after some uses, if `names` are bound before them. -/
def bound (names : List String) : List Use → List String
  | [] => names
  | .look _ :: uses => bound names uses
  | .bind name :: uses => bound (name :: names) uses

/-- The names that are looked up where they are not bound, if `names` are bound at first. -/
def unbound (names : List String) : List Use → List String
  | [] => []
  | .look name :: uses => if name ∈ names then unbound names uses else name :: unbound names uses
  | .bind name :: uses => unbound (name :: names) uses

theorem unbound_look_of_mem {name : String} {names : List String} (h : name ∈ names) (uses : List Use) :
    unbound names (.look name :: uses) = unbound names uses := if_pos h

theorem unbound_look_of_not_mem {name : String} {names : List String} (h : name ∉ names)
    (uses : List Use) : unbound names (.look name :: uses) = name :: unbound names uses := if_neg h

end Use

mutual

/-- How an expression uses names. The operands of `<` are compiled in the opposite order. -/
def Expr.uses : Expr → List Use
  | .identifier name => [.look name]
  | .integer _ | .boolean _ | .string _ => []
  | .array elements => Expr.usesAll elements
  | .hash pairs => Expr.usesPairs pairs
  | .unary _ operand => operand.uses
  | .binary left operator right =>
    if operator = .lessThan then right.uses ++ left.uses else left.uses ++ right.uses
  | .if condition consequence none => condition.uses ++ Stmt.usesAll consequence
  | .if condition consequence (some alternative) =>
    condition.uses ++ (Stmt.usesAll consequence ++ Stmt.usesAll alternative)
  | .function name parameters body =>
    (Use.unbound (name.toList ++ parameters) (Stmt.usesAll body)).map .look
  | .call callee arguments => callee.uses ++ Expr.usesAll arguments
  | .index collection key => collection.uses ++ key.uses

/-- How some expressions use names. -/
def Expr.usesAll : List Expr → List Use
  | [] => []
  | e :: es => e.uses ++ Expr.usesAll es

/-- How the keys and values of a hash literal use names. -/
def Expr.usesPairs : List (Expr × Expr) → List Use
  | [] => []
  | (key, value) :: pairs => key.uses ++ (value.uses ++ Expr.usesPairs pairs)

/-- How a statement uses names. A `let` binds its name behind the value. -/
def Stmt.uses : Stmt → List Use
  | .let name value => value.uses ++ [.bind name]
  | .return none => []
  | .return (some value) | .expr value => value.uses

/-- How some statements use names. -/
def Stmt.usesAll : List Stmt → List Use
  | [] => []
  | s :: ss => s.uses ++ Stmt.usesAll ss

end

/-- How a part of a program uses names. -/
def Part.uses : Part → List Use
  | .expr e => e.uses
  | .exprs es => Expr.usesAll es
  | .stmt s => s.uses
  | .stmts ss | .branch ss | .body ss => Stmt.usesAll ss

theorem Expr.usesPairs_eq (pairs : List (Expr × Expr)) : usesPairs pairs = usesAll (flatten pairs) := by
  induction pairs with
  | nil => rfl
  | cons pair pairs ih => rw [usesPairs, flatten, usesAll, usesAll, ih]

/-- An operation uses names as its operands do. -/
theorem Expr.uses_operands {e : Expr} {es : List Expr} (h : e.operands? = some es) :
    e.uses = usesAll es := by
  cases e with
  | array elements =>
      cases h
      rfl
  | hash pairs =>
      cases h
      exact usesPairs_eq pairs
  | unary operator operand =>
      cases h
      exact (List.append_nil _).symm
  | binary left operator right =>
      by_cases hless : operator = .lessThan
      · simp [operands?, hless] at h
      · simp only [operands?, if_neg hless, Option.some.injEq] at h
        subst h
        simp only [uses, if_neg hless, usesAll, List.append_nil]
  | call callee arguments =>
      cases h
      rfl
  | index collection key =>
      cases h
      simp only [uses, usesAll, List.append_nil]
  | _ => cases h

/-- An alternative that is missing uses no names. -/
theorem Expr.uses_if (condition : Expr) (consequence : List Stmt) (alternative : Option (List Stmt)) :
    (Expr.if condition consequence alternative).uses =
      condition.uses ++ (Stmt.usesAll consequence ++ Stmt.usesAll (alternative.getD [])) := by
  cases alternative with
  | none => exact congrArg _ (List.append_nil _).symm
  | some alternative => rfl

/-- Uses of names in a chain of tables. -/
def Symbols.use (s : Symbols) : Use → Symbols
  | .look name => s.apply (.resolve name)
  | .bind name => s.define name

/-- Uses of names, one after the other. -/
def Symbols.useAll (s : Symbols) (uses : List Use) : Symbols := uses.foldl Symbols.use s

theorem Symbols.useAll_append (s : Symbols) (uses₁ uses₂ : List Use) :
    s.useAll (uses₁ ++ uses₂) = (s.useAll uses₁).useAll uses₂ := List.foldl_append

/-! ## Tables and the names that are bound -/

/-- A table stores the names that are bound in its function, those that it has captured, and no others. -/
def SymbolTable.Tracks (t : SymbolTable) (names : List String) : Prop :=
  ∀ name, (t.bindings.get? name).isSome = true ↔ name ∈ names ∨ name ∈ t.captures.map Symbol.name

namespace SymbolTable

variable {t : SymbolTable} {names : List String}

/-- A name that is bound is stored from then on. -/
theorem Tracks.bind (h : t.Tracks names) (symbol : Symbol) (n : Nat) :
    Tracks { t.bind symbol with numDefinitions := n } (symbol.name :: names) := by
  intro name
  show (Bindings.get? name (t.bindings.insert symbol.name symbol)).isSome = true ↔ _
  by_cases hname : name = symbol.name
  · subst hname
    simp [Bindings.get?_insert_self]
  · rw [Bindings.get?_insert_of_ne hname, List.mem_cons, or_assoc, or_iff_right hname]
    exact h name

theorem Tracks.capture (h : t.Tracks names) (symbol : Symbol) : (t.capture symbol).Tracks names := by
  intro name
  show (Bindings.get? name (t.bindings.insert symbol.name (t.freeSymbol symbol))).isSome = true ↔
    name ∈ names ∨ name ∈ (t.captures ++ [symbol]).map Symbol.name
  rw [List.map_append, List.mem_append, ← or_assoc, ← h name]
  by_cases hname : name = symbol.name
  · subst hname
    simp [Bindings.get?_insert_self]
  · rw [Bindings.get?_insert_of_ne hname]
    simp [hname]

theorem Tracks.congr (h : t.Tracks names) {names' : List String} (hnames : ∀ name, name ∈ names' ↔ name ∈ names) :
    t.Tracks names' := fun name => by rw [hnames, h name]

/-- What is not stored is neither bound nor captured. -/
theorem Tracks.not_mem (h : t.Tracks names) {name : String} (hget : t.bindings.get? name = none) :
    name ∉ names ∧ name ∉ t.captures.map Symbol.name := by
  have hnone := (h name).not.mp (by simp [hget])
  exact not_or.mp hnone

end SymbolTable

namespace Symbols

open SymbolTable

variable {s s' : Symbols} {t o : SymbolTable} {rest : List SymbolTable} {scopes : List (List String)}
  {names : List String} {name : String} {symbol : Symbol}

/-- The tables of the functions that are open track the names that are bound in them, innermost first. The
table of the main program is not among them. -/
inductive ScopedFrom : SymbolTable → List SymbolTable → List (List String) → Prop where
  | main (t : SymbolTable) : ScopedFrom t [] []
  | function {t o : SymbolTable} {rest : List SymbolTable} {names : List String}
      {scopes : List (List String)} : t.Tracks names → ScopedFrom o rest scopes →
      ScopedFrom t (o :: rest) (names :: scopes)

/-- The tables of the functions that are open track the names that are bound in them. -/
def Scoped (s : Symbols) (scopes : List (List String)) : Prop := ScopedFrom s.inner s.outer scopes

/-- A name is bound in one of the functions that are open. -/
def Around (scopes : List (List String)) (name : String) : Prop := ∃ names ∈ scopes, name ∈ names

instance (scopes : List (List String)) : DecidablePred (Around scopes) :=
  fun name => inferInstanceAs (Decidable (∃ names ∈ scopes, name ∈ names))

theorem around_cons : Around (names :: scopes) name ↔ name ∈ names ∨ Around scopes name :=
  List.exists_mem_cons_iff _ _ _

/-- What does not belong to the main program is bound in a function. -/
theorem ScopedFrom.around_of_stored (h : ScopedFrom t rest scopes) (hs : SoundFrom t rest)
    (hget : t.bindings.get? name = some symbol) (hglobal : symbol.place ≠ .global)
    (hbuiltin : symbol.place ≠ .builtin) : Around scopes name := by
  induction h generalizing symbol with
  | main t =>
      have hvalid := (hs.inner _ _ hget).2
      rw [Symbol.Valid] at hvalid
      cases hplace : symbol.place <;> simp_all
  | @function t o rest names scopes ht _ ih =>
      rw [around_cons]
      rcases (ht name).mp (by simp [hget]) with hmem | hmem
      · exact .inl hmem
      · -- what has been captured is stored in the table around
        obtain ⟨captured, hcaptured, rfl⟩ := List.mem_map.mp hmem
        obtain ⟨hstored, hg, hb⟩ := hs.2.1 captured hcaptured
        exact .inr (ih hs.2.2 hstored hg hb)

/-- What is bound in an open function is found in the tables. -/
theorem ScopedFrom.stored_of_around (h : ScopedFrom t rest scopes) (haround : Around scopes name) :
    ¬ ∀ u ∈ t :: rest, u.bindings.get? name = none := by
  induction h with
  | main t =>
      obtain ⟨names, hmem, -⟩ := haround
      cases hmem
  | @function t o rest names scopes ht _ ih =>
      intro hnone
      rw [List.forall_mem_cons] at hnone
      rcases around_cons.mp haround with hmem | hfurther
      · exact (ht.not_mem hnone.1).1 hmem
      · exact ih hfurther hnone.2

/-- **Looking a name up** leaves the names that are bound as they are. What is found belongs to a function just
if the name is bound in one. -/
theorem Resolves.scoped (h : Resolves name s symbol s') (hs : s.Sound) (hscoped : s.Scoped scopes) :
    s'.Scoped scopes ∧ (Around scopes name ↔ symbol.place ≠ .global ∧ symbol.place ≠ .builtin) := by
  induction h generalizing scopes with
  | @stored s symbol hget =>
      refine ⟨hscoped, fun haround => ?_, fun hplace => hscoped.around_of_stored hs hget hplace.1 hplace.2⟩
      -- a function has neither globals nor built-in functions
      have hvalid := (SoundFrom.inner hs _ _ hget).2
      rw [Symbol.Valid] at hvalid
      obtain ⟨t, ts⟩ := s
      cases hscoped with
      | main =>
          obtain ⟨names, hmem, -⟩ := haround
          cases hmem
      | function => constructor <;> intro hplace <;> simp [hplace] at hvalid
  | main hget _ _ ih =>
      cases hscoped with
      | function ht hnext =>
          obtain ⟨hnext', hiff⟩ := ih hs.2.2 hnext
          rw [around_cons, or_iff_right (ht.not_mem hget).1]
          exact ⟨.function ht hnext', hiff⟩
  | captured hget _ hglobal hbuiltin ih =>
      cases hscoped with
      | function ht hnext =>
          obtain ⟨hnext', hiff⟩ := ih hs.2.2 hnext
          rw [around_cons, or_iff_right (ht.not_mem hget).1, hiff]
          refine ⟨.function (ht.capture _) hnext', fun _ => ?_, fun _ => ⟨hglobal, hbuiltin⟩⟩
          exact ⟨Place.noConfusion, Place.noConfusion⟩

/-- Looking a name up leaves the tables that the look-up comes to, whether or not it finds the name. -/
theorem use_look (s : Symbols) (name : String) : s.use (.look name) = (s.resolve name).2 := rfl

theorem use_look_of_resolve? (h : s.resolve? name = some (symbol, s')) : s.use (.look name) = s' := by
  rw [use_look, resolve_of_resolve?_some h]

theorem use_look_of_none (h : s.resolve? name = none) : s.use (.look name) = s := by
  rw [use_look, resolve_of_resolve?_none h]

theorem use_look_of_get? (h : s.inner.bindings.get? name = some symbol) : s.use (.look name) = s :=
  use_look_of_resolve? (resolve?_eq_some.mpr (.stored h))

theorem Sound.use (h : s.Sound) (u : Use) : (s.use u).Sound := by
  cases u with
  | bind name => exact h.define name
  | look name =>
      cases hresolve : s.resolve? name with
      | none => rwa [use_look_of_none hresolve]
      | some found =>
          rw [use_look_of_resolve? hresolve]
          exact (resolve?_spec hresolve h).1

theorem Scoped.look (h : s.Scoped scopes) (hs : s.Sound) (name : String) :
    (s.use (.look name)).Scoped scopes := by
  cases hresolve : s.resolve? name with
  | none => rwa [use_look_of_none hresolve]
  | some found =>
      rw [use_look_of_resolve? hresolve]
      exact ((resolve?_eq_some.mp hresolve).scoped hs h).1

/-! ## Uses in a function -/

theorem removeAll_cons_of_mem {names seen : List String} (h : name ∈ seen) :
    (name :: names).removeAll seen = names.removeAll seen := by
  rw [List.removeAll, List.filter_cons_of_neg (by simpa using h), List.removeAll]

/-- The first of some names is new, and it counts as seen from then on. -/
theorem eraseDups_removeAll_concat {names seen : List String} (h : name ∉ seen) :
    [name] ++ (names.removeAll (seen ++ [name])).eraseDups = ((name :: names).removeAll seen).eraseDups := by
  rw [List.removeAll, List.removeAll, List.filter_cons_of_pos (by simpa using h), List.eraseDups_cons,
    List.filter_filter, List.singleton_append]
  congr 2
  refine List.filter_congr fun other _ => ?_
  rw [Bool.eq_iff_iff]
  simp [and_comm]

/-- What uses of names do in a function with the table `t`: the names that are not bound there are looked up in
the tables around it, and those of them that are bound in a function are captured. -/
structure UsesIn (t o : SymbolTable) (rest : List SymbolTable) (names : List String)
    (scopes : List (List String)) (uses : List Use) (s' : Symbols) : Prop where
  around : s'.leave? = some (useAll ⟨o, rest⟩ ((Use.unbound names uses).map .look))
  tracks : s'.inner.Tracks (Use.bound names uses)
  captures : s'.inner.captures.map Symbol.name = t.captures.map Symbol.name ++
    (((Use.unbound names uses).filter (Around scopes)).removeAll (t.captures.map Symbol.name)).eraseDups

/-- A name that is not stored in the table at hand. -/
theorem use_look_of_get?_eq_none (hs : Sound ⟨t, o :: rest⟩) (ht : t.Tracks names)
    (hscoped : ScopedFrom o rest scopes) (hget : t.bindings.get? name = none) :
    ∃ t' o' rest', use ⟨t, o :: rest⟩ (.look name) = ⟨t', o' :: rest'⟩ ∧
      use ⟨o, rest⟩ (.look name) = ⟨o', rest'⟩ ∧ t'.Tracks names ∧
      t'.captures.map Symbol.name =
        t.captures.map Symbol.name ++ if Around scopes name then [name] else [] := by
  cases hresolve : resolve? ⟨o, rest⟩ name with
  | none =>
      have hbehind := resolve?_eq_none.mp hresolve
      have houter : resolve? ⟨t, o :: rest⟩ name = none :=
        resolve?_eq_none.mpr (List.forall_mem_cons.mpr ⟨hget, hbehind⟩)
      refine ⟨t, o, rest, use_look_of_none houter, use_look_of_none hresolve, ht, ?_⟩
      rw [if_neg (hscoped.stored_of_around · hbehind), List.append_nil]
  | some p =>
      obtain ⟨found, o', rest'⟩ := p
      have hresolves := resolve?_eq_some.mp hresolve
      obtain ⟨-, hiff⟩ := hresolves.scoped hs.2.2 hscoped
      by_cases hmain : found.place = .global ∨ found.place = .builtin
      · refine ⟨t, o', rest', use_look_of_resolve? (resolve?_eq_some.mpr (.main hget hresolves hmain)),
          use_look_of_resolve? hresolve, ht, ?_⟩
        rw [if_neg (hiff.not.mpr fun hplace => hmain.elim hplace.1 hplace.2), List.append_nil]
      · obtain ⟨hglobal, hbuiltin⟩ := not_or.mp hmain
        have hcaptured := Resolves.captured hget hresolves hglobal hbuiltin
        refine ⟨t.capture found, o', rest', use_look_of_resolve? (resolve?_eq_some.mpr hcaptured),
          use_look_of_resolve? hresolve, ht.capture found, ?_⟩
        rw [if_pos (hiff.mpr ⟨hglobal, hbuiltin⟩)]
        simp [SymbolTable.capture, hresolves.name_eq hs.2.2]

/-- **Uses in a function**, one after the other. -/
theorem usesIn (uses : List Use) (hs : Sound ⟨t, o :: rest⟩) (ht : t.Tracks names)
    (hscoped : ScopedFrom o rest scopes) :
    UsesIn t o rest names scopes uses (useAll ⟨t, o :: rest⟩ uses) := by
  induction uses generalizing t o rest names with
  | nil => exact ⟨rfl, ht, by simp [Use.unbound, useAll]⟩
  | cons u uses ih =>
      rw [useAll, List.foldl_cons, ← useAll]
      cases u with
      | bind name =>
          have hsound : (define ⟨t, o :: rest⟩ name).Sound := hs.define name
          obtain ⟨haround, htracks, hcaptures⟩ := ih hsound (ht.bind _ _) hscoped
          exact ⟨haround, htracks, hcaptures⟩
      | look name =>
          cases hget : t.bindings.get? name with
          | none =>
              obtain ⟨t', o', rest', houter, hinner, ht', hcaptures'⟩ :=
                use_look_of_get?_eq_none hs ht hscoped hget
              have hsound := hs.use (.look name)
              have hscoped' : ScopedFrom o' rest' scopes := by
                have hlook := Scoped.look (s := ⟨o, rest⟩) hscoped hs.2.2 name
                rwa [hinner] at hlook
              rw [houter] at hsound ⊢
              obtain ⟨haround, htracks, hcaptures⟩ := ih hsound ht' hscoped'
              obtain ⟨hbound, hfresh⟩ := ht.not_mem hget
              refine ⟨?_, htracks, ?_⟩
              · rw [haround, Use.unbound_look_of_not_mem hbound, List.map_cons, useAll, useAll,
                  List.foldl_cons, hinner]
              · rw [hcaptures, hcaptures', Use.unbound_look_of_not_mem hbound, List.append_assoc,
                  List.filter_cons]
                by_cases haround : Around scopes name
                · rw [if_pos haround, if_pos (decide_eq_true haround), eraseDups_removeAll_concat hfresh]
                · rw [if_neg haround, if_neg (by simpa using haround), List.append_nil, List.nil_append]
          | some found =>
              rw [use_look_of_get? hget]
              obtain ⟨haround, htracks, hcaptures⟩ := ih hs ht hscoped
              by_cases hbound : name ∈ names
              · refine ⟨?_, htracks, ?_⟩
                · rw [haround, Use.unbound_look_of_mem hbound]
                · rw [hcaptures, Use.unbound_look_of_mem hbound]
              · -- the name has been captured, so the table around stores it too
                have hmem := ((ht name).mp (by simp [hget])).resolve_left hbound
                obtain ⟨captured, hcaptured, rfl⟩ := List.mem_map.mp hmem
                have hstored := (hs.2.1 captured hcaptured).1
                refine ⟨?_, htracks, ?_⟩
                · rw [haround, Use.unbound_look_of_not_mem hbound, List.map_cons, useAll, useAll,
                    List.foldl_cons, use_look_of_get? (s := ⟨o, rest⟩) hstored]
                · rw [hcaptures, Use.unbound_look_of_not_mem hbound, List.filter_cons]
                  split
                  · rw [removeAll_cons_of_mem hmem]
                  · rfl

/-! ## Open functions -/

/-- A definition binds its name in the innermost function. -/
theorem Scoped.bind (h : s.Scoped scopes) (name : String) :
    (s.define name).Scoped (scopes.modifyHead (name :: ·)) := by
  obtain ⟨t, ts⟩ := s
  cases h with
  | main => exact .main _
  | function ht hrest => exact .function (ht.bind _ _) hrest

/-- After some uses, the names they bind are bound. -/
theorem Scoped.useAll (h : s.Scoped scopes) (hs : s.Sound) (uses : List Use) :
    (s.useAll uses).Scoped (scopes.modifyHead (Use.bound · uses)) := by
  induction uses generalizing s scopes with
  | nil =>
      rw [show (fun names => Use.bound names []) = id from rfl, List.modifyHead_id]
      exact h
  | cons u uses ih =>
      cases u with
      | look name => exact ih (h.look hs name) (hs.use (.look name))
      | bind name =>
          have hrest := ih (h.bind name) (hs.define name)
          rwa [List.modifyHead_modifyHead] at hrest

/-- Parameters are bound, one by one. -/
theorem tracks_foldl_define (parameters : List String) (h : s.inner.Tracks names) :
    (parameters.foldl define s).inner.Tracks (parameters.reverse ++ names) := by
  induction parameters generalizing s names with
  | nil => exact h
  | cons parameter parameters ih =>
      rw [List.reverse_cons, List.append_assoc]
      exact ih (h.bind _ _)

/-- In a function its parameters are bound, and its own name if it has one. -/
theorem tracks_openFunction (s : Symbols) (name : Option String) (parameters : List String) :
    (s.openFunction name parameters).inner.Tracks (name.toList ++ parameters) := by
  rw [openFunction_eq]
  have hempty : SymbolTable.Tracks {} [] := fun name => by simp
  have hnamed : (s.enterNamed name).inner.Tracks name.toList := by
    cases name with
    | none => exact hempty
    | some name => exact hempty.bind ⟨name, .function, 0⟩ 0
  exact (tracks_foldl_define parameters hnamed).congr fun other => by simp [or_comm]

/-- A function starts with its own name and its parameters. -/
theorem Scoped.openFunction (h : s.Scoped scopes) (name : Option String) (parameters : List String) :
    (s.openFunction name parameters).Scoped ((name.toList ++ parameters) :: scopes) := by
  have htracks := s.tracks_openFunction name parameters
  have houter := s.openFunction_outer name parameters
  generalize s.openFunction name parameters = opened at htracks houter
  obtain ⟨t, ts⟩ := opened
  cases houter
  exact .function htracks h

/-- What the body of a function does to the tables. -/
theorem usesIn_openFunction (hs : s.Sound) (hscoped : s.Scoped scopes) (name : Option String)
    (parameters : List String) (uses : List Use) :
    let s' := (s.openFunction name parameters).useAll uses
    s'.leave = s.useAll ((Use.unbound (name.toList ++ parameters) uses).map .look) ∧
      s'.inner.captures.map Symbol.name =
        ((Use.unbound (name.toList ++ parameters) uses).filter (Around scopes)).eraseDups := by
  have htracks := s.tracks_openFunction name parameters
  have houter := s.openFunction_outer name parameters
  have hcaptures := s.openFunction_captures name parameters
  have hsound := hs.openFunction name parameters
  generalize s.openFunction name parameters = opened at htracks houter hcaptures hsound
  obtain ⟨t, ts⟩ := opened
  cases houter
  obtain ⟨haround, -, hnames⟩ := usesIn uses hsound htracks hscoped
  refine ⟨by rw [leave, haround]; rfl, ?_⟩
  rw [hnames, hcaptures]
  simp [List.removeAll]

end Symbols

/-! ## Compiled code -/

/-- Two parts in a row use names one after the other. -/
theorem Emits.uses_append {P : Part} {c c₁ c₂ : Compiler} {offset : Nat} {is : Instructions}
    {uses : List Use} {scopes : List (List String)} (h : Emits P c offset is c₁) (hs : c.symbols.Sound)
    (hscoped : c.symbols.Scoped scopes) (h₁ : c₁.symbols = c.symbols.useAll P.uses)
    (h₂ : ∀ {scopes : List (List String)}, c₁.symbols.Sound → c₁.symbols.Scoped scopes →
      c₂.symbols = c₁.symbols.useAll uses) : c₂.symbols = c.symbols.useAll (P.uses ++ uses) := by
  have hscoped₁ := hscoped.useAll hs P.uses
  rw [← h₁] at hscoped₁
  rw [h₂ (h.grows hs).1 hscoped₁, h₁, Symbols.useAll_append]

/-- **Compiling** a part of a program does to the tables what the part does to names. -/
theorem Emits.uses {P : Part} {c c' : Compiler} {offset : Nat} {is : Instructions}
    (h : Emits P c offset is c') {scopes : List (List String)} (hs : c.symbols.Sound)
    (hscoped : c.symbols.Scoped scopes) : c'.symbols = c.symbols.useAll P.uses := by
  induction h generalizing scopes with
  | identifier hresolve => exact (Symbols.use_look_of_resolve? hresolve).symm
  | @constant c offset e v hv => cases e <;> first | rfl | cases hv
  | boolean => rfl
  | operation hes _ _ ih =>
      rw [Part.uses, Expr.uses_operands hes]
      exact ih hs hscoped
  | less _ ih => simpa [Part.uses, Expr.uses, Expr.usesAll] using ih hs hscoped
  | «if» h₁ h₂ _ _ ih₁ ih₂ ih₃ =>
      rw [Part.uses, Expr.uses_if]
      exact h₁.uses_append hs hscoped (ih₁ hs hscoped) fun hs₁ hscoped₁ =>
        h₂.uses_append hs₁ hscoped₁ (ih₂ hs₁ hscoped₁) ih₃
  | @function c c' offset name parameters body is hbody _ ih =>
      have hopen := ih (hs.openFunction name parameters) (hscoped.openFunction name parameters)
      show c'.symbols.leave = _
      rw [hopen]
      exact (Symbols.usesIn_openFunction hs hscoped name parameters _).1
  | exprs_nil => rfl
  | exprs_cons h₁ _ ih₁ ih₂ => exact h₁.uses_append hs hscoped (ih₁ hs hscoped) ih₂
  | @«let» c c' offset name value is _ ih =>
      show c'.symbols.define name = c.symbols.useAll (value.uses ++ [.bind name])
      rw [Symbols.useAll_append, ih hs hscoped]
      rfl
  | return_none => rfl
  | return_some _ ih => exact ih hs hscoped
  | expr _ ih => exact ih hs hscoped
  | stmts_nil => rfl
  | stmts_cons h₁ _ ih₁ ih₂ => exact h₁.uses_append hs hscoped (ih₁ hs hscoped) ih₂
  | branch_nil => rfl
  | @branch_value c c' offset value is _ ih =>
      rw [ih hs hscoped]
      exact congrArg _ (List.append_nil _).symm
  | branch_cons _ h₁ _ ih₁ ih₂ => exact h₁.uses_append hs hscoped (ih₁ hs hscoped) ih₂
  | body_nil => rfl
  | body_value _ ih =>
      rw [ih hs hscoped]
      exact congrArg _ (List.append_nil _).symm
  | body_return _ ih =>
      rw [ih hs hscoped]
      exact congrArg _ (List.append_nil _).symm
  | body_cons _ h₁ _ ih₁ ih₂ => exact h₁.uses_append hs hscoped (ih₁ hs hscoped) ih₂

/-- Behind a part of a program the names are bound that it binds. -/
theorem Emits.scoped {P : Part} {c c' : Compiler} {offset : Nat} {is : Instructions}
    (h : Emits P c offset is c') {scopes : List (List String)} (hs : c.symbols.Sound)
    (hscoped : c.symbols.Scoped scopes) :
    c'.symbols.Scoped (scopes.modifyHead (Use.bound · P.uses)) := by
  rw [h.uses hs hscoped]
  exact hscoped.useAll hs P.uses

end ScriptLang
