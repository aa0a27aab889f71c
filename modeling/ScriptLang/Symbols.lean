import ScriptLang.Bindings

/-!
# Symbols

Where compiled code finds what a name stands for. Each function has a table of its own, and the tables
of the functions around it, up to the one of the main program, stand behind it in a chain.

`Symbols.resolve` looks a name up from the inside out. A name that belongs to a function further out
is captured by every table in between, so that each function finds it among the values handed to it.
-/

namespace ScriptLang

/-- Where the value of a name is kept. -/
inductive Place where
  /-- Among the globals. -/
  | global
  /-- In a slot of the running call. -/
  | local
  /-- Among the built-in functions. -/
  | builtin
  /-- Among the values that the running closure captured. -/
  | free
  /-- Nowhere: it is the running closure itself. -/
  | function
  deriving DecidableEq

/-- A name with the place of its value. -/
structure Symbol where
  name : String
  place : Place
  index : Nat
  deriving DecidableEq

/-- The names of one function, or of the main program. -/
structure SymbolTable where
  bindings : Bindings Symbol := []
  /-- The symbols of the table around it that it captured, in the order of their first use. -/
  captures : List Symbol := []
  /-- How many slots its definitions take. -/
  numDefinitions : Nat := 0

namespace SymbolTable

/-- Binds the name of a symbol to it. -/
def bind (table : SymbolTable) (symbol : Symbol) : SymbolTable :=
  { table with bindings := table.bindings.insert symbol.name symbol }

/-- The symbol under which a table knows the next symbol that it captures. -/
def freeSymbol (table : SymbolTable) (captured : Symbol) : Symbol :=
  ⟨captured.name, .free, table.captures.length⟩

/-- Captures a symbol of the table around it. -/
def capture (table : SymbolTable) (captured : Symbol) : SymbolTable :=
  { table.bind (table.freeSymbol captured) with captures := table.captures ++ [captured] }

end SymbolTable

/-- A table with the tables around it, innermost first. -/
structure Symbols where
  inner : SymbolTable := {}
  outer : List SymbolTable := []

namespace Symbols

/-- The place of what is defined now: the main program defines globals, a function locals. -/
def definitionPlace (symbols : Symbols) : Place := if symbols.outer.isEmpty then .global else .local

/-- The symbol of a name that is defined now. -/
def definedSymbol (symbols : Symbols) (name : String) : Symbol :=
  ⟨name, symbols.definitionPlace, symbols.inner.numDefinitions⟩

/-- Defines a name. A name that is defined again gets a new slot. -/
def define (symbols : Symbols) (name : String) : Symbols :=
  let table := symbols.inner.bind (symbols.definedSymbol name)
  { symbols with inner := { table with numDefinitions := table.numDefinitions + 1 } }

/-- Makes a name stand for a built-in function. -/
def defineBuiltin (symbols : Symbols) (index : Nat) (name : String) : Symbols :=
  { symbols with inner := symbols.inner.bind ⟨name, .builtin, index⟩ }

/-- Makes a name stand for the function whose table is innermost. -/
def defineFunctionName (symbols : Symbols) (name : String) : Symbols :=
  { symbols with inner := symbols.inner.bind ⟨name, .function, 0⟩ }

/-- Looks a name up in a table and then in the tables around it. Whatever is found, the tables are left as the
captures on the way back have made them. -/
def resolveFrom (name : String) (table : SymbolTable) :
    List SymbolTable → Option Symbol × SymbolTable × List SymbolTable
  | [] => (table.bindings.get? name, table, [])
  | next :: rest =>
    match table.bindings.get? name with
    | some symbol => (some symbol, table, next :: rest)
    | none =>
      match resolveFrom name next rest with
      | (none, next, rest) => (none, table, next :: rest)
      | (some symbol, next, rest) =>
        match symbol.place with
        | .global | .builtin => (some symbol, table, next :: rest)
        | _ => (some (table.freeSymbol symbol), table.capture symbol, next :: rest)

/-- Looks a name up, which captures it where need be. -/
def resolve (symbols : Symbols) (name : String) : Option Symbol × Symbols :=
  let (found, inner, outer) := resolveFrom name symbols.inner symbols.outer
  (found, ⟨inner, outer⟩)

/-- What a name stands for, together with the tables after it was looked up. -/
def resolve? (symbols : Symbols) (name : String) : Option (Symbol × Symbols) :=
  let (found, symbols) := symbols.resolve name
  found.map fun symbol => (symbol, symbols)

/-- Opens the table of a function. -/
def enter (symbols : Symbols) : Symbols := ⟨{}, symbols.inner :: symbols.outer⟩

/-- Closes the innermost table, unless it is the one of the main program. -/
def leave? (symbols : Symbols) : Option Symbols :=
  match symbols.outer with
  | [] => none
  | next :: rest => some ⟨next, rest⟩

/-- How many definitions the table of the main program holds. -/
def numGlobals (symbols : Symbols) : Nat :=
  ((symbols.inner :: symbols.outer).getLast (List.cons_ne_nil _ _)).numDefinitions

end Symbols

end ScriptLang
