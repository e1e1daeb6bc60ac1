/-!
# Symbols

A symbol is a declared name with a slot. The slots of a table are numbered in the order of
declaration, and a name that is declared again keeps its slot, so that slots never move.

## Main definitions

* `SymbolKey`: a slot of a block.
* `Symbol`: a declared name.
* `SymbolTable`: the symbols of one block, with `SymbolTable.insert` declaring one.
-/

namespace Reflow

/-- A slot of a block. -/
structure SymbolKey where
  block : Nat
  index : Nat
  deriving Repr, DecidableEq

/-- The key of a slot of the top-level block. -/
def SymbolKey.global (slot : Nat) : SymbolKey := ⟨0, slot⟩

/-- A declared name. -/
structure Symbol where
  name : String
  /-- The slot; for symbols of the top-level block, the slot of global memory. -/
  index : Nat := 0
  block : Nat := 0
  /-- The procedure that the symbol is local to. -/
  function : Option Nat := none
  /-- The class that the symbol is a member of. -/
  classScope : Option Nat := none
  isStatic : Bool := false
  isArgument : Bool := false
  /-- Not written by the user. -/
  isTemp : Bool := false
  deriving Repr, DecidableEq

namespace Symbol

/-- An argument of a procedure. -/
def argument (name : String) (function : Nat) : Symbol :=
  { name, function := some function, isArgument := true }

/-- The slot of a symbol with its block. -/
def key (s : Symbol) : SymbolKey := ⟨s.block, s.index⟩

/-- Whether the symbol lives in a call frame. -/
def isLocal (s : Symbol) : Bool := s.function.isSome

/-- Whether a listing of the globals shows the symbol. -/
def isUserGlobal (s : Symbol) : Bool :=
  !(s.isArgument || s.isLocal || s.isStatic || s.isTemp)

end Symbol

/-- The symbols of one block in the order of their slots. -/
structure SymbolTable where
  block : Nat
  symbols : List Symbol := []
  deriving Repr, DecidableEq

namespace SymbolTable

/-- The slot of a name. -/
def indexOf? (t : SymbolTable) (name : String) : Option Nat :=
  t.symbols.findIdx? (·.name == name)

/-- The symbol of a name. -/
def get? (t : SymbolTable) (name : String) : Option Symbol :=
  t.symbols.find? (·.name == name)

/-- The symbol of a slot. -/
def at? (t : SymbolTable) (index : Nat) : Option Symbol := t.symbols[index]?

/-- The number of symbols. -/
def size (t : SymbolTable) : Nat := t.symbols.length

/-- Declares a symbol in the next slot, unless its name has one already; also returns the slot. -/
def insert (t : SymbolTable) (s : Symbol) : Nat × SymbolTable :=
  match t.indexOf? s.name with
  | some index => (index, t)
  | none =>
    (t.size, { t with symbols := t.symbols ++ [{ s with index := t.size, block := t.block }] })

/-- The table with some plain symbols declared. -/
def insertNames (t : SymbolTable) (names : List String) : SymbolTable :=
  names.foldl (fun t name => (t.insert { name := name }).2) t

end SymbolTable

end Reflow
