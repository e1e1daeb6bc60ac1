import Reflow.Image.Block
import Reflow.Image.Tables
/-!
# Executables

An executable is a program ready to run. It is made from the blocks of a compilation and never
changes: the tables of the blocks move into lists with one entry for each block, and the blocks
themselves keep the tree only.

## Main definitions

* `Executable`: a runnable program.
* `Executable.ofBlocks`: the program of some blocks.
* `Executable.validate`: the check that the lists have one entry for each block.
-/

namespace Reflow

/-- A runnable program. The lists of tables are indexed by the numbers of the blocks. -/
structure Executable where
  procedures : List ProcedureTable
  symbols : List SymbolTable
  streams : List Stream
  arena : Arena
  dynamicVariables : DynamicVariables := {}
  dynamicFunctions : DynamicFunctions := {}
  pointers : FunctionPointers := {}
  /-- The program is one associative block with no other language block. -/
  isSingleAssociative : Bool

namespace Executable

/-- A block without its tables and its code. -/
def bare (b : CodeBlock) : CodeBlock :=
  { b with
    symbols := ⟨b.id, []⟩, procedures := ⟨b.id, []⟩, stream := { language := b.language } }

/-- The program of some blocks. -/
def ofBlocks (arena : Arena) (dynamicVariables : DynamicVariables)
    (dynamicFunctions : DynamicFunctions) (pointers : FunctionPointers) : Executable where
  procedures := arena.blocks.map (·.procedures)
  symbols := arena.blocks.map (·.symbols)
  streams := arena.blocks.map (·.stream)
  arena := ⟨arena.blocks.map bare⟩
  dynamicVariables
  dynamicFunctions
  pointers
  isSingleAssociative :=
    (arena.blocks.filter (·.kind = .language)).length = 1
      && (arena.get? 0).any (·.language = .associative)

/-- A program with an empty top-level block. -/
def empty : Executable := ofBlocks (.withRoot .associative) {} {} {}

/-- Checks that every list of tables has one entry for each block. -/
def validate (x : Executable) : Except ImageError Unit :=
  let blocks := x.arena.size
  if x.procedures.length = blocks ∧ x.symbols.length = blocks ∧ x.streams.length = blocks then
    .ok ()
  else
    .error (.misaligned x.procedures.length x.symbols.length x.streams.length blocks)

/-- The program of some blocks passes the check. -/
theorem validate_ofBlocks (arena : Arena) (dynamicVariables : DynamicVariables)
    (dynamicFunctions : DynamicFunctions) (pointers : FunctionPointers) :
    (ofBlocks arena dynamicVariables dynamicFunctions pointers).validate = .ok () := by
  simp [validate, ofBlocks, Arena.size]

/-- The number of global slots that the program needs. -/
def globalCount (x : Executable) : Nat :=
  (x.arena.blocks.filter (·.parent.isNone)).foldl (fun n b => n + b.globalSize) 0

/-- The code of a block. -/
def stream? (x : Executable) (block : Nat) : Option Stream := x.streams[block]?

/-- A top-level symbol by name. -/
def globalSymbol? (x : Executable) (name : String) : Option Symbol :=
  x.symbols.head?.bind (·.get? name)

/-- A top-level symbol by slot. -/
def globalSymbolAt? (x : Executable) (slot : Nat) : Option Symbol :=
  x.symbols.head?.bind (·.at? slot)

/-- A procedure of a block. -/
def procedureOf? (x : Executable) (block index : Nat) : Option Procedure :=
  x.procedures[block]?.bind (·.at? index)

/-- A top-level procedure. -/
def procedure? (x : Executable) (index : Nat) : Option Procedure := x.procedureOf? 0 index

/-- The dependencies of the top-level code. -/
def graph? (x : Executable) : Option DependencyGraph := (x.stream? 0).map (·.graph)

end Executable

end Reflow
