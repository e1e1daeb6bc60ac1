import Reflow.Image.Instruction
import Reflow.Image.Procedure
/-!
# Code blocks

Blocks are the scopes of a program. They form a forest: a block is made either as a root or under a
block that exists already, so that a parent's number is smaller than its child's and every walk
toward the root ends.

## Main definitions

* `CodeBlock`: one scope with its tables and its code.
* `Arena`: all blocks of a program, with `Arena.addRoot` and `Arena.addChild`.
* `Arena.ancestors`: the blocks above a block, nearest first.
* `ImageError`: what can be wrong with the structure of a program.
-/

namespace Reflow

/-- The text of a block's number. -/
def blockText (block : Nat) : String := "#" ++ toString block

/-- What kind of scope a block is. -/
inductive BlockKind
  | language | construct | function
  deriving Repr, DecidableEq, Inhabited

/-- One scope of a program. -/
structure CodeBlock where
  id : Nat
  kind : BlockKind
  language : Language
  parent : Option Nat
  children : List Nat := []
  /-- The number of global slots that the block owns. -/
  globalSize : Nat := 0
  symbols : SymbolTable
  procedures : ProcedureTable
  stream : Stream
  /-- Whether a run may be suspended inside the block. -/
  breakable : Bool := false

/-- A block without symbols, procedures and code. -/
def CodeBlock.fresh (id : Nat) (kind : BlockKind) (language : Language) (parent : Option Nat) :
    CodeBlock :=
  { id, kind, language, parent, symbols := ⟨id, []⟩, procedures := ⟨id, []⟩,
    stream := { language := language } }

/-- A fault in the structure of a program. -/
inductive ImageError
  | unknownBlock (block : Nat)
  /-- The tables of an executable do not have one entry for each block. -/
  | misaligned (procedures symbols streams blocks : Nat)
  | unknownProcedure (index : Nat)
  deriving Repr, DecidableEq

namespace ImageError

/-- The name of the kind of fault. -/
def kind : ImageError → String
  | unknownBlock _ => "UnknownBlock"
  | misaligned _ _ _ _ => "Misaligned"
  | unknownProcedure _ => "UnknownProcedure"

/-- The error text. -/
def message : ImageError → String
  | unknownBlock block => "code block " ++ blockText block ++ " does not exist"
  | misaligned procedures symbols streams blocks =>
    "executable tables are misaligned: " ++ toString procedures ++ " procedure tables, "
      ++ toString symbols ++ " symbol tables, " ++ toString streams ++ " instruction streams, "
      ++ toString blocks ++ " code blocks"
  | unknownProcedure index => "procedure " ++ toString index ++ " does not exist"

/-- Whether the structure itself is broken, and not just a look-up. -/
def isCorruption : ImageError → Bool
  | misaligned _ _ _ _ => true
  | _ => false

end ImageError

/-- All blocks of a program; the number of a block is its place. -/
structure Arena where
  blocks : List CodeBlock := []

namespace Arena

/-- The number of blocks. -/
def size (a : Arena) : Nat := a.blocks.length

/-- The block of a number. -/
def get? (a : Arena) (id : Nat) : Option CodeBlock := a.blocks[id]?

/-- Changes one block; a number without a block changes nothing. -/
def modify (a : Arena) (id : Nat) (f : CodeBlock → CodeBlock) : Arena :=
  ⟨a.blocks.modify id f⟩

/-- Adds a block without a parent; also returns its number. -/
def addRoot (a : Arena) (language : Language) : Nat × Arena :=
  (a.size, ⟨a.blocks ++ [.fresh a.size .language language none]⟩)

/-- Adds a block under an existing one; also returns its number. -/
def addChild (a : Arena) (parent : Nat) (kind : BlockKind) (language : Language) :
    Except ImageError (Nat × Arena) :=
  if parent < a.size then
    let a := a.modify parent fun b => { b with children := b.children ++ [a.size] }
    .ok (a.size, ⟨a.blocks ++ [.fresh a.size kind language (some parent)]⟩)
  else .error (.unknownBlock parent)

/-- An arena with one top-level block. -/
def withRoot (language : Language) : Arena := (Arena.addRoot {} language).2

/-- The parent of a block. -/
def parent? (a : Arena) (id : Nat) : Option Nat := (a.get? id).bind (·.parent)

/-- The blocks above a block, nearest first, in at most `fuel` steps. -/
def ancestorsWithin (a : Arena) : Nat → Nat → List Nat
  | 0, _ => []
  | fuel + 1, id =>
    match a.parent? id with
    | none => []
    | some p => p :: ancestorsWithin a fuel p

/-- The blocks above a block, nearest first. Numbers fall on the way up, so the number of the block
bounds the walk. -/
def ancestors (a : Arena) (id : Nat) : List Nat := a.ancestorsWithin (id + 1) id

/-- Whether `above` lies strictly above the block `id`. -/
def isAncestor (a : Arena) (id above : Nat) : Bool := above ∈ a.ancestors id

end Arena

end Reflow
