/-!
# Paths

A path is a text that is read as a start and a list of names between slashes. Paths are compared by
these: a repeated or a trailing slash does not count, nor does a single dot, unless the path starts
with it; two dots are a name like any other. The text stays as it was given.

## Main definitions

* `Path`: a path, with `Path.same` comparing two.
* `Path.parent?`: the path without its last name.
-/

namespace Reflow

/-- A path of the file system. -/
structure Path where
  text : String
  deriving Repr, DecidableEq

/-- What a path starts from. -/
inductive PathStart
  /-- The root of the file system. -/
  | root
  /-- A dot that names the current directory. -/
  | here
  /-- Nothing; the path starts with its first name. -/
  | none
  deriving Repr, DecidableEq

/-- The start as the path spells it. -/
def PathStart.spelling : PathStart → List Char
  | root => ['/']
  | here => ['.']
  | none => []

namespace Path

/-- The start of a path's characters, and the rest. -/
def split : List Char → PathStart × List Char
  | '/' :: rest => (.root, rest)
  | ['.'] => (.here, [])
  | '.' :: '/' :: rest => (.here, '/' :: rest)
  | cs => (.none, cs)

/-- The parts of a text between its slashes. -/
def segments : List Char → List (List Char)
  | [] => [[]]
  | c :: cs =>
    match segments cs with
    | [] => [[c]]
    | s :: rest => if c = '/' then [] :: s :: rest else (c :: s) :: rest

/-- A part that does not count when paths are compared. -/
def isIdle (segment : List Char) : Bool := segment = [] || segment = ['.']

/-- The start of a path. -/
def start (p : Path) : PathStart := (split p.text.toList).1

/-- The names of a path. -/
def names (p : Path) : List (List Char) :=
  (segments (split p.text.toList).2).filter fun s => !isIdle s

/-- Whether two paths have the same start and the same names. -/
def same (p q : Path) : Bool := p.start = q.start && p.names = q.names

/-- Some parts with slashes between them. -/
def joined : List (List Char) → List Char
  | [] => []
  | [s] => s
  | s :: rest => s ++ '/' :: joined rest

/-- The parts up to the last one that counts. -/
def trimmed (segments : List (List Char)) : List (List Char) :=
  (segments.reverse.dropWhile isIdle).reverse

/-- The path without its last name and without what would trail after that. A lone dot has the empty
path as its parent; the root and the empty path have none. -/
def parent? (p : Path) : Option Path :=
  let (start, body) := split p.text.toList
  match trimmed (segments body), start with
  | [], .here => some ⟨""⟩
  | [], _ => none
  | parts, start =>
    some ⟨String.ofList (start.spelling ++ joined (trimmed parts.dropLast))⟩

end Path

end Reflow
