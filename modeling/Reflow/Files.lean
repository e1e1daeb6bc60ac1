import Reflow.Session.Path
/-!
# Files

A disk is a tree of folders and files with a working directory in it. It stands for what a program
finds when it opens a path, so that the answer to a command line is a function of its arguments and
a disk. The standard input is a place on the disk too, and reading it there uses it up.

A path is followed name by name. An empty name and a single dot stay in a folder, two dots go to the
folder around it, and nothing can be followed inside a file; so a slash after the name of a file is
an error.

## Main definitions

* `FileTree`, `FileTree.follow`: folders and files, and the place where a list of names leads.
* `Disk`, `Disk.read`: the text of the file at a path, and the disk after it was read.
* `FileError`: the reasons why there is no such text.

## Main results

* `FileTree.follow_append`: names are followed one part after the other.
-/

namespace Reflow

/-- Why there is no text at a path. -/
inductive FileError
  | missing
  | notDirectory
  | isDirectory
  | nameTooLong
  /-- A reason of the device, by its description. -/
  | device (reason : String)
  deriving Repr, DecidableEq

/-- The description of a reason, with the number that the operating system gives it. -/
def FileError.message : FileError → String
  | missing => "No such file or directory (os error 2)"
  | notDirectory => "Not a directory (os error 20)"
  | isDirectory => "Is a directory (os error 21)"
  | nameTooLong => "File name too long (os error 36)"
  | device reason => reason

/-- A file with its text, the standard input, or a folder with its entries. -/
inductive FileTree
  | file (text : String)
  | input
  | folder (entries : List (String × FileTree))

namespace FileTree

/-- A place on a disk: what is there, and the folders around it, the innermost first. -/
abbrev Place := FileTree × List FileTree

/-- How many bytes a name may have. -/
def nameLimit : Nat := 255

/-- The place that a list of names leads to from another one. Around the root there is only the
root. -/
def follow : List (List Char) → Place → Except FileError Place
  | [], place => .ok place
  | _ :: _, (.file _, _) => .error .notDirectory
  | _ :: _, (.input, _) => .error .notDirectory
  | name :: rest, (.folder entries, around) =>
    if Path.isIdle name then follow rest (.folder entries, around)
    else if name = ['.', '.'] then
      match around with
      | [] => follow rest (.folder entries, [])
      | outer :: around => follow rest (outer, around)
    else if nameLimit < (String.ofList name).utf8ByteSize then .error .nameTooLong
    else match entries.lookup (String.ofList name) with
      | none => .error .missing
      | some entry => follow rest (entry, .folder entries :: around)

theorem follow_append (names more : List (List Char)) (place : Place) :
    follow (names ++ more) place = (follow names place).bind (follow more) := by
  induction names generalizing place with
  | nil => rfl
  | cons name rest ih =>
    obtain ⟨here, around⟩ := place
    cases here with
    | file text => rfl
    | input => rfl
    | folder entries =>
      simp only [List.cons_append, follow]
      split
      · exact ih _
      · split
        · split <;> exact ih _
        · split
          · rfl
          · split
            · rfl
            · exact ih _

end FileTree

/-- A tree of files, the working directory, and what is left of the standard input. -/
structure Disk where
  root : FileTree
  home : FileTree.Place
  input : String

namespace Disk

/-- How many bytes a path may have. -/
def pathLimit : Nat := 4095

/-- The place that a path names; one that does not start with a slash starts from the working
directory. -/
def place (d : Disk) (path : String) : Except FileError FileTree.Place :=
  if path.isEmpty then .error .missing
  else if pathLimit < path.utf8ByteSize then .error .nameTooLong
  else
    let start := if "/".isPrefixOf path then (d.root, []) else d.home
    FileTree.follow (Path.segments path.toList) start

/-- The text at a path. -/
def read (path : String) : StateM Disk (Except FileError String) := do
  let d ← get
  match d.place path with
  | .ok (.file text, _) => return .ok text
  | .ok (.input, _) =>
    set { d with input := "" }
    return .ok d.input
  | .ok (.folder _, _) => return .error .isDirectory
  | .error e => return .error e

/-- A disk whose working directory, which has no name of its own, holds the given files. Next to the
usual folders it has the empty device and the standard input. -/
def holding (files : List (String × String)) (input : String) : Disk :=
  let folder (entries : List (String × FileTree)) : FileTree := .folder entries
  let temporary := folder []
  let usual := ["bin", "etc", "home", "lib", "opt", "proc", "root", "run", "sbin", "sys", "usr",
    "var"]
  let root := folder (("tmp", temporary)
    :: ("dev", folder [("null", .file ""), ("stdin", .input), ("fd", folder [("0", .input)])])
    :: usual.map fun name => (name, folder []))
  ⟨root, (folder (files.map fun (name, text) => (name, .file text)), [temporary, root]), input⟩

end Disk

end Reflow
