import Reflow.Decimal.Read
import Reflow.Lang.SyntaxError
/-!
# Splitting a program into tokens

A program text is a sequence of tokens with gaps between them. A gap holds blanks and comments; a
comment runs from `//` to the end of its line. Each token is the longest one of its class that
starts at its first character, and that character decides the class.

## Main definitions

* `Scan`: one token and the number of characters it takes.
* `scan`: the token at the front of a text.
* `tokenize`: all tokens of a text with their positions.
-/

namespace Reflow

namespace Lexer

/-- A token at the front of a text and the number of characters it takes. -/
structure Scan where
  token : Token
  size : Nat
  size_pos : 0 < size := by omega

/-- Why no token could be read at the front of a text. -/
inductive Failure
  | unexpectedChar (found : Char)
  | unterminatedString
  | invalidNumber (literal : String)
  deriving Repr, DecidableEq

/-- The syntax error of a failure at a position. -/
def Failure.at (p : Position) : Failure → SyntaxError
  | unexpectedChar c => .unexpectedChar c p
  | unterminatedString => .unterminatedString p
  | invalidNumber literal => .invalidNumber literal p

/-- A character that may start a name. -/
def startsWord (c : Char) : Bool := Text.isAlphabetic c || c == '_'

/-- A character that may stand inside a name. -/
def continuesWord (c : Char) : Bool := Text.isAlphanumeric c || c == '_'

/-- The token of a word: a reserved word or a name. -/
def wordToken (word : String) : Token :=
  if word = "def" then .mark .define
  else if word = "true" then .mark .yes
  else if word = "false" then .mark .no
  else if word = "null" then .mark .null
  else .name word

/-- The token of a word that starts with `c`. -/
def scanWord (c : Char) (cs : List Char) : Scan :=
  let tail := cs.takeWhile continuesWord
  ⟨wordToken (String.ofList (c :: tail)), tail.length + 1, by omega⟩

/-- The characters of a number after its first digit. A point belongs to it once, and only before
an exponent; every letter of an exponent takes the sign after it along. -/
def numberTail : Bool → List Char → List Char
  | _, [] => []
  | pointed, c :: cs =>
    if c.isDigit then c :: numberTail pointed cs
    else if c = '.' ∧ pointed = false then c :: numberTail true cs
    else if c = 'e' ∨ c = 'E' then
      match cs with
      | [] => [c]
      | s :: rest =>
        if s = '+' ∨ s = '-' then c :: s :: numberTail true rest
        else c :: numberTail true (s :: rest)
    else []

/-- The token of a number that starts with the digit `c`. -/
def scanNumber (c : Char) (cs : List Char) : Except Failure Scan :=
  let literal := c :: numberTail false cs
  let size := (numberTail false cs).length + 1
  if literal.all Char.isDigit then
    let value := Decimal.natOfDigits literal
    if value < UInt64.size then .ok ⟨.int value, size, by omega⟩
    else .error (.invalidNumber (String.ofList literal))
  else match Decimal.float? literal with
    | some x => .ok ⟨.double x, size, by omega⟩
    | none => .error (.invalidNumber (String.ofList literal))

/-- The character that an escaped one stands for. -/
def unescape (c : Char) : Char :=
  if c = 'n' then '\n' else if c = 't' then '\t' else c

/-- The content of a string literal after its opening quote, and the number of characters up to
and with the closing quote. -/
def stringTail : List Char → Option (List Char × Nat)
  | [] => none
  | '\x22' :: _ => some ([], 1)
  | ['\\'] => none
  | '\\' :: c :: cs => (stringTail cs).map fun (value, n) => (unescape c :: value, n + 2)
  | c :: cs => (stringTail cs).map fun (value, n) => (c :: value, n + 1)

/-- The token of a string literal, after its opening quote. -/
def scanString (cs : List Char) : Except Failure Scan :=
  match stringTail cs with
  | some (value, n) => .ok ⟨.str (String.ofList value), n + 1, by omega⟩
  | none => .error .unterminatedString

/-- The mark at the front of a text that starts with `c`, with its size. -/
def scanMark (c : Char) (cs : List Char) : Except Failure Scan :=
  let one (m : Mark) : Except Failure Scan := .ok ⟨.mark m, 1, by omega⟩
  let two (m : Mark) : Except Failure Scan := .ok ⟨.mark m, 2, by omega⟩
  let twice (d : Char) (long : Mark) (short : Except Failure Scan) : Except Failure Scan :=
    if cs.head? = some d then two long else short
  match c with
  | '(' => one .openParen
  | ')' => one .closeParen
  | '\x7b' => one .openBrace
  | '\x7d' => one .closeBrace
  | '[' => one .openBracket
  | ']' => one .closeBracket
  | ',' => one .comma
  | ';' => one .semicolon
  | '?' => one .question
  | ':' => one .colon
  | '+' => one .plus
  | '-' => one .minus
  | '*' => one .star
  | '/' => one .slash
  | '%' => one .percent
  | '=' => twice '=' .equal (one .assign)
  | '!' => twice '=' .notEqual (one .bang)
  | '<' => twice '=' .lessEqual (one .less)
  | '>' => twice '=' .greaterEqual (one .greater)
  | '&' => twice '&' .both (.error (.unexpectedChar c))
  | '|' => twice '|' .either (.error (.unexpectedChar c))
  | _ => .error (.unexpectedChar c)

/-- The token at the front of a text whose first character is `c`. -/
def scan (c : Char) (cs : List Char) : Except Failure Scan :=
  if c.isDigit then scanNumber c cs
  else if c = '\x22' then scanString cs
  else if startsWord c then .ok (scanWord c cs)
  else scanMark c cs

/-- The number of characters of the gap at the front of a text that starts with `c`: one blank, or
a comment up to the end of its line; zero if a token starts here. -/
def gap (c : Char) (cs : List Char) : Nat :=
  if Text.isBlank c then 1
  else if c = '/' ∧ cs.head? = some '/' then (cs.takeWhile (· ≠ '\n')).length + 1
  else 0

/-- The tokens of a text that starts at position `p`. -/
def run (p : Position) : List Char → Except SyntaxError (List Located)
  | [] => .ok []
  | c :: cs =>
    if _h : 0 < gap c cs then
      run (p.advance ((c :: cs).take (gap c cs))) ((c :: cs).drop (gap c cs))
    else match scan c cs with
      | .error failure => .error (failure.at p)
      | .ok ⟨token, size, _⟩ => do
        let rest ← run (p.advance ((c :: cs).take size)) ((c :: cs).drop size)
        return ⟨token, p⟩ :: rest
termination_by cs => cs.length
decreasing_by
  all_goals simp only [List.length_drop, List.length_cons]; omega

end Lexer

/-- The tokens of a program text with their positions. -/
def tokenize (source : String) : Except SyntaxError (List Located) :=
  Lexer.run .start source.toList

end Reflow
