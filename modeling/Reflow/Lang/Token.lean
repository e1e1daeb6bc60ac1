import Reflow.Decimal.Style
import Reflow.Lang.Position
/-!
# Tokens of the language

A token is a name, a literal, or one of finitely many marks: the four reserved words and the
punctuation. An integer literal has no sign; the parser applies one.

## Main definitions

* `Mark`: reserved words and punctuation, with the spelling of each.
* `Token`: the tokens, with `Token.describe` naming one in an error text.
* `Located`: a token with the position of its first character.
-/

namespace Reflow

/-- Reserved words and punctuation. -/
inductive Mark
  | define | yes | no | null
  | openParen | closeParen | openBrace | closeBrace | openBracket | closeBracket
  | comma | semicolon | question | colon | assign
  | plus | minus | star | slash | percent
  | equal | notEqual | less | lessEqual | greater | greaterEqual
  | both | either | bang
  deriving Repr, DecidableEq

/-- How a mark is spelled in a program. -/
def Mark.spelling : Mark → String
  | define => "def"
  | yes => "true"
  | no => "false"
  | null => "null"
  | openParen => "("
  | closeParen => ")"
  | openBrace => "\x7b"
  | closeBrace => "\x7d"
  | openBracket => "["
  | closeBracket => "]"
  | comma => ","
  | semicolon => ";"
  | question => "?"
  | colon => ":"
  | assign => "="
  | plus => "+"
  | minus => "-"
  | star => "*"
  | slash => "/"
  | percent => "%"
  | equal => "=="
  | notEqual => "!="
  | less => "<"
  | lessEqual => "<="
  | greater => ">"
  | greaterEqual => ">="
  | both => "&&"
  | either => "||"
  | bang => "!"

/-- A token of the language. -/
inductive Token
  /-- A name. -/
  | name (text : String)
  /-- An integer literal, below `2 ^ 64`. -/
  | int (value : Nat)
  /-- A literal with a point or an exponent. -/
  | double (value : Float)
  /-- A string literal, by its content. -/
  | str (value : String)
  | mark (m : Mark)

/-- The written form of doubles in error texts: digits only, without an exponent. -/
def tokenStyle : Decimal.Style := ⟨none, false, false, .up⟩

/-- A text between grave accents. -/
def ticked (s : String) : String := "\x60" ++ s ++ "\x60"

/-- How an error text names a token. -/
def Token.describe : Token → String
  | name text => "identifier " ++ ticked text
  | int value => "integer " ++ ticked (toString value)
  | double value => "number " ++ ticked (tokenStyle.write value)
  | str _ => "string literal"
  | mark m => ticked m.spelling

/-- A token with the position of its first character. -/
structure Located where
  token : Token
  position : Position

end Reflow
