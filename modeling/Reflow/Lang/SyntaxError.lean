import Reflow.Text.Quoted
import Reflow.Lang.Token
/-!
# Syntax errors

Reading a program stops at the first problem. Every syntax error has a position, and its message
starts with it.

## Main definitions

* `SyntaxError`: what can be wrong with a program text.
* `SyntaxError.position` and `SyntaxError.message`.
-/

namespace Reflow

/-- The first problem of a program text. -/
inductive SyntaxError
  /-- A character that starts no token. -/
  | unexpectedChar (found : Char) (position : Position)
  /-- A string literal without its closing quote. -/
  | unterminatedString (position : Position)
  /-- A number that is malformed or too large. -/
  | invalidNumber (literal : String) (position : Position)
  /-- A token that the grammar does not allow here. -/
  | unexpectedToken (expected found : String) (position : Position)
  /-- The text ends in the middle of a construct; the position is that of the last token. -/
  | unexpectedEnd (expected : String) (position : Position)
  /-- One parameter name given twice. -/
  | duplicateParameter (name : String) (position : Position)
  deriving Repr, DecidableEq

namespace SyntaxError

/-- The name of the kind of problem. -/
def kind : SyntaxError → String
  | unexpectedChar _ _ => "UnexpectedChar"
  | unterminatedString _ => "UnterminatedString"
  | invalidNumber _ _ => "InvalidNumber"
  | unexpectedToken _ _ _ => "UnexpectedToken"
  | unexpectedEnd _ _ => "UnexpectedEof"
  | duplicateParameter _ _ => "DuplicateParameter"

/-- Where the problem is. -/
def position : SyntaxError → Position
  | unexpectedChar _ p => p
  | unterminatedString p => p
  | invalidNumber _ p => p
  | unexpectedToken _ _ p => p
  | unexpectedEnd _ p => p
  | duplicateParameter _ p => p

/-- The problem without its position. -/
def reason : SyntaxError → String
  | unexpectedChar found _ => "unexpected character " ++ Text.shownChar found
  | unterminatedString _ => "unterminated string literal"
  | invalidNumber literal _ => "invalid number literal " ++ ticked literal
  | unexpectedToken expected found _ => "expected " ++ expected ++ ", found " ++ found
  | unexpectedEnd expected _ => "unexpected end of input, expected " ++ expected
  | duplicateParameter name _ => "duplicate parameter " ++ ticked name

/-- The error text: the position and the problem. -/
def message (e : SyntaxError) : String := e.position.text ++ ": " ++ e.reason

end SyntaxError

end Reflow
