import Reflow.Text.Property
/-!
# Quoted text

Program text and value text quote strings differently. In a program only the quote, the backslash,
the line feed and the tab are escaped, so that every other character stands for itself. Value text
also escapes the other named controls and gives every character without a shape by its code.

## Main definitions

* `literal`: a string as a literal of the language.
* `shown`: a string as value text.
* `shownChar`: a single character in single quotes.
-/

namespace Reflow.Text

/-- One character inside a string literal of the language. -/
def literalChar (c : Char) : List Char :=
  match c with
  | '\x22' => ['\\', '\x22']
  | '\\' => ['\\', '\\']
  | '\n' => ['\\', 'n']
  | '\t' => ['\\', 't']
  | other => [other]

/-- The characters of a string literal of the language, without its quotes. -/
def literalBody (cs : List Char) : List Char := cs.flatMap literalChar

/-- A string as a literal of the language. -/
def literal (s : String) : String :=
  String.ofList ('\x22' :: (literalBody s.toList ++ ['\x22']))

/-- A character given by its code in lower-case hexadecimal. -/
def codeEscape (c : Char) : List Char :=
  ['\\', 'u', '\x7b'] ++ Nat.toDigits 16 c.toNat ++ ['\x7d']

/-- One character of value text between quotes `quote`. -/
def shownIn (quote c : Char) : List Char :=
  match c with
  | '\\' => ['\\', '\\']
  | '\n' => ['\\', 'n']
  | '\r' => ['\\', 'r']
  | '\t' => ['\\', 't']
  | '\x00' => ['\\', '0']
  | other =>
    if other = quote then ['\\', other]
    else if isPrintable other then [other]
    else codeEscape other

/-- A string as value text. -/
def shown (s : String) : String :=
  String.ofList ('\x22' :: (s.toList.flatMap (shownIn '\x22') ++ ['\x22']))

/-- A single character as value text, in single quotes. -/
def shownChar (c : Char) : String :=
  String.ofList ('\x27' :: (shownIn '\x27' c ++ ['\x27']))

end Reflow.Text
