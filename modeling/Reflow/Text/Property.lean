import Reflow.Text.Alphabetic
import Reflow.Text.Numeric
import Reflow.Text.Invisible
/-!
# Character properties

Names in programs may use the letters and digits of every script, blanks are those of Unicode, and
value text shows only characters that have a shape of their own.

## Main definitions

* `isBlank`, `isAlphabetic`, `isAlphanumeric`: the classes the lexer tells apart.
* `isPrintable`: characters that value text shows as they are.
* `trim`: a text without the blanks at its two ends.
-/

namespace Reflow.Text

/-- Whether a code point lies in the set whose boundaries are listed: it does when an odd number of
boundaries have been passed. -/
def within (bounds : List Nat) (code : Nat) : Bool :=
  (bounds.takeWhile (· ≤ code)).length % 2 = 1

/-- White space, by the Unicode property of that name. -/
def isBlank (c : Char) : Bool :=
  let n := c.toNat
  (9 ≤ n && n ≤ 13) || n == 0x20 || n == 0x85 || n == 0xa0 || n == 0x1680
    || (0x2000 ≤ n && n ≤ 0x200a) || n == 0x2028 || n == 0x2029 || n == 0x202f || n == 0x205f
    || n == 0x3000

/-- A letter of any script, by the Unicode property Alphabetic. -/
def isAlphabetic (c : Char) : Bool :=
  if c.toNat < 128 then c.isAlpha else within alphabeticBounds c.toNat

/-- A letter of any script, or a digit or other number sign. -/
def isAlphanumeric (c : Char) : Bool :=
  isAlphabetic c || (if c.toNat < 128 then c.isDigit else within numericBounds c.toNat)

/-- Whether a character has a visible shape of its own; the space counts as one. -/
def isPrintable (c : Char) : Bool :=
  if c.toNat < 127 then 32 ≤ c.toNat
  else !within invisibleBounds c.toNat && !within extendingBounds c.toNat

/-- A text without the blanks at its two ends. -/
def trim (cs : List Char) : List Char :=
  ((cs.dropWhile isBlank).reverse.dropWhile isBlank).reverse

/-- Whether a text holds blanks only. -/
def isBlankText (s : String) : Bool := s.toList.all isBlank

/-- A class of characters that core knows as white space is blank here too. -/
theorem isBlank_of_isWhitespace {c : Char} (h : c.isWhitespace) : isBlank c := by
  simp only [Char.isWhitespace, Bool.or_eq_true, decide_eq_true_eq] at h
  rcases h with ((rfl | rfl) | rfl) | rfl <;> decide

end Reflow.Text
