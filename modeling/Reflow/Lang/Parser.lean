import Reflow.Decimal.Whole
import Reflow.Lang.Expr
import Reflow.Lang.Lexer
/-!
# Reading programs

The grammar, from the weakest to the strongest binding:

```text
program     := statement*
statement   := "def" NAME "(" params? ")" "=" expr ";" | NAME "=" expr ";"
expr        := or ("?" expr ":" expr)?
or          := and ("||" and)*
and         := equality ("&&" equality)*
equality    := comparison (("==" | "!=") comparison)*
comparison  := sum (("<" | "<=" | ">" | ">=") sum)*
sum         := product (("+" | "-") product)*
product     := unary (("*" | "/" | "%") unary)*
unary       := ("-" | "!") unary | postfix
postfix     := primary ("[" expr "]")*
primary     := literal | NAME | NAME "(" args? ")" | "(" expr ")" | "{" args? "}"
```

A minus directly before a number that is not indexed is part of the number, which is how the least
integer can be written. Each reading function takes the tokens that are left and returns what it
read with the tokens after it. The recursion is bounded by a count that the number of tokens
determines: between two tokens only boundedly many functions call one another.

## Main definitions

* `parseProgram`: the statements of a program text.
* `parseExpression`: the expression that is a whole text.
-/

namespace Reflow

namespace Parser

/-- The error of a construct that should stand here: `last` is the position of the last token of
the text. -/
def unexpected (last : Position) (expected : String) : List Located → SyntaxError
  | [] => .unexpectedEnd expected last
  | t :: _ => .unexpectedToken expected t.token.describe t.position

/-- Whether the tokens start with a mark. -/
def startsWith (m : Mark) : List Located → Bool
  | ⟨.mark n, _⟩ :: _ => n = m
  | _ => false

/-- The tokens after a mark that must stand here. -/
def expect (last : Position) (m : Mark) (ts : List Located) : Except SyntaxError (List Located) :=
  if startsWith m ts then .ok (ts.drop 1) else .error (unexpected last (ticked m.spelling) ts)

/-- A name that must stand here, with its position. -/
def expectName (last : Position) (what : String) (ts : List Located) :
    Except SyntaxError ((String × Position) × List Located) :=
  match ts with
  | ⟨.name n, p⟩ :: rest => .ok ((n, p), rest)
  | _ => .error (unexpected last what ts)

/-- The infix operator that a token stands for. -/
def operator? : Token → Option BinaryOp
  | .mark .plus => some .add
  | .mark .minus => some .sub
  | .mark .star => some .mul
  | .mark .slash => some .div
  | .mark .percent => some .mod
  | .mark .equal => some .eq
  | .mark .notEqual => some .ne
  | .mark .less => some .lt
  | .mark .lessEqual => some .le
  | .mark .greater => some .gt
  | .mark .greaterEqual => some .ge
  | .mark .both => some .and
  | .mark .either => some .or
  | _ => none

/-- The infix operator at the front of the tokens. -/
def frontOperator? : List Located → Option BinaryOp
  | [] => none
  | t :: _ => operator? t.token

/-- The literal that a minus and the number after it form, if the tokens after the minus start with
a number that is not indexed. -/
def negated? : List Located → Option (Except SyntaxError Expr)
  | ⟨.int n, p⟩ :: rest =>
    if startsWith .openBracket rest then none
    else match fit? (-n) with
      | some k => some (.ok (.int k))
      | none => some (.error (.invalidNumber ("-" ++ toString n) p))
  | ⟨.double x, _⟩ :: rest =>
    if startsWith .openBracket rest then none else some (.ok (.double (-x)))
  | _ => none

mutual

/-- An expression. -/
def expr (last : Position) : Nat → List Located → Except SyntaxError (Expr × List Located)
  | 0, ts => .error (unexpected last "expression" ts)
  | fuel + 1, ts => do
    let (test, ts) ← binary last fuel 1 ts
    if startsWith .question ts then
      let (yes, ts) ← expr last fuel (ts.drop 1)
      let ts ← expect last .colon ts
      let (no, ts) ← expr last fuel ts
      return (.cond test yes no, ts)
    else return (test, ts)

/-- Operands joined by infix operators that bind at least as strongly as `least`. -/
def binary (last : Position) : Nat → Nat → List Located → Except SyntaxError (Expr × List Located)
  | 0, _, ts => .error (unexpected last "expression" ts)
  | fuel + 1, least, ts => do
    let (lhs, ts) ← unary last fuel ts
    operands last fuel least lhs ts

/-- The operators and operands that follow a left operand. -/
def operands (last : Position) : Nat → Nat → Expr → List Located →
    Except SyntaxError (Expr × List Located)
  | 0, _, _, ts => .error (unexpected last "expression" ts)
  | fuel + 1, least, lhs, ts =>
    match frontOperator? ts with
    | none => .ok (lhs, ts)
    | some op =>
      if op.precedence < least then .ok (lhs, ts)
      else do
        let (rhs, ts) ← binary last fuel (op.precedence + 1) (ts.drop 1)
        operands last fuel least (.binary op lhs rhs) ts

/-- An operand with its prefix operators. -/
def unary (last : Position) : Nat → List Located → Except SyntaxError (Expr × List Located)
  | 0, ts => .error (unexpected last "expression" ts)
  | fuel + 1, ts =>
    if startsWith .minus ts then
      match negated? (ts.drop 1) with
      | some literal => do
        let e ← literal
        return (e, ts.drop 2)
      | none => do
        let (operand, ts) ← unary last fuel (ts.drop 1)
        return (.unary .neg operand, ts)
    else if startsWith .bang ts then do
      let (operand, ts) ← unary last fuel (ts.drop 1)
      return (.unary .not operand, ts)
    else do
      let (e, ts) ← primary last fuel ts
      subscripts last fuel e ts

/-- The subscripts that follow an expression. -/
def subscripts (last : Position) : Nat → Expr → List Located →
    Except SyntaxError (Expr × List Located)
  | 0, _, ts => .error (unexpected last "expression" ts)
  | fuel + 1, target, ts =>
    if startsWith .openBracket ts then do
      let (i, ts) ← expr last fuel (ts.drop 1)
      let ts ← expect last .closeBracket ts
      subscripts last fuel (.index target i) ts
    else .ok (target, ts)

/-- A literal, a name, a call, an array or an expression in parentheses. -/
def primary (last : Position) : Nat → List Located → Except SyntaxError (Expr × List Located)
  | 0, ts => .error (unexpected last "expression" ts)
  | fuel + 1, ts =>
    match ts with
    | ⟨.mark .null, _⟩ :: ts => .ok (.null, ts)
    | ⟨.mark .yes, _⟩ :: ts => .ok (.bool true, ts)
    | ⟨.mark .no, _⟩ :: ts => .ok (.bool false, ts)
    | ⟨.int n, p⟩ :: ts =>
      match fit? n with
      | some k => .ok (.int k, ts)
      | none => .error (.invalidNumber (toString n) p)
    | ⟨.double x, _⟩ :: ts => .ok (.double x, ts)
    | ⟨.str s, _⟩ :: ts => .ok (.str s, ts)
    | ⟨.name n, _⟩ :: ts =>
      if startsWith .openParen ts then do
        let (args, ts) ← items last fuel .closeParen (ts.drop 1)
        return (.call n args, ts)
      else .ok (.name n, ts)
    | ⟨.mark .openParen, _⟩ :: ts => do
      let (e, ts) ← expr last fuel ts
      let ts ← expect last .closeParen ts
      return (e, ts)
    | ⟨.mark .openBrace, _⟩ :: ts => do
      let (es, ts) ← items last fuel .closeBrace ts
      return (.array es, ts)
    | ts => .error (unexpected last "expression" ts)

/-- Expressions with commas between them, up to and with the mark that closes the list. -/
def items (last : Position) : Nat → Mark → List Located →
    Except SyntaxError (List Expr × List Located)
  | 0, _, ts => .error (unexpected last "expression" ts)
  | fuel + 1, close, ts =>
    if startsWith close ts then .ok ([], ts.drop 1) else itemsTail last fuel close ts

/-- At least one expression, with commas between them, up to and with the closing mark. -/
def itemsTail (last : Position) : Nat → Mark → List Located →
    Except SyntaxError (List Expr × List Located)
  | 0, _, ts => .error (unexpected last "expression" ts)
  | fuel + 1, close, ts => do
    let (e, ts) ← expr last fuel ts
    if startsWith close ts then return ([e], ts.drop 1)
    else
      let ts ← expect last .comma ts
      let (es, ts) ← itemsTail last fuel close ts
      return (e :: es, ts)

end

/-- Parameter names with commas between them, up to and with the closing parenthesis; `seen` are
the names before. -/
def params (last : Position) : Nat → List String → List Located →
    Except SyntaxError (List String × List Located)
  | 0, _, ts => .error (unexpected last "parameter name" ts)
  | fuel + 1, seen, ts => do
    let ((n, p), ts) ← expectName last "parameter name" ts
    if n ∈ seen then throw (.duplicateParameter n p)
    else if startsWith .closeParen ts then return (seen ++ [n], ts.drop 1)
    else
      let ts ← expect last .comma ts
      params last fuel (seen ++ [n]) ts

/-- A recursion bound for a list of tokens: no chain of calls is longer. -/
def bound (ts : List Located) : Nat := 8 * ts.length + 16

/-- The equals sign, the expression and the semicolon at the end of a statement. -/
def equals (last : Position) (ts : List Located) : Except SyntaxError (Expr × List Located) := do
  let ts ← expect last .assign ts
  let (value, ts) ← expr last (bound ts) ts
  let ts ← expect last .semicolon ts
  return (value, ts)

/-- A statement. -/
def statement (last : Position) (ts : List Located) :
    Except SyntaxError (Statement × List Located) := do
  if startsWith .define ts then
    let ((name, _), ts) ← expectName last "function name" (ts.drop 1)
    let ts ← expect last .openParen ts
    let (params, ts) ←
      if startsWith .closeParen ts then pure ([], ts.drop 1) else params last (bound ts) [] ts
    let (body, ts) ← equals last ts
    return (.define name params body, ts)
  else
    let ((target, _), ts) ← expectName last "statement" ts
    let (value, ts) ← equals last ts
    return (.assign target value, ts)

/-- Statements up to the end of the tokens; each takes at least one token. -/
def statements (last : Position) : Nat → List Located → Except SyntaxError (List Statement)
  | _, [] => .ok []
  | 0, ts => .error (unexpected last "statement" ts)
  | fuel + 1, ts => do
    let (s, ts) ← statement last ts
    let rest ← statements last fuel ts
    return s :: rest

/-- The position of the last token. -/
def lastPosition (ts : List Located) : Position :=
  match ts.getLast? with
  | some t => t.position
  | none => .start

/-- The statements of a list of tokens. -/
def program (ts : List Located) : Except SyntaxError (List Statement) :=
  statements (lastPosition ts) ts.length ts

/-- The expression that a list of tokens is. -/
def whole (ts : List Located) : Except SyntaxError Expr := do
  let (e, rest) ← expr (lastPosition ts) (bound ts) ts
  if rest.isEmpty then return e else throw (unexpected (lastPosition ts) "end of input" rest)

end Parser

/-- The statements of a program text. -/
def parseProgram (source : String) : Except SyntaxError (List Statement) := do
  Parser.program (← tokenize source)

/-- The expression that is a whole text. -/
def parseExpression (source : String) : Except SyntaxError Expr := do
  Parser.whole (← tokenize source)

end Reflow
