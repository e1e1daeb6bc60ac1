import Reflow.Decimal.Style
import Reflow.Text.Quoted
import Reflow.Lang.Expr
/-!
# Rendering programs

Every statement has one written form. An operand is put in parentheses exactly when its operator
binds more weakly than its place allows; the right operand of an infix operator must bind more
strongly than the operator, since these group to the left.

## Main definitions

* `Expr.render`, `Statement.render`: the written form of an expression and of a statement.
* `Statement.renderAll`: the statements of a program, one a line.
-/

namespace Reflow

/-- The written form of doubles in programs and in value text: plain between `0.0001` and `1e16`,
with a digit after the point even for a whole number. -/
def literalStyle : Decimal.Style := ⟨some (-4, 15), true, false, .up⟩

/-- The texts of a list with a separator between neighbours. -/
def separated (separator : String) : List String → String
  | [] => ""
  | [s] => s
  | s :: rest => s ++ separator ++ separated separator rest

namespace Expr

/-- How strongly the outermost operator of an expression binds. -/
def precedence : Expr → Nat
  | cond _ _ _ => 0
  | binary op _ _ => op.precedence
  | unary _ _ => 7
  | _ => 8

/-- A rendered operand in a place that demands at least the precedence `least`. -/
def grouped (e : Expr) (text : String) (least : Nat) : String :=
  if e.precedence < least then "(" ++ text ++ ")" else text

mutual

/-- The written form of an expression. -/
def render : Expr → String
  | null => "null"
  | bool true => "true"
  | bool false => "false"
  | int value => toString value.toInt
  | double value => literalStyle.write value
  | str value => Text.literal value
  | name n => n
  | array items => "\x7b" ++ separated ", " (renderAll items) ++ "\x7d"
  | index target i => grouped target (render target) 8 ++ "[" ++ render i ++ "]"
  | call callee args => callee ++ "(" ++ separated ", " (renderAll args) ++ ")"
  | unary op operand => op.symbol ++ grouped operand (render operand) 7
  | binary op lhs rhs =>
    grouped lhs (render lhs) op.precedence ++ " " ++ op.symbol ++ " "
      ++ grouped rhs (render rhs) (op.precedence + 1)
  | cond test yes no =>
    grouped test (render test) 1 ++ " ? " ++ grouped yes (render yes) 1 ++ " : " ++ render no

/-- The written forms of a list of expressions. -/
def renderAll : List Expr → List String
  | [] => []
  | e :: es => render e :: renderAll es

end

end Expr

namespace Statement

/-- The written form of a statement. -/
def render : Statement → String
  | assign target value => target ++ " = " ++ value.render ++ ";"
  | define name params body =>
    "def " ++ name ++ "(" ++ separated ", " params ++ ") = " ++ body.render ++ ";"

/-- The statements of a program, one a line. -/
def renderAll (program : List Statement) : String := separated "\n" (program.map render)

end Statement

end Reflow
