/-!
# Programs

A program is a list of statements. A statement assigns an expression to a variable or defines a
function whose body is one expression.

## Main definitions

* `UnaryOp`, `BinaryOp`: the operators, with symbol and precedence.
* `Expr`: expressions.
* `Statement`: assignments and function definitions.
-/

namespace Reflow

/-- Prefix operators. -/
inductive UnaryOp
  | neg | not
  deriving Repr, DecidableEq

/-- How a prefix operator is spelled. -/
def UnaryOp.symbol : UnaryOp → String
  | neg => "-"
  | not => "!"

/-- Infix operators. -/
inductive BinaryOp
  | add | sub | mul | div | mod
  | eq | ne | lt | le | gt | ge
  | and | or
  deriving Repr, DecidableEq

namespace BinaryOp

/-- How an infix operator is spelled. -/
def symbol : BinaryOp → String
  | add => "+"
  | sub => "-"
  | mul => "*"
  | div => "/"
  | mod => "%"
  | eq => "=="
  | ne => "!="
  | lt => "<"
  | le => "<="
  | gt => ">"
  | ge => ">="
  | and => "&&"
  | or => "||"

/-- How strongly an infix operator binds; all of them group to the left. -/
def precedence : BinaryOp → Nat
  | or => 1
  | and => 2
  | eq | ne => 3
  | lt | le | gt | ge => 4
  | add | sub => 5
  | mul | div | mod => 6

end BinaryOp

/-- An expression. -/
inductive Expr
  | null
  | bool (value : Bool)
  | int (value : Int64)
  | double (value : Float)
  | str (value : String)
  /-- A variable or a function, by name. -/
  | name (name : String)
  | array (items : List Expr)
  | index (target index : Expr)
  /-- A call by name. -/
  | call (callee : String) (args : List Expr)
  | unary (op : UnaryOp) (operand : Expr)
  | binary (op : BinaryOp) (lhs rhs : Expr)
  | cond (test yes no : Expr)
  deriving Inhabited

mutual

/-- Structural equality; two doubles are compared as numbers, so a NaN differs from itself. -/
def Expr.same : Expr → Expr → Bool
  | .null, .null => true
  | .bool a, .bool b => a == b
  | .int a, .int b => a == b
  | .double a, .double b => a == b
  | .str a, .str b => a == b
  | .name a, .name b => a == b
  | .array a, .array b => Expr.sameAll a b
  | .index a i, .index b j => Expr.same a b && Expr.same i j
  | .call f a, .call g b => f == g && Expr.sameAll a b
  | .unary o a, .unary p b => o == p && Expr.same a b
  | .binary o a b, .binary p c d => o == p && Expr.same a c && Expr.same b d
  | .cond a b c, .cond d e f => Expr.same a d && Expr.same b e && Expr.same c f
  | _, _ => false

/-- Structural equality of lists of expressions. -/
def Expr.sameAll : List Expr → List Expr → Bool
  | [], [] => true
  | a :: as, b :: bs => Expr.same a b && Expr.sameAll as bs
  | _, _ => false

end

/-- A statement of a program. -/
inductive Statement
  | assign (target : String) (value : Expr)
  | define (name : String) (params : List String) (body : Expr)
  deriving Inhabited

namespace Statement

/-- The variable or function that a statement binds. -/
def boundName : Statement → String
  | assign target _ => target
  | define name _ _ => name

/-- The variable that a statement assigns; a function definition assigns none. -/
def assigned? : Statement → Option String
  | assign target _ => some target
  | define _ _ _ => none

/-- Structural equality, with doubles compared as numbers. -/
def same : Statement → Statement → Bool
  | assign a x, assign b y => a == b && x.same y
  | define f p x, define g q y => f == g && p == q && x.same y
  | _, _ => false

/-- Structural equality of programs. -/
def sameAll : List Statement → List Statement → Bool
  | [], [] => true
  | a :: as, b :: bs => a.same b && sameAll as bs
  | _, _ => false

end Statement

end Reflow
