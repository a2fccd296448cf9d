/-
Operators and the ways in which a call reaches its target.
-/

namespace Erasure

/-- Binary operators. -/
inductive BinaryOp where
  | add
  | sub
  | mul
  | div
  | rem
  | eq
  | notEq
  | lt
  | ltEq
  | gt
  | gtEq
  | bitAnd
  | bitOr
  | bitXor
  | shl
  | shr
  | ushr
  | condAnd
  | condOr
  deriving DecidableEq, Repr

namespace BinaryOp

/-- The token of the operator. -/
def token : BinaryOp → String
  | add => "+"
  | sub => "-"
  | mul => "*"
  | div => "/"
  | rem => "%"
  | eq => "=="
  | notEq => "!="
  | lt => "<"
  | ltEq => "<="
  | gt => ">"
  | gtEq => ">="
  | bitAnd => "&"
  | bitOr => "|"
  | bitXor => "^"
  | shl => "<<"
  | shr => ">>"
  | ushr => ">>>"
  | condAnd => "&&"
  | condOr => "||"

/-- Whether the result is a truth value whatever the operands are. -/
def isComparison : BinaryOp → Bool
  | eq | notEq | lt | ltEq | gt | gtEq | condAnd | condOr => true
  | _ => false

end BinaryOp

/-- Unary operators. -/
inductive UnaryOp where
  | neg
  | not
  | bitNot
  deriving DecidableEq, Repr

/-- How a call reaches its target. -/
inductive Dispatch where
  /-- A static method, without a receiver. -/
  | static
  /-- A known target: private, final, or a method of a final class. -/
  | direct
  /-- Through the table of an interface. -/
  | interface
  /-- Through the method table of the class. -/
  | virtual
  deriving DecidableEq, Repr

/-- Which constructor a constructor passes on to. -/
inductive ConstructorCallKind where
  /-- Another constructor of the same class. -/
  | sameClass
  /-- A constructor of the superclass. -/
  | superclass
  deriving DecidableEq, Repr

end Erasure
