/-
Nodes of typed trees.

An expression carries its static type and a statement does not; both carry a span. Children are
numbers of other nodes, in the order of evaluation (`ExprKind.children`, `StmtKind.children`).
-/
import Erasure.Handle
import Erasure.Span
import Erasure.Tree.Operator

namespace Erasure

/-- What a field access or a call is applied to. -/
inductive Receiver where
  /-- An object. -/
  | expr (e : ExprId)
  /-- A class, for static members. -/
  | type (ty : TypeId)
  deriving DecidableEq, Repr

/-- An expression or a statement. -/
inductive NodeId where
  | expr (e : ExprId)
  | stmt (s : StmtId)
  deriving DecidableEq, Repr

/-- The forms of expressions. -/
inductive ExprKind where
  | bool (value : Bool)
  | int (value : Int)
  /-- A floating point literal by its bits; the type tells its width. -/
  | float (bits : UInt64)
  /-- A character literal: one code unit of UTF-16. -/
  | char (unit : UInt16)
  /-- A string literal; none is left after desugaring. -/
  | str (text : Name)
  | null
  | localVar (l : LocalId)
  | field (receiver : Receiver) (member : MemberId)
  /-- An array element; `guarded` when the checks it needs are made elsewhere. -/
  | arrayAccess (base index : ExprId) (guarded : Bool)
  | call (receiver : Receiver) (method : MemberId) (args : List ExprId) (dispatch : Dispatch)
  /-- Allocation and constructor call, within an enclosing instance if the class is inner. -/
  | new (constructor : MemberId) (outer : Option ExprId) (args : List ExprId)
  | newArray (elems : List ExprId)
  | binary (op : BinaryOp) (left right : ExprId)
  | unary (op : UnaryOp) (operand : ExprId)
  | cast (e : ExprId) (target : TypeId)
  | instanceOf (e : ExprId) (target : TypeId)
  | classLiteral (target : TypeId)
  | assign (target value : ExprId)
  | self
  /-- Statements run for their effect, then a value. -/
  | sequence (stmts : List StmtId) (value : ExprId)
  deriving DecidableEq, Repr

/-- An expression with its static type. -/
structure Expr where
  kind : ExprKind
  type : TypeId
  span : Span
  deriving DecidableEq, Repr

instance : Inhabited Expr := ⟨⟨.null, default, .generated⟩⟩

/-- The forms of statements. -/
inductive StmtKind where
  | localDecl (l : LocalId) (init : Option ExprId)
  | eval (e : ExprId)
  | branch (cond : ExprId) (onTrue : StmtId) (onFalse : Option StmtId)
  | block (stmts : List StmtId)
  | result (e : Option ExprId)
  | throwing (e : ExprId)
  /-- The call of another constructor at the head of a constructor body. -/
  | constructorCall (kind : ConstructorCallKind) (constructor : MemberId) (args : List ExprId)
  deriving DecidableEq, Repr

/-- A statement. -/
structure Stmt where
  kind : StmtKind
  span : Span
  deriving DecidableEq, Repr

instance : Inhabited Stmt := ⟨⟨.block [], .generated⟩⟩

/-- Properties of a local variable. -/
structure LocalFlags where
  isFinal : Bool := false
  /-- Introduced by the compiler. -/
  isTemp : Bool := false
  /-- Assigned exactly once. -/
  isSsa : Bool := false
  deriving DecidableEq, Repr, Inhabited

/-- A local variable or formal parameter. -/
structure LocalDef where
  name : Name
  type : TypeId
  flags : LocalFlags
  deriving DecidableEq, Repr, Inhabited

/-! ### Children -/

/-- The object that a member is applied to, if there is one. -/
def Receiver.children : Receiver → List NodeId
  | expr e => [.expr e]
  | type _ => []

/-- The children of an expression, in the order of their evaluation. -/
def ExprKind.children : ExprKind → List NodeId
  | bool _ | int _ | float _ | char _ | str _ | null | localVar _ | classLiteral _ | self => []
  | field receiver _ => receiver.children
  | arrayAccess base index _ => [.expr base, .expr index]
  | call receiver _ args _ => receiver.children ++ args.map .expr
  | new _ outer args => (outer.toList ++ args).map .expr
  | newArray elems => elems.map .expr
  | binary _ left right => [.expr left, .expr right]
  | unary _ e | cast e _ | instanceOf e _ => [.expr e]
  | assign target value => [.expr target, .expr value]
  | sequence stmts value => stmts.map .stmt ++ [.expr value]

/-- The children of a statement, in the order of their evaluation. -/
def StmtKind.children : StmtKind → List NodeId
  | localDecl _ init => init.toList.map .expr
  | eval e | throwing e => [.expr e]
  | branch cond onTrue onFalse => .expr cond :: (onTrue :: onFalse.toList).map .stmt
  | block stmts => stmts.map .stmt
  | result e => e.toList.map .expr
  | constructorCall _ _ args => args.map .expr

/-! ### Classes of expressions -/

/-- Whether an expression is a literal. -/
def ExprKind.isLiteral : ExprKind → Bool
  | bool _ | int _ | float _ | char _ | str _ | null => true
  | _ => false

/-- Whether an expression can be assigned to. -/
def ExprKind.isAssignable : ExprKind → Bool
  | localVar _ | field .. | arrayAccess .. => true
  | _ => false

end Erasure
