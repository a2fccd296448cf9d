/-
The arena: all nodes and locals of one compilation unit.

Nodes are numbered in order of allocation. A node can be replaced in place, so that whatever
refers to it refers to the replacement.
-/
import Erasure.Tree.Node

namespace Erasure

/-- The nodes and locals of a unit. -/
structure Arena where
  exprs : Array Expr := #[]
  stmts : Array Stmt := #[]
  locals : Array LocalDef := #[]
  deriving Repr

namespace Arena

/-- An expression node. -/
def expr (a : Arena) (e : ExprId) : Expr := a.exprs.getD e.index default

/-- A statement node. -/
def stmt (a : Arena) (s : StmtId) : Stmt := a.stmts.getD s.index default

/-- A local. -/
def localDef (a : Arena) (l : LocalId) : LocalDef := a.locals.getD l.index default

/-- The children of a node, in the order of their evaluation. -/
def children (a : Arena) : NodeId → List NodeId
  | .expr e => (a.expr e).kind.children
  | .stmt s => (a.stmt s).kind.children

/-- How many expressions and statements there are. -/
def nodeCount (a : Arena) : Nat := a.exprs.size + a.stmts.size

/-- Adds an expression. -/
def addExpr (e : Expr) : StateM Arena ExprId := fun a =>
  (⟨a.exprs.size⟩, { a with exprs := a.exprs.push e })

/-- Adds a statement. -/
def addStmt (s : Stmt) : StateM Arena StmtId := fun a =>
  (⟨a.stmts.size⟩, { a with stmts := a.stmts.push s })

/-- Adds a local. -/
def addLocal (l : LocalDef) : StateM Arena LocalId := fun a =>
  (⟨a.locals.size⟩, { a with locals := a.locals.push l })

/-- Puts an expression in the place of another. -/
def replaceExpr (a : Arena) (id : ExprId) (e : Expr) : Arena :=
  { a with exprs := a.exprs.setIfInBounds id.index e }

/-- Gives a statement another form; it keeps its span. -/
def replaceStmtKind (a : Arena) (id : StmtId) (kind : StmtKind) : Arena :=
  { a with stmts := a.stmts.modify id.index ({ · with kind }) }

/-! ### Preorder -/

/-- The nodes of a tree at most `depth` levels deep, every node before its children, in front of
`rest`. -/
def preorderOnto (a : Arena) : (depth : Nat) → NodeId → List NodeId → List NodeId
  | 0, _, rest => rest
  | depth + 1, n, rest => n :: (a.children n).foldr (a.preorderOnto depth) rest

/-- The nodes of a tree, every node before its children and the children in order. A node that
several parents share is listed under each of them. -/
def preorder (a : Arena) (root : NodeId) : List NodeId := a.preorderOnto (a.nodeCount + 1) root []

end Arena

end Erasure
