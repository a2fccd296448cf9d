/-
Compilation units: class declarations with the trees of their members.
-/
import Erasure.Tree.Arena

namespace Erasure

/-- What a member declaration brings with it. -/
inductive MemberBody where
  /-- Abstract methods have no body. -/
  | method (formals : List LocalId) (body : Option StmtId)
  | constructor (formals : List LocalId) (body : Option StmtId)
  | field (init : Option ExprId)
  | initializer (body : Option StmtId)
  deriving DecidableEq, Repr

namespace MemberBody

/-- The root of the tree of a member, if it has one. -/
def root? : MemberBody → Option NodeId
  | method _ body | constructor _ body | initializer body => body.map .stmt
  | field init => init.map .expr

/-- The formal parameters of a procedure. -/
def formals : MemberBody → List LocalId
  | method formals _ | constructor formals _ => formals
  | field _ | initializer _ => []

end MemberBody

/-- The declaration of a member. -/
structure MemberDecl where
  member : MemberId
  body : MemberBody
  span : Span
  deriving DecidableEq, Repr

/-- The declaration of a class with those of its members. -/
structure ClassDecl where
  classId : ClassId
  members : List MemberDecl
  span : Span
  deriving DecidableEq, Repr

/-- The class declarations of a unit, and the arena of their trees. -/
structure CompilationUnit where
  arena : Arena := {}
  classes : List ClassDecl := []
  deriving Repr

namespace CompilationUnit

/-- The roots of the trees of all members, in order. -/
def roots (u : CompilationUnit) : List NodeId :=
  u.classes.flatMap fun c => c.members.filterMap fun m => m.body.root?

/-- All nodes of the trees of a unit, every node before its children. -/
def nodes (u : CompilationUnit) : List NodeId := u.roots.flatMap u.arena.preorder

end CompilationUnit

end Erasure
