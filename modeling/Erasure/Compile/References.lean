/-
What the trees of a unit refer to.
-/
import Erasure.Tree.CompilationUnit
import Erasure.TypeSystem.Basic

namespace Erasure

/-- What a node needs at link time. -/
inductive Reference where
  /-- A method or constructor that is called. -/
  | procedure (m : MemberId)
  | staticField (m : MemberId)
  /-- A type that is allocated. -/
  | allocation (ty : TypeId)
  deriving DecidableEq, Repr

namespace Reference

/-- What a node itself needs at link time. -/
def ofNode (ts : TypeSystem) (a : Arena) : NodeId → List Reference
  | .expr e =>
    match (a.expr e).kind with
    | .call _ m _ _ => [procedure m]
    | .new m _ _ => [procedure m, allocation (a.expr e).type]
    | .field _ m => if (ts.member m).flags.isStatic then [staticField m] else []
    | _ => []
  | .stmt s =>
    match (a.stmt s).kind with
    | .constructorCall _ m _ => [procedure m]
    | _ => []

/-- What the nodes of a unit need at link time, in preorder. -/
def ofUnit (ts : TypeSystem) (u : CompilationUnit) : List Reference :=
  u.nodes.flatMap (ofNode ts u.arena)

/-- The procedures among references. -/
def procedures (rs : List Reference) : List MemberId :=
  rs.filterMap fun
    | procedure m => some m
    | _ => none

/-- The static fields among references. -/
def staticFields (rs : List Reference) : List MemberId :=
  rs.filterMap fun
    | staticField m => some m
    | _ => none

/-- The allocated types among references. -/
def allocations (rs : List Reference) : List TypeId :=
  rs.filterMap fun
    | allocation ty => some ty
    | _ => none

end Reference

end Erasure
