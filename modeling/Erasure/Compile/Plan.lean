/-
What the class declarations of a unit define, in canonical form.
-/
import Erasure.Canonical.Reconciliation
import Erasure.Tree.CompilationUnit

namespace Erasure

/-- What one class declaration defines. -/
structure ClassPlan where
  /-- The canonical type of the class. -/
  type : TypeId
  isInterface : Bool
  /-- The raw types of the interfaces above the class. -/
  interfaces : List TypeId
  /-- The canonical members with a body. -/
  procedures : List MemberId
  staticFields : List MemberId
  deriving Repr

namespace ClassPlan

/-- Whether a declaration defines something: a procedure with a body, or a static field. -/
def isDefinition (ts : TypeSystem) (d : MemberDecl) : Bool :=
  match d.body with
  | .method _ body | .constructor _ body => body.isSome
  | .field _ => (ts.member d.member).flags.isStatic
  | .initializer _ => false

/-- Whether a member is a field. -/
def isField (ts : TypeSystem) (m : MemberId) : Bool :=
  match (ts.member m).kind with
  | .field .. => true
  | _ => false

/-- The interfaces above a class, nearest first. -/
def interfacesAbove (ts : TypeSystem) (c : ClassId) : List ClassId :=
  (ts.classClosure c).filter fun d => d ≠ c && ts.isInterface d

/-- The canonical forms of the members that a class declaration defines. -/
def definitions (d : ClassDecl) : ExceptT CanonError CanonicalM (List MemberId) := do
  let ts := (← get).types
  (d.members.filter (isDefinition ts)).mapM fun m => Canonicalizer.canonicalizeMember m.member

/-- What a class declaration defines. -/
def ofDecl (d : ClassDecl) : ExceptT CanonError CanonicalM ClassPlan := do
  let raw ← liftM (liftM (liftM (Pool.rawClass d.classId) : StateM TypeSystem TypeId) :
    CanonicalM TypeId)
  let type ← liftM (Canonicalizer.canonicalize raw)
  let ts := (← get).types
  let interfaces ← (interfacesAbove ts d.classId).mapM fun c =>
    (liftM (liftM (liftM (Pool.rawClass c) : StateM TypeSystem TypeId) : CanonicalM TypeId) :
      ExceptT CanonError CanonicalM TypeId)
  let members ← definitions d
  let ts := (← get).types
  return {
    type
    isInterface := ts.isInterface d.classId
    interfaces
    procedures := members.filter fun m => !isField ts m
    staticFields := members.filter (isField ts) }

end ClassPlan

end Erasure
