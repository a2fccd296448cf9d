/-
Member instances: methods, constructors, fields and initializers.

A declared member and the images it has in instantiations are instances alike. An instance is
known by its `MemberKey`; two instances with one key are one instance.
-/
import Erasure.Handle

namespace Erasure

/-- Properties of a member, the same for a declaration and its images. -/
structure MemberFlags where
  isStatic : Bool := false
  isPrivate : Bool := false
  isFinal : Bool := false
  isAbstract : Bool := false
  deriving DecidableEq, Repr, Inhabited

/-- The signature of a member. Methods and constructors can have type parameters of their own. -/
inductive MemberKind where
  | method (name : Name) (formals : List TypeId) (result : TypeId) (typeParams : List TypeVarId)
  | constructor (formals : List TypeId) (typeParams : List TypeVarId)
  | field (name : Name) (type : TypeId)
  | initializer
  deriving DecidableEq, Repr, Inhabited

namespace MemberKind

/-- The name of a method or field. -/
def name? : MemberKind → Option Name
  | method name .. | field name _ => some name
  | constructor .. | initializer => none

/-- The types of the formal parameters. -/
def formals : MemberKind → List TypeId
  | method _ formals _ _ | constructor formals _ => formals
  | field .. | initializer => []

/-- The type parameters of a generic method or constructor. -/
def typeParams : MemberKind → List TypeVarId
  | method _ _ _ params | constructor _ params => params
  | field .. | initializer => []

/-- Whether the member is a method or a constructor. -/
def isProcedure : MemberKind → Bool
  | method .. | constructor .. => true
  | field .. | initializer => false

/-- Passes every type of the signature through `f`: the formals in order, then the result. -/
def mapTypesM {m : Type → Type} [Monad m] (f : TypeId → m TypeId) : MemberKind → m MemberKind
  | method name formals result params => do
    let formals ← formals.mapM f
    return method name formals (← f result) params
  | constructor formals params => return constructor (← formals.mapM f) params
  | field name type => return field name (← f type)
  | initializer => pure initializer

/-- The signature with the type parameters that `keep` accepts. -/
def filterTypeParams (keep : TypeVarId → Bool) : MemberKind → MemberKind
  | method name formals result params => method name formals result (params.filter keep)
  | constructor formals params => constructor formals (params.filter keep)
  | field name type => field name type
  | initializer => initializer

/-- The signature without type parameters. -/
def withoutTypeParams (k : MemberKind) : MemberKind := k.filterTypeParams fun _ => false

end MemberKind

/-- What tells one member instance from another. -/
structure MemberKey where
  kind : MemberKind
  /-- The type that the member is seen in: a raw class for a declaration. -/
  container : TypeId
  flags : MemberFlags
  /-- The generic method that the instance was made from by supplying type arguments. -/
  generic : Option MemberId
  deriving DecidableEq, Repr

/-- A member instance with its links to other instances. -/
structure Member extends MemberKey where
  /-- The declared member that the instance stands for in the end. -/
  decl : MemberId
  /-- The instance that it was derived from; a declaration is its own origin. -/
  origin : MemberId
  deriving DecidableEq, Repr

instance : Inhabited Member :=
  ⟨{ kind := .initializer, container := default, flags := {}, generic := none
     decl := default, origin := default }⟩

end Erasure
