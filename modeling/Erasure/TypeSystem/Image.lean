/-
Images of members under substitution.

`memberIn` is a member as an instantiation sees it, and `instantiateMethod` is a generic method
with its type arguments. Both are member instances that keep a link to the declaration.
-/
import Erasure.TypeSystem.Basic

namespace Erasure.TypeSystem

/-- Substitutes in every type of a signature. A type parameter that is bound disappears from the
signature. -/
def substituteKind (s : SubstId) (kind : MemberKind) : StateM TypeSystem MemberKind := do
  if s = SubstId.empty then
    return kind
  let kind ← kind.mapTypesM fun ty => liftM (Pool.substitute s ty)
  let pool := (← get).pool
  return kind.filterTypeParams fun v => (pool.replacement? s v).isNone

/-- The image of a member under a substitution, seen in `container`. -/
def substituteMember (m : MemberId) (s : SubstId) (container : TypeId) :
    StateM TypeSystem MemberId := do
  let kind ← substituteKind s ((← get).member m).kind
  let member := (← get).member m
  if kind = member.kind && container = member.container then
    return m
  deriveMember m kind container

/-- A member as an instantiation sees it. A raw class sees its members as they are declared. -/
def memberIn (m : MemberId) (container : TypeId) : StateM TypeSystem MemberId := do
  match (← get).kind container with
  | .inst .. => do
    let s ← Pool.fullSubst container
    substituteMember m s container
  | _ => return m

/-- A generic method or constructor with one type argument for each of its own type
parameters. -/
def instantiateMethod (generic : MemberId) (typeArgs : List TypeId) :
    StateM TypeSystem MemberId := do
  let m := (← get).member generic
  let s ← Pool.internSubst (m.kind.typeParams.zip typeArgs)
  let kind ← substituteKind s m.kind
  internMember
    { m with kind := kind.withoutTypeParams, generic := some generic, origin := generic }

end Erasure.TypeSystem
