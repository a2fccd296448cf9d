/-
Substitution on the types of a pool.

`Pool.substitute` replaces type variables at any depth. The parts of a type have smaller numbers
than the type, so the number of a type bounds how deep it goes. `Pool.fullSubst` collects what an
instantiation and its enclosing instances bind.
-/
import Erasure.Pool

namespace Erasure.Pool

/-- Substitution that looks at most `depth` levels into a type. -/
def substituteWithin : (depth : Nat) → SubstId → TypeId → StateM Pool TypeId
  | 0, _, ty => pure ty
  | depth + 1, s, ty => do
    let p ← get
    if s = SubstId.empty || (p.flags ty).isErased then
      return ty
    match p.kind ty with
    | .prim _ | .null | .raw _ => return ty
    | .var v => return (p.replacement? s v).getD ty
    | .array elem => array (← substituteWithin depth s elem)
    | .inst base inner outer =>
      let bs ← (p.bindings inner).mapM fun (v, arg) =>
        return (v, ← substituteWithin depth s arg)
      let inner ← internSubst bs
      let outer ← outer.mapM (substituteWithin depth s)
      instantiation base inner outer
    | .lub l => lubOf (← (p.candidates l).mapM (substituteWithin depth s))

/-- Replaces the type variables that `s` binds, at any depth. Raw classes stay as they are. -/
def substitute (s : SubstId) (ty : TypeId) : StateM Pool TypeId :=
  substituteWithin (ty.index + 1) s ty

/-- The bindings of an instantiation, then those of its enclosing instances, going at most
`depth` instances out. -/
def instanceBindingsWithin (p : Pool) : (depth : Nat) → TypeId → List (TypeVarId × TypeId)
  | 0, _ => []
  | depth + 1, ty =>
    match p.kind ty with
    | .inst _ s none => p.bindings s
    | .inst _ s (some outer) => p.bindings s ++ p.instanceBindingsWithin depth outer
    | _ => []

/-- The substitution that an instantiation applies to its members: its own bindings, and those of
its enclosing instances for the variables that it does not bind itself. -/
def fullSubst (ty : TypeId) : StateM Pool SubstId := do
  internSubst ((← get).instanceBindingsWithin (ty.index + 1) ty)

end Erasure.Pool
