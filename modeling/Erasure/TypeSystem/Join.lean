/-
Least upper bounds.

`join` is the most specific erased type that all candidates convert to. Of several minimal common
supertypes a class wins over an interface, and the root class is there when nothing else is.
-/
import Erasure.TypeSystem.Subtyping

namespace Erasure.TypeSystem

/-- The class that the join of class types is: of the classes above all candidates those with
none of the others below them, of these the first that is no interface, or else the first. -/
def commonClass? (ts : TypeSystem) (candidates : List TypeId) : Option ClassId :=
  match candidates.map ts.erasedClosure with
  | [] => none
  | first :: rest =>
    let common := first.filter fun c => rest.all (c ∈ ·)
    let minimal := common.filter fun c =>
      !common.any fun d => d ≠ c && c ∈ ts.classClosure d
    (minimal.find? fun c => !ts.isInterface c).or minimal.head?

/-- The element types of arrays, unless one of the types is no array. -/
def arrayElements? (ts : TypeSystem) (tys : List TypeId) : Option (List TypeId) :=
  tys.mapM fun ty =>
    match ts.kind ty with
    | .array elem => some elem
    | _ => none

/-- The join of candidates whose array types are at most `depth` levels deep. -/
def joinWithin : (depth : Nat) → List TypeId → StateM TypeSystem TypeId
  | 0, _ => pure .object
  | depth + 1, candidates => do
    match candidates.filter (· ≠ .null) with
    | [] => return .null
    | candidates@(first :: _) =>
      let ts ← get
      if candidates.all (· = first) then
        return first
      if candidates.all ts.isPrimitive then
        return (candidates.find? fun target =>
          candidates.all fun c => ts.isAssignable c target).getD .object
      match ts.arrayElements? candidates with
      | some elems =>
        if elems.all ts.isReference then
          Pool.array (← joinWithin depth elems)
        else
          return .object
      | none =>
        match ts.commonClass? candidates with
        | some c => Pool.rawClass c
        | none => return .object

/-- The most specific erased type that every candidate converts to. Null candidates do not
count. -/
def join (candidates : List TypeId) : StateM TypeSystem TypeId := do
  joinWithin ((← get).pool.size + 1) candidates

/-- Computes an upper bound that is still to be computed; any other type stays as it is. -/
def resolveLub (ty : TypeId) : StateM TypeSystem TypeId := do
  let ts ← get
  match ts.kind ty with
  | .lub l => join (ts.pool.candidates l)
  | _ => return ty

end Erasure.TypeSystem
