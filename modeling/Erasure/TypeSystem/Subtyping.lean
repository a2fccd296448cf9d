/-
Subtyping and assignment.

Subtyping is that of erased types: instantiations of one class relate as the raw class does. An
upper bound still to be computed is below a type when all of its candidates are, and above it when
one of them is.
-/
import Erasure.TypeSystem.Hierarchy

namespace Erasure.TypeSystem

/-- Subtyping, with at most `depth` steps from a type to a part or to a bound. -/
def isSubtypeWithin (ts : TypeSystem) : (depth : Nat) → TypeId → TypeId → Bool
  | 0, _, _ => false
  | depth + 1, sub, sup =>
    sub = sup ||
    match ts.kind sub, ts.kind sup with
    | .prim _, _ | _, .prim _ => false
    | .null, _ => true
    | _, .null => false
    | .lub l, _ => (ts.pool.candidates l).all fun c => ts.isSubtypeWithin depth c sup
    | _, .lub l => (ts.pool.candidates l).any fun c => ts.isSubtypeWithin depth sub c
    | .var v, _ => ts.isSubtypeWithin depth (ts.typeVar v).bound sup
    | _, .var _ => false
    | .array a, .array b =>
      if ts.isReference a && ts.isReference b then ts.isSubtypeWithin depth a b else a = b
    | .array _, k => k.class? = some .object
    | _, .array _ => false
    | _, .raw c | _, .inst c _ _ => c ∈ ts.erasedClosure sub

/-- A bound on the steps of a subtyping test: between two bounds of variables the parts get
smaller, and no variable is met twice. -/
def subtypingDepth (ts : TypeSystem) : Nat := (ts.typeVars.size + 2) * (ts.pool.size + 1)

/-- Whether `sub` is a subtype of `sup`. -/
def isSubtype (ts : TypeSystem) (sub sup : TypeId) : Bool :=
  ts.isSubtypeWithin ts.subtypingDepth sub sup

/-- Whether a value of type `source` may be stored where `target` is expected: a subtype, or a
primitive type that widens to it. -/
def isAssignable (ts : TypeSystem) (source target : TypeId) : Bool :=
  match ts.kind source, ts.kind target with
  | .prim a, .prim b => a.widensTo b
  | _, _ => ts.isSubtype source target

end Erasure.TypeSystem
