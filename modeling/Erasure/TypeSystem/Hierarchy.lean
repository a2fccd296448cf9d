/-
The class hierarchy: bounds, direct supertypes and the classes above a class.

* `boundErasure` follows the bounds of type variables to a type that is none.
* `supertypes` are the direct supertypes of a type, those of an instantiation substituted.
* `classClosure` is a class with all classes above it, nearest first.
-/
import Erasure.TypeSystem.Basic

namespace Erasure.TypeSystem

/-! ### Bounds -/

/-- The first type that is no variable among a type and at most `steps` bounds after it. -/
def followBounds (ts : TypeSystem) : (steps : Nat) → TypeId → Option TypeId
  | 0, _ => none
  | steps + 1, ty =>
    match ts.kind ty with
    | .var v => ts.followBounds steps (ts.typeVar v).bound
    | _ => some ty

/-- The type that the chain of bounds of a type variable ends in; any other type is its own. A
chain that never ends stands for the root class. -/
def boundErasure (ts : TypeSystem) (ty : TypeId) : TypeId :=
  (ts.followBounds (ts.typeVars.size + 1) ty).getD .object

/-! ### Supertypes -/

/-- The types that a class declares to extend: its superclass, then its interfaces. An interface
without interfaces of its own extends the root class. -/
def declaredSupertypes (ts : TypeSystem) (c : ClassId) : List TypeId :=
  let d := ts.classDef c
  d.superclass.toList ++ d.interfaces ++
    if d.flags.isInterface && d.interfaces.isEmpty then [.object] else []

/-- The direct supertypes of a type. -/
def supertypes (ty : TypeId) : StateM TypeSystem (List TypeId) := do
  let ts ← get
  match ts.kind ty with
  | .prim _ | .null => return []
  | .array _ => return [.object]
  | .var v => return [(ts.typeVar v).bound]
  | .lub l => return ts.pool.candidates l
  | .raw c => return ts.declaredSupertypes c
  | .inst base _ _ => do
    let s ← Pool.fullSubst ty
    (ts.declaredSupertypes base).mapM fun sup => liftM (Pool.substitute s sup)

/-- The classes of the types that a class declares to extend. -/
def superclasses (ts : TypeSystem) (c : ClassId) : List ClassId :=
  (ts.declaredSupertypes c).filterMap ts.classOf?

/-! ### Closure -/

/-- Appends those of `xs` that `seen` does not hold yet, each once. -/
def appendNew {α : Type} [DecidableEq α] (seen xs : List α) : List α :=
  xs.foldl (fun seen x => if x ∈ seen then seen else seen ++ [x]) seen

/-- Adds to `seen` the classes at most `levels` above those of `level`, a level at a time. -/
def closureWithin (ts : TypeSystem) : (levels : Nat) → (seen level : List ClassId) → List ClassId
  | 0, seen, _ => seen
  | levels + 1, seen, level =>
    let seen' := appendNew seen (level.flatMap ts.superclasses)
    match seen'.drop seen.length with
    | [] => seen
    | next => ts.closureWithin levels seen' next

/-- A class and every class or interface above it, in the order of their distance, superclasses
before interfaces. -/
def classClosure (ts : TypeSystem) (c : ClassId) : List ClassId :=
  ts.closureWithin ts.classes.size [c] [c]

/-- The classes that the erasure of a reference type is a subtype of. -/
def erasedClosure (ts : TypeSystem) (ty : TypeId) : List ClassId :=
  match ts.classOf? (ts.boundErasure ty) with
  | some c => ts.classClosure c
  | none => [.object]

end Erasure.TypeSystem
