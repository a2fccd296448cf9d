/-
Type kinds, substitution bindings and type flags.

A `TypeKind` is one level of a type: its parts are handles of other types. `Bindings` are finite
maps from type variables to types, kept in the order of the variables, each variable once.
-/
import Erasure.Handle
import Erasure.Primitive

namespace Erasure

/-- One level of a type. Only `prim`, `null`, `array` and `raw` remain after erasure. -/
inductive TypeKind where
  | prim (p : Primitive)
  /-- The type of the null literal. -/
  | null
  | array (elem : TypeId)
  /-- A class or interface without type arguments: not generic, or used raw. -/
  | raw (c : ClassId)
  | var (v : TypeVarId)
  /-- An instantiation of a generic class, with the type of its enclosing instance. -/
  | inst (base : ClassId) (subst : SubstId) (outer : Option TypeId)
  /-- A least upper bound that has not been computed yet. -/
  | lub (candidates : LubId)
  deriving DecidableEq, Repr, Inhabited

namespace TypeKind

/-- Whether values of the type are references. -/
def isReference : TypeKind → Bool
  | prim _ => false
  | _ => true

/-- The class that a type is, or is an instantiation of. -/
def class? : TypeKind → Option ClassId
  | raw c | inst c _ _ => some c
  | prim _ | null | array _ | var _ | lub _ => none

end TypeKind

/-! ### Flags -/

/-- What is known of a type without looking into it again. -/
structure TypeFlags where
  /-- A type variable occurs in the type. -/
  hasVar : Bool := false
  /-- An instantiation occurs in the type. -/
  hasInst : Bool := false
  /-- An upper bound still to be computed occurs in the type. -/
  hasLub : Bool := false
  isPrimitive : Bool := false
  isReference : Bool := false
  isArray : Bool := false
  deriving DecidableEq, Repr, Inhabited

namespace TypeFlags

/-- Adds what a part of a type passes on to the whole: what occurs in the part. -/
def addPart (whole part : TypeFlags) : TypeFlags :=
  { whole with
    hasVar := whole.hasVar || part.hasVar
    hasInst := whole.hasInst || part.hasInst
    hasLub := whole.hasLub || part.hasLub }

/-- Whether the type is in erased form. -/
def isErased (f : TypeFlags) : Bool := !(f.hasVar || f.hasInst || f.hasLub)

end TypeFlags

/-! ### Bindings -/

/-- A finite map from type variables to types: in the order of the variables, each once. -/
abbrev Bindings := List (TypeVarId × TypeId)

namespace Bindings

/-- Binds a variable that is not bound yet; one that is bound keeps its type. -/
def bindNew (v : TypeVarId) (ty : TypeId) : Bindings → Bindings
  | [] => [(v, ty)]
  | (w, u) :: rest =>
    if v.index < w.index then (v, ty) :: (w, u) :: rest
    else if v = w then (w, u) :: rest
    else (w, u) :: bindNew v ty rest

/-- The map of a list of bindings, in which the first binding of a variable counts. -/
def ofList (bs : List (TypeVarId × TypeId)) : Bindings :=
  bs.foldl (fun acc b => bindNew b.1 b.2 acc) []

/-- The type that a variable is bound to. -/
def lookup? (bs : Bindings) (v : TypeVarId) : Option TypeId :=
  (List.find? (·.1 = v) bs).map (·.2)

end Bindings

/-! ### Candidate sets -/

/-- A set of types in increasing order. -/
abbrev Candidates := List TypeId

namespace Candidates

/-- Adds a type to a set. -/
def add (ty : TypeId) : Candidates → Candidates
  | [] => [ty]
  | u :: rest =>
    if ty.index < u.index then ty :: u :: rest
    else if ty = u then u :: rest
    else u :: add ty rest

/-- The set of the types of a list. -/
def ofList (tys : List TypeId) : Candidates := tys.foldl (fun acc ty => add ty acc) []

end Candidates

end Erasure
