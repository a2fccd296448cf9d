/-
The pool of types: every type kind, substitution and candidate set has one number.

Types are numbered in order of first appearance. The primitive types and the null type come
first, so `Primitive.typeId` and `TypeId.null` hold in every pool; the empty substitution is
`SubstId.empty`. Two types are equal exactly when their numbers are.
-/
import Erasure.InternTable
import Erasure.Pool.Kind

namespace Erasure

/-- A type kind with its flags. -/
structure PooledType where
  kind : TypeKind
  flags : TypeFlags
  deriving Repr

/-- The tables of types, substitutions and candidate sets. -/
structure Pool where
  types : InternTable PooledType.kind
  substs : InternTable (id : Bindings → Bindings)
  lubs : InternTable (id : Candidates → Candidates)

/-- The number of a primitive type. -/
def Primitive.typeId : Primitive → TypeId
  | boolean => ⟨0⟩
  | byte => ⟨1⟩
  | short => ⟨2⟩
  | char => ⟨3⟩
  | int => ⟨4⟩
  | long => ⟨5⟩
  | float => ⟨6⟩
  | double => ⟨7⟩
  | void => ⟨8⟩

/-- The type of the null literal. -/
def TypeId.null : TypeId := ⟨9⟩

/-- Whether the number is one of a primitive type. -/
def TypeId.isPrimitive (ty : TypeId) : Bool := ty.index ≤ 8

/-- The substitution that binds nothing. -/
def SubstId.empty : SubstId := ⟨0⟩

namespace Pool

/-! ### Reading -/

/-- How many types the pool holds. -/
def size (p : Pool) : Nat := p.types.size

/-- The kind of a type. -/
def kind (p : Pool) (ty : TypeId) : TypeKind :=
  ((p.types.get? ty.index).map (·.kind)).getD .null

/-- The flags of a type. -/
def flags (p : Pool) (ty : TypeId) : TypeFlags :=
  ((p.types.get? ty.index).map (·.flags)).getD {}

/-- What a substitution binds. -/
def bindings (p : Pool) (s : SubstId) : Bindings := (p.substs.get? s.index).getD []

/-- The type that a substitution puts in place of a variable. -/
def replacement? (p : Pool) (s : SubstId) (v : TypeVarId) : Option TypeId :=
  (p.bindings s).lookup? v

/-- The types whose upper bound is meant. -/
def candidates (p : Pool) (l : LubId) : Candidates := (p.lubs.get? l.index).getD []

/-- The flags of a kind: those of its head, and what occurs in its parts. -/
def flagsOfKind (p : Pool) : TypeKind → TypeFlags
  | .prim _ => { isPrimitive := true }
  | .null | .raw _ => { isReference := true }
  | .array elem => ({ isReference := true, isArray := true } : TypeFlags).addPart (p.flags elem)
  | .var _ => { isReference := true, hasVar := true }
  | .inst _ s outer =>
    let args := (p.bindings s).map (·.2)
    (args ++ outer.toList).foldl (fun f part => f.addPart (p.flags part))
      { isReference := true, hasInst := true }
  | .lub l =>
    (p.candidates l).foldl (fun f part => f.addPart (p.flags part))
      { isReference := true, hasLub := true }

/-! ### Interning -/

/-- The number of a type kind. -/
def internKind (k : TypeKind) : StateM Pool TypeId := fun p =>
  let (i, types) := p.types.intern ⟨k, p.flagsOfKind k⟩
  (⟨i⟩, { p with types })

/-- The type of arrays of `elem`. -/
def array (elem : TypeId) : StateM Pool TypeId := internKind (.array elem)

/-- The raw type of a class. -/
def rawClass (c : ClassId) : StateM Pool TypeId := internKind (.raw c)

/-- A type variable as a type. -/
def typeVar (v : TypeVarId) : StateM Pool TypeId := internKind (.var v)

/-- An instantiation of a class. -/
def instantiation (base : ClassId) (s : SubstId) (outer : Option TypeId) : StateM Pool TypeId :=
  internKind (.inst base s outer)

/-- The substitution of a list of bindings; the first binding of a variable counts. -/
def internSubst (bs : List (TypeVarId × TypeId)) : StateM Pool SubstId := fun p =>
  let (i, substs) := p.substs.intern (Bindings.ofList bs)
  (⟨i⟩, { p with substs })

/-- The number of a candidate set. -/
def internCandidates (cs : Candidates) : StateM Pool LubId := fun p =>
  let (i, lubs) := p.lubs.intern cs
  (⟨i⟩, { p with lubs })

/-- The upper bound of a set of types, left to be computed. A single type is its own bound. -/
def lubOf (tys : List TypeId) : StateM Pool TypeId :=
  match Candidates.ofList tys with
  | [only] => pure only
  | cs => do internKind (.lub (← internCandidates cs))

/-- The pool that holds the primitive types, the null type and the empty substitution. -/
def initial : Pool :=
  let build : StateM Pool Unit := do
    for p in Primitive.all do
      discard <| internKind (.prim p)
    discard <| internKind .null
    discard <| internSubst []
  (build ⟨.empty, .empty, .empty⟩).2

end Pool

end Erasure
