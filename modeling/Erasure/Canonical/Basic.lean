/-
Canonical types: the representation a type has at run time.

`canonicalize` erases type arguments and type variables and computes upper bounds, so that only
primitive types, the null type, arrays and raw classes remain. Results are remembered in a
`CanonicalMemo`; the declarations themselves are never changed. The enclosing instance of an inner
class is made canonical with the class.
-/
import Erasure.Memo
import Erasure.TypeSystem.Join

namespace Erasure

/-- Remembered canonical forms. -/
structure CanonicalMemo where
  types : Memo TypeId TypeId := ∅
  members : Memo MemberId MemberId := ∅
  /-- The canonical type of the enclosing instance of a class, if it has one. -/
  outers : Memo ClassId (Option TypeId) := ∅
  /-- The substitution that erases the type parameters in scope of a class, if it has some. -/
  classSubsts : Memo ClassId (Option SubstId) := ∅
  /-- The substitution that erases the own type parameters of a member, if it has some. -/
  memberSubsts : Memo MemberId (Option SubstId) := ∅

/-- A type system with the canonical forms computed so far. -/
structure Canonicalizer where
  types : TypeSystem
  memo : CanonicalMemo

/-- Work on a type system, with canonical forms at hand. -/
abbrev CanonicalM := StateM Canonicalizer

/-- Work on the type system leaves the remembered forms alone. -/
instance : MonadLift (StateM TypeSystem) CanonicalM where
  monadLift act := fun s =>
    let (a, types) := act s.types
    (a, { s with types })

namespace Canonicalizer

/-! ### Remembering -/

/-- Changes the remembered forms. -/
def modifyMemo (f : CanonicalMemo → CanonicalMemo) : CanonicalM Unit :=
  modify fun s => { s with memo := f s.memo }

/-- Remembers the canonical form of a type, which is its own canonical form. -/
def rememberType (ty canonical : TypeId) : CanonicalM Unit :=
  modifyMemo fun m => { m with types := (m.types.insert ty canonical).insert canonical canonical }

/-! ### Types -/

/-- The canonical enclosing instance of a class, where `canonical` makes types canonical. -/
def outerWith (canonical : TypeId → CanonicalM TypeId) (c : ClassId) :
    CanonicalM (Option TypeId) := do
  let s ← get
  match s.memo.outers.find? c with
  | some outer => return outer
  | none => do
    let outer ← (s.types.classDef c).outer.mapM canonical
    modifyMemo fun m => { m with outers := m.outers.insert c outer }
    return outer

/-- One step of erasure, where `canonical` makes the parts of the type canonical. -/
def eraseWith (canonical : TypeId → CanonicalM TypeId) (ty : TypeId) : CanonicalM TypeId := do
  let bounded := (← get).types.boundErasure ty
  let resolved ← liftM (TypeSystem.resolveLub bounded)
  let ts := (← get).types
  let erased := ts.boundErasure resolved
  match ts.kind erased with
  | .prim _ | .null => return erased
  | .inst base _ _ => do
    discard <| outerWith canonical base
    canonical (← liftM (Pool.rawClass base : StateM Pool TypeId))
  | .array elem => do
    let elem ← canonical elem
    liftM (Pool.array elem : StateM Pool TypeId)
  | .raw c => do
    discard <| outerWith canonical c
    return erased
  | .var _ | .lub _ => return .object

/-- The canonical form of a type, found in at most `depth` steps from a type to a part of it, of
its bound, or of its enclosing instance. -/
def canonicalizeWithin : (depth : Nat) → TypeId → CanonicalM TypeId
  | 0, _ => pure .object
  | depth + 1, ty => do
    match (← get).memo.types.find? ty with
    | some canonical => return canonical
    | none => do
      let canonical ← eraseWith (canonicalizeWithin depth) ty
      rememberType ty canonical
      return canonical

/-- A bound on the steps of erasure: between two bounds or enclosing instances the parts get
smaller, and no variable or class is met twice. -/
def erasureDepth (ts : TypeSystem) : Nat :=
  2 * (ts.classes.size + 1) * (ts.typeVars.size + 1) * (ts.pool.size + 1)

/-- The representation of a type at run time. -/
def canonicalize (ty : TypeId) : CanonicalM TypeId := do
  canonicalizeWithin (erasureDepth (← get).types) ty

/-- The canonical type of the enclosing instance of a class. -/
def canonicalOuter (c : ClassId) : CanonicalM (Option TypeId) := outerWith canonicalize c

/-! ### Erasing substitutions -/

/-- The substitution that puts the canonical form of every variable in its place. -/
def erasingSubst (vs : List TypeVarId) : CanonicalM SubstId := do
  let bs ← vs.mapM fun v => do
    let ty ← liftM (Pool.typeVar v : StateM Pool TypeId)
    return (v, ← canonicalize ty)
  liftM (Pool.internSubst bs : StateM Pool SubstId)

/-- The substitution that erases the type parameters in scope of a class; none if the class is
not generic. -/
def classErasure (c : ClassId) : CanonicalM (Option SubstId) := do
  let s ← get
  match s.memo.classSubsts.find? c with
  | some subst => return subst
  | none => do
    let subst ←
      if s.types.isGeneric c then some <$> erasingSubst (s.types.typeParamsInScope c)
      else pure none
    modifyMemo fun m => { m with classSubsts := m.classSubsts.insert c subst }
    return subst

/-- The substitution that erases the type parameters of a generic method or constructor; none if
it has no type parameters. -/
def memberErasure (m : MemberId) : CanonicalM (Option SubstId) := do
  let s ← get
  match s.memo.memberSubsts.find? m with
  | some subst => return subst
  | none => do
    let params := (s.types.member m).kind.typeParams
    let subst ← if params.isEmpty then pure none else some <$> erasingSubst params
    modifyMemo fun memo => { memo with memberSubsts := memo.memberSubsts.insert m subst }
    return subst

end Canonicalizer

end Erasure
