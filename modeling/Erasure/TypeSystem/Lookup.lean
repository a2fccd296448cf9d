/-
Lookup of fields, methods, constructors and classes.

A lookup walks the types above a container, nearest first (`lookupChain`), and sees every member
as the type that declares it does. Methods are chosen by applicability (`isApplicable`), then by
the most specific formals (`mostSpecific`). A failed lookup may have interned names and types, so
the type system is changed also when the answer is an error.
-/
import Erasure.TypeSystem.Display
import Erasure.TypeSystem.Image
import Erasure.TypeSystem.Join

namespace Erasure

/-- Why a lookup failed. -/
inductive LookupError where
  | noField (container name : String)
  | noMethod (container name args : String)
  | noConstructor (container args : String)
  | ambiguous (container name args : String) (candidates : Nat)
  | notAReference (type : String)
  | noClass (name : String)
  deriving DecidableEq, Repr

/-- The text of a lookup error. -/
def LookupError.message : LookupError → String
  | noField container name => "no field `" ++ name ++ "` in `" ++ container ++ "`"
  | noMethod container name args =>
    "no method `" ++ name ++ "(" ++ args ++ ")` in `" ++ container ++ "`"
  | noConstructor container args => "no constructor `" ++ container ++ "(" ++ args ++ ")`"
  | ambiguous container name args candidates =>
    "ambiguous call `" ++ name ++ "(" ++ args ++ ")` in `" ++ container ++ "`: "
      ++ toString candidates ++ " candidates"
  | notAReference type => "`" ++ type ++ "` has no members"
  | noClass name => "no class named `" ++ name ++ "`"

/-- The cause of a lookup error in one word. -/
def LookupError.code : LookupError → String
  | noField .. => "Lookup.NoField"
  | noMethod .. => "Lookup.NoMethod"
  | noConstructor .. => "Lookup.NoConstructor"
  | ambiguous .. => "Lookup.Ambiguous"
  | notAReference .. => "Lookup.NotAReference"
  | noClass .. => "Lookup.NoClass"

/-- Work on a type system that can fail; what was done before a failure stays done. -/
abbrev LookupM := ExceptT LookupError (StateM TypeSystem)

namespace TypeSystem

/-! ### The types above a container -/

/-- Adds to `seen` the types at most `levels` above those of `level`, a level at a time. -/
def chainWithin : (levels : Nat) → (seen level : List TypeId) → StateM TypeSystem (List TypeId)
  | 0, seen, _ => pure seen
  | levels + 1, seen, level => do
    let sups ← level.mapM supertypes
    let seen' := appendNew seen sups.flatten
    match seen'.drop seen.length with
    | [] => return seen
    | next => chainWithin levels seen' next

/-- A bound on the levels above a type: between two classes or variables the parts get smaller,
and no class or variable is met twice on the way up. -/
def chainLevels (ts : TypeSystem) : Nat :=
  (ts.classes.size + ts.typeVars.size + 2) * (ts.pool.size + 2)

/-- A container with all types above it, nearest first, each once. Only reference types have
members. -/
def lookupChain (container : TypeId) : LookupM (List TypeId) := do
  let ts ← get
  match ts.kind container with
  | .prim _ | .null => throw (.notAReference (ts.display container))
  | _ => do
    let start ← resolveLub container
    liftM (chainWithin (← get).chainLevels [start] [start])

/-! ### Choice between procedures -/

/-- Whether arguments of the given types convert to the formals of a procedure. A type variable
among the formals accepts what its bound does. -/
def isApplicable (ts : TypeSystem) (m : MemberId) (args : List TypeId) : Bool :=
  let formals := (ts.member m).kind.formals
  formals.length = args.length &&
    (formals.zip args).all fun (formal, arg) => ts.isAssignable arg (ts.boundErasure formal)

/-- Whether every formal of the first procedure converts to that of the second. -/
def isMoreSpecific (ts : TypeSystem) (a b : MemberId) : Bool :=
  ((ts.member a).kind.formals.zip (ts.member b).kind.formals).all fun (x, y) =>
    ts.isAssignable x y

/-- The only candidate that is at least as specific as every other, if there is exactly one. -/
def mostSpecific? (ts : TypeSystem) (candidates : List MemberId) : Option MemberId :=
  match candidates.filter fun a => candidates.all fun b => a = b || ts.isMoreSpecific a b with
  | [only] => some only
  | _ => none

/-- The error of a call that several candidates are applicable to, none of them most specific. -/
def ambiguity (ts : TypeSystem) (container : TypeId) (name : String) (args : List TypeId)
    (candidates : List MemberId) : LookupError :=
  .ambiguous (ts.display container) name (ts.displayList args) candidates.length

/-! ### Fields -/

/-- The first field with a name that a class declares itself. -/
def declaredField? (ts : TypeSystem) (c : ClassId) (name : Name) : Option MemberId :=
  (ts.classDef c).members.find? fun m =>
    match (ts.member m).kind with
    | .field n _ => n = name
    | _ => false

/-- The field `name` of a container or of a type above it, as the type that declares it sees
it. -/
def findField (container : TypeId) (name : String) : LookupM MemberId := do
  let n ← intern name
  let chain ← lookupChain container
  let ts ← get
  let found := chain.findSome? fun ty => do
    let c ← ts.classOf? ty
    let m ← ts.declaredField? c n
    return (m, ty)
  match found with
  | some (m, ty) => liftM (memberIn m ty)
  | none => throw (.noField (ts.display container) name)

/-! ### Methods and constructors -/

/-- The methods with a name that a class declares itself. -/
def declaredMethods (ts : TypeSystem) (c : ClassId) (name : Name) : List MemberId :=
  (ts.classDef c).members.filter fun m =>
    match (ts.member m).kind with
    | .method n .. => n = name
    | _ => false

/-- The constructors that a class declares. -/
def declaredConstructors (ts : TypeSystem) (c : ClassId) : List MemberId :=
  (ts.classDef c).members.filter fun m =>
    match (ts.member m).kind with
    | .constructor .. => true
    | _ => false

/-- Adds a declared method, as `ty` sees it, to the candidates if it is applicable and none of
them has the same formals: a method hides those above it that it overrides. -/
def addMethodCandidate (args : List TypeId) (ty : TypeId) (candidates : List MemberId)
    (decl : MemberId) : StateM TypeSystem (List MemberId) := do
  let image ← memberIn decl ty
  let ts ← get
  let formals := (ts.member image).kind.formals
  if ts.isApplicable image args
      && !candidates.any fun c => (ts.member c).kind.formals = formals then
    return candidates ++ [image]
  return candidates

/-- The methods `name` applicable to arguments, in the order of the chain. -/
def methodCandidates (chain : List TypeId) (name : Name) (args : List TypeId) :
    StateM TypeSystem (List MemberId) :=
  chain.foldlM (fun candidates ty => do
    let ts ← get
    let decls := ((ts.classOf? ty).map fun c => ts.declaredMethods c name).getD []
    decls.foldlM (addMethodCandidate args ty) candidates) []

/-- The most specific method `name` of a container that is applicable to arguments. -/
def findMethod (container : TypeId) (name : String) (args : List TypeId) : LookupM MemberId := do
  let n ← intern name
  let chain ← lookupChain container
  let candidates ← methodCandidates chain n args
  let ts ← get
  match ts.mostSpecific? candidates with
  | some m => return m
  | none =>
    throw <| if candidates.isEmpty
      then .noMethod (ts.display container) name (ts.displayList args)
      else ts.ambiguity container name args candidates

/-- The most specific constructor of a class that is applicable to arguments. Constructors are
not inherited. -/
def findConstructor (container : TypeId) (args : List TypeId) : LookupM MemberId := do
  let ts ← get
  match ts.classOf? container with
  | none => throw (.notAReference (ts.display container))
  | some c =>
    let images ← (ts.declaredConstructors c).mapM fun decl => liftM (memberIn decl container)
    let ts ← get
    let candidates := images.filter fun m => ts.isApplicable m args
    match ts.mostSpecific? candidates with
    | some m => return m
    | none =>
      throw <| if candidates.isEmpty
        then .noConstructor (ts.display container) (ts.displayList args)
        else ts.ambiguity container constructorName args candidates

/-! ### Classes and names -/

/-- The raw type of the class that a qualified name denotes. -/
def requireClass (name : String) : LookupM TypeId := do
  match (← get).classNamed? name with
  | some c => liftM (Pool.rawClass c)
  | none => throw (.noClass name)

/-- The name of a member. Constructors and initializers share one, interned when it is needed. -/
def memberName (m : MemberId) : StateM TypeSystem Name := do
  match ((← get).member m).kind.name? with
  | some n => return n
  | none => intern constructorName

end TypeSystem

end Erasure
