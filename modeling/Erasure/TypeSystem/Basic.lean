/-
The type system: the pool of types with all declarations.

Classes, members and type variables are numbered in order of declaration, and nothing is ever
removed. The root class `core.Object` and the class `core.String` come first in every type
system, so their numbers are constants.
-/
import Erasure.Names
import Erasure.Pool.Substitution
import Erasure.TypeSystem.Class
import Erasure.TypeSystem.Member

namespace Erasure

/-- The class `core.Object`. -/
def ClassId.object : ClassId := ⟨0⟩

/-- The class `core.String`. -/
def ClassId.string : ClassId := ⟨1⟩

/-- The raw type of `core.Object`. -/
def TypeId.object : TypeId := ⟨10⟩

/-- The raw type of `core.String`. -/
def TypeId.string : TypeId := ⟨11⟩

/-- The type of arrays of `char`. -/
def TypeId.charArray : TypeId := ⟨12⟩

/-- All declarations, and the names and types that they mention. -/
structure TypeSystem where
  names : Names
  pool : Pool
  classes : Array ClassDef
  members : InternTable Member.toMemberKey
  typeVars : Array TypeVarDef

/-- Work on the pool is work on the type system. -/
instance : MonadLift (StateM Pool) (StateM TypeSystem) where
  monadLift act := fun ts =>
    let (a, pool) := act ts.pool
    (a, { ts with pool })

namespace TypeSystem

/-- The type system without declarations. -/
def bare : TypeSystem := ⟨.initial, .initial, #[], .empty, #[]⟩

/-! ### Reading -/

/-- The text of a name. -/
def text (ts : TypeSystem) (n : Name) : String := ts.names.text n

/-- The kind of a type. -/
def kind (ts : TypeSystem) (ty : TypeId) : TypeKind := ts.pool.kind ty

/-- The flags of a type. -/
def flags (ts : TypeSystem) (ty : TypeId) : TypeFlags := ts.pool.flags ty

/-- The class that a type is, or is an instantiation of. -/
def classOf? (ts : TypeSystem) (ty : TypeId) : Option ClassId := (ts.kind ty).class?

/-- Whether values of a type are references. -/
def isReference (ts : TypeSystem) (ty : TypeId) : Bool := (ts.flags ty).isReference

/-- Whether a type is primitive. -/
def isPrimitive (ts : TypeSystem) (ty : TypeId) : Bool := (ts.flags ty).isPrimitive

/-- The definition of a class. -/
def classDef (ts : TypeSystem) (c : ClassId) : ClassDef := ts.classes.getD c.index default

/-- The qualified name of a class. -/
def className (ts : TypeSystem) (c : ClassId) : String := ts.text (ts.classDef c).name

/-- Whether a class is an interface. -/
def isInterface (ts : TypeSystem) (c : ClassId) : Bool := (ts.classDef c).flags.isInterface

/-- The definition of a type variable. -/
def typeVar (ts : TypeSystem) (v : TypeVarId) : TypeVarDef := ts.typeVars.getD v.index default

/-- A member instance. -/
def member (ts : TypeSystem) (m : MemberId) : Member := (ts.members.get? m.index).getD default

/-- The class that a qualified name denotes: the latest declared under it. -/
def classNamed? (ts : TypeSystem) (name : String) : Option ClassId := do
  let n ← ts.names.find name
  let i ← (List.range ts.classes.size).reverse.find? fun i => (ts.classDef ⟨i⟩).name = n
  return ⟨i⟩

/-! ### Names and types -/

/-- The name of a text. -/
def intern (text : String) : StateM TypeSystem Name := fun ts =>
  let (n, names) := ts.names.internText text
  (n, { ts with names })

/-- An instantiation of a class with one argument for each of its type parameters. -/
def instantiate (base : ClassId) (args : List TypeId) (outer : Option TypeId) :
    StateM TypeSystem TypeId := do
  let params := ((← get).classDef base).typeParams
  let s ← Pool.internSubst (params.zip args)
  Pool.instantiation base s outer

/-! ### Classes -/

/-- Replaces the definition of a class. -/
def modifyClass (c : ClassId) (f : ClassDef → ClassDef) : StateM TypeSystem Unit :=
  modify fun ts => { ts with classes := ts.classes.modify c.index f }

/-- Declares a class or interface. The first class is the root; a class extends the root until it
is told otherwise, an interface extends nothing. -/
def declareClass (name : String) (flags : ClassFlags) : StateM TypeSystem ClassId := do
  let name ← intern name
  let ts ← get
  let superclass :=
    if flags.isInterface || ts.classes.isEmpty then none else some TypeId.object
  set { ts with classes := ts.classes.push { name, flags, superclass } }
  return ⟨ts.classes.size⟩

/-- Makes `superclass` the superclass of a class. -/
def setSuperclass (c : ClassId) (superclass : TypeId) : StateM TypeSystem Unit :=
  modifyClass c fun d => { d with superclass := some superclass }

/-- Adds an interface to those that a class extends. -/
def addInterface (c : ClassId) (iface : TypeId) : StateM TypeSystem Unit :=
  modifyClass c fun d => { d with interfaces := d.interfaces ++ [iface] }

/-- Makes a class an inner class within instances of type `outer`; it is static no longer. -/
def setOuter (c : ClassId) (outer : TypeId) : StateM TypeSystem Unit :=
  modifyClass c fun d =>
    { d with outer := some outer, flags := { d.flags with isInner := true, isStatic := false } }

/-! ### Type variables -/

/-- Declares a type variable, bounded by the root class unless a bound is given. -/
def declareTypeVar (name : String) (bound : Option TypeId) (owner : TypeVarOwner) :
    StateM TypeSystem TypeVarId := do
  let name ← intern name
  let ts ← get
  set { ts with typeVars := ts.typeVars.push { name, bound := bound.getD .object, owner } }
  return ⟨ts.typeVars.size⟩

/-- Declares a type parameter of a class, after those it has. -/
def addTypeParam (c : ClassId) (name : String) (bound : Option TypeId) :
    StateM TypeSystem TypeVarId := do
  let v ← declareTypeVar name bound (.classDef c)
  modifyClass c fun d => { d with typeParams := d.typeParams ++ [v] }
  return v

/-- Declares a type parameter for a method or constructor to be declared next. -/
def addMethodTypeParam (name : String) (bound : Option TypeId) : StateM TypeSystem TypeVarId :=
  declareTypeVar name bound .pending

/-- Replaces the bound of a type variable, so that it can mention the variable itself. -/
def setBound (v : TypeVarId) (bound : TypeId) : StateM TypeSystem Unit :=
  modify fun ts => { ts with typeVars := ts.typeVars.modify v.index ({ · with bound }) }

/-- A class and the classes of its enclosing instances, innermost first, at most `depth` of
them. -/
def enclosingWithin (ts : TypeSystem) : (depth : Nat) → ClassId → List ClassId
  | 0, _ => []
  | depth + 1, c =>
    match (ts.classDef c).outer.bind ts.classOf? with
    | some outer => c :: ts.enclosingWithin depth outer
    | none => [c]

/-- A class and the classes of its enclosing instances, innermost first. -/
def enclosing (ts : TypeSystem) (c : ClassId) : List ClassId :=
  ts.enclosingWithin (ts.classes.size + 1) c

/-- The type parameters that members of a class can mention: its own, then those of its enclosing
instances, innermost first. -/
def typeParamsInScope (ts : TypeSystem) (c : ClassId) : List TypeVarId :=
  (ts.enclosing c).flatMap fun d => (ts.classDef d).typeParams

/-- Whether members of a class can mention type parameters of classes. -/
def isGeneric (ts : TypeSystem) (c : ClassId) : Bool :=
  (ts.enclosing c).any fun d => !(ts.classDef d).typeParams.isEmpty

/-! ### Members -/

/-- The number of a member instance, if there is one with that key. -/
def memberWithKey? (ts : TypeSystem) (key : MemberKey) : Option MemberId :=
  (ts.members.find? key).map (⟨·⟩)

/-- The number of a member instance. -/
def internMember (m : Member) : StateM TypeSystem MemberId := fun ts =>
  let (i, members) := ts.members.intern m
  (⟨i⟩, { ts with members })

/-- Makes a member the owner of type variables. -/
def adopt (m : MemberId) (vs : List TypeVarId) : StateM TypeSystem Unit :=
  modify fun ts =>
    { ts with
      typeVars := vs.foldl (fun defs v => defs.modify v.index ({ · with owner := .member m }))
        ts.typeVars }

/-- Declares a member of a class, with the raw class as its container. A signature that the class
declares already is the member it declares. -/
def declareMember (c : ClassId) (kind : MemberKind) (flags : MemberFlags) :
    StateM TypeSystem MemberId := do
  let container ← Pool.rawClass c
  let key : MemberKey := { kind, container, flags, generic := none }
  let ts ← get
  match ts.memberWithKey? key with
  | some m => return m
  | none =>
    let id : MemberId := ⟨ts.members.size⟩
    adopt id kind.typeParams
    let id ← internMember { key with decl := id, origin := id }
    modifyClass c fun d => { d with members := d.members ++ [id] }
    return id

/-- An instance derived from `origin`, with a signature and container of its own. Flags, the
declaration and the generic method it was made from are those of its origin. -/
def deriveMember (origin : MemberId) (kind : MemberKind) (container : TypeId) :
    StateM TypeSystem MemberId := do
  let m := (← get).member origin
  internMember { m with kind, container, origin }

/-- The generic method that an instance was made from, or the instance itself. -/
def genericForm (ts : TypeSystem) (m : MemberId) : MemberId := (ts.member m).generic.getD m

/-- The type parameters of the generic form of a member. -/
def ownTypeParams (ts : TypeSystem) (m : MemberId) : List TypeVarId :=
  (ts.member (ts.genericForm m)).kind.typeParams

end TypeSystem

end Erasure
