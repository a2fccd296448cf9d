/-
Symbols of members and classes.

Symbols exist for canonical members and types only: an instantiation, a type variable or an upper
bound still to be computed has none (`MangleError`). All arrays share one class.
-/
import Erasure.Symbol.Encoding
import Erasure.TypeSystem.Display

namespace Erasure

/-- Why a type or member has no symbol. -/
inductive MangleError where
  | unsupportedArgType (type : String)
  | notAClass (type : String)
  | notAnInterface (type : String)
  | notAProcedure (member : String)
  | notAStaticField (member : String)
  deriving DecidableEq, Repr

/-- The text of a mangling error. -/
def MangleError.message : MangleError → String
  | unsupportedArgType type => "type `" ++ type ++ "` has no argument code"
  | notAClass type => "`" ++ type ++ "` is not a class, interface or array type"
  | notAnInterface type => "`" ++ type ++ "` is not an interface"
  | notAProcedure member => "`" ++ member ++ "` is not a method or constructor"
  | notAStaticField member => "`" ++ member ++ "` is not a static field"

/-- The cause of a mangling error in one word. -/
def MangleError.code : MangleError → String
  | unsupportedArgType .. => "Mangle.UnsupportedArgType"
  | notAClass .. => "Mangle.NotAClass"
  | notAnInterface .. => "Mangle.NotAnInterface"
  | notAProcedure .. => "Mangle.NotAProcedure"
  | notAStaticField .. => "Mangle.NotAStaticField"

namespace TypeSystem

/-! ### Names of classes in symbols -/

/-- The name under which a class, interface or array type appears in symbols. -/
def linkName (ts : TypeSystem) (ty : TypeId) : Except MangleError String :=
  match ts.kind ty with
  | .raw c => .ok (ts.className c)
  | .array _ => .ok Symbol.arrayClass
  | _ => .error (.notAClass (ts.display ty))

/-- The name of an interface in symbols. -/
def interfaceLinkName (ts : TypeSystem) (ty : TypeId) : Except MangleError String :=
  match ts.kind ty with
  | .raw c =>
    if ts.isInterface c then .ok (ts.className c) else .error (.notAnInterface (ts.display ty))
  | _ => .error (.notAnInterface (ts.display ty))

/-- Whether a type is an interface or an instantiation of one. -/
def isInterfaceType (ts : TypeSystem) (ty : TypeId) : Bool :=
  (ts.classOf? ty).any ts.isInterface

/-- The name of the type that describes instances: `class.` or `interface.` and the class. -/
def layoutTypeName (ts : TypeSystem) (ty : TypeId) : Except MangleError String :=
  match ts.kind ty with
  | .raw c => .ok ((if ts.isInterface c then "interface." else "class.") ++ ts.className c)
  | .array _ => .ok Symbol.arrayClass
  | _ => .error (.notAClass (ts.display ty))

/-- The name of the type that describes the method table: `dv.` or `itable.` and the class. -/
def tableTypeName (ts : TypeSystem) (ty : TypeId) : Except MangleError String := do
  let name ← ts.linkName ty
  return (if ts.isInterfaceType ty then "itable." else "dv.") ++ name

/-! ### Procedures -/

/-- The argument code of a formal, whose type is at most `depth` arrays deep. -/
def argCodeWithin (ts : TypeSystem) : (depth : Nat) → TypeId → Except MangleError ArgCode
  | 0, ty => .error (.unsupportedArgType (ts.display ty))
  | depth + 1, ty =>
    match ts.kind ty with
    | .array elem => .array <$> ts.argCodeWithin depth elem
    | .raw c => .ok (.reference (ts.className c))
    | .prim .boolean => .ok .boolean
    | .prim .float => .ok .float
    | .prim .double => .ok .double
    | .prim p =>
      match p.bitWidth? with
      | some bits => .ok (.int bits)
      | none => .error (.unsupportedArgType (ts.display ty))
    | _ => .error (.unsupportedArgType (ts.display ty))

/-- The argument code of a formal. -/
def argCode (ts : TypeSystem) (ty : TypeId) : Except MangleError ArgCode :=
  ts.argCodeWithin (ty.index + 1) ty

/-- The symbol of a method or constructor. -/
def procedureSymbol (ts : TypeSystem) (m : MemberId) : Except MangleError Symbol := do
  let container ← ts.linkName (ts.member m).container
  match (ts.member m).kind with
  | .method name formals _ _ =>
    return .method container (ts.text name) (← formals.mapM ts.argCode)
  | .constructor formals _ => return .constructor container (← formals.mapM ts.argCode)
  | .field .. | .initializer => throw (.notAProcedure (ts.displayMember m))

/-- The symbol of the storage of a static field. -/
def staticFieldSymbol (ts : TypeSystem) (m : MemberId) : Except MangleError Symbol := do
  match (ts.member m).kind, (ts.member m).flags.isStatic with
  | .field name _, true =>
    return .staticField (← ts.layoutTypeName (ts.member m).container) (ts.text name)
  | _, _ => throw (.notAStaticField (ts.displayMember m))

/-! ### Class layout -/

/-- The symbol of the size of instances. -/
def sizeSymbol (ts : TypeSystem) (ty : TypeId) : Except MangleError Symbol :=
  .size <$> ts.linkName ty

/-- The symbol of the method table of a class. -/
def dispatchVectorSymbol (ts : TypeSystem) (ty : TypeId) : Except MangleError Symbol :=
  .dispatchVector <$> ts.linkName ty

/-- The symbol of the table that a class keeps for an interface. -/
def interfaceTableSymbol (ts : TypeSystem) (interface ty : TypeId) :
    Except MangleError Symbol := do
  let interface ← ts.interfaceLinkName interface
  return .interfaceTable interface (← ts.linkName ty)

/-- The symbol of the procedure that initializes a class. -/
def classInitSymbol (ts : TypeSystem) (ty : TypeId) : Except MangleError Symbol :=
  .classInit <$> ts.linkName ty

/-- The symbol of the procedure that fills the interface tables of a class. -/
def interfacesInitSymbol (ts : TypeSystem) (ty : TypeId) : Except MangleError Symbol :=
  .interfacesInit <$> ts.linkName ty

/-- The symbol of the descriptor of an interface. -/
def interfaceDescriptorSymbol (ts : TypeSystem) (interface : TypeId) :
    Except MangleError Symbol :=
  .interfaceDescriptor <$> ts.interfaceLinkName interface

end TypeSystem

end Erasure
