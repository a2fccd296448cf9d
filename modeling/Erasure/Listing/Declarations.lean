/-
Listings of types, members, classes and type variables.

Types and members are shown in their printed form, with their numbers where they are the subject.
A type variable is shown by its name and number, since names of variables are not unique.
-/
import Erasure.Listing.Datum
import Erasure.TypeSystem.Display
import Erasure.TypeSystem.Hierarchy

namespace Erasure

open Datum

/-! ### Properties -/

/-- The properties of a class. -/
def ClassFlags.listing (f : ClassFlags) : Datum := labels [
  (f.isInterface, "INTERFACE"), (f.isAbstract, "ABSTRACT"), (f.isFinal, "FINAL"),
  (f.isStatic, "STATIC"), (f.isInner, "INNER")]

/-- The properties of a member. -/
def MemberFlags.listing (f : MemberFlags) : Datum := labels [
  (f.isStatic, "STATIC"), (f.isPrivate, "PRIVATE"), (f.isFinal, "FINAL"),
  (f.isAbstract, "ABSTRACT")]

/-- The flags of a type. -/
def TypeFlags.listing (f : TypeFlags) : Datum := labels [
  (f.hasVar, "HAS_TYPE_VAR"), (f.hasInst, "HAS_SUBST"), (f.hasLub, "HAS_LUB"),
  (f.isPrimitive, "IS_PRIMITIVE"), (f.isReference, "IS_REFERENCE"), (f.isArray, "IS_ARRAY")]

/-! ### Kinds of types -/

namespace Pool

/-- Bindings by the numbers of variables and types. -/
def bindingsListing (bs : Bindings) : Datum :=
  each (fun b => list [number b.1.index, number b.2.index]) bs

/-- One level of a type, its parts by their numbers. -/
def kindListing (p : Pool) : TypeKind → Datum
  | .prim k => record [("k", string "Prim"), ("prim", string k.keyword)]
  | .null => record [("k", string "Null")]
  | .array e => record [("k", string "Array"), ("elem", number e.index)]
  | .raw c => record [("k", string "Class"), ("class", number c.index)]
  | .var v => record [("k", string "TypeVar"), ("var", number v.index)]
  | .inst b s o =>
    record [("k", string "Subst"), ("base", number b.index),
      ("bindings", bindingsListing (p.bindings s)),
      ("outer", optional (fun t => number t.index) o)]
  | .lub l =>
    record [("k", string "Lub"), ("ids", each (fun t => number t.index) (p.candidates l))]

end Pool

namespace TypeSystem

/-! ### Names -/

/-- A type in its printed form. -/
def typeListing (ts : TypeSystem) (ty : TypeId) : Datum := string (ts.display ty)

/-- A member in its printed form. -/
def memberText (ts : TypeSystem) (m : MemberId) : Datum := string (ts.displayMember m)

/-- A type variable by its name and number. -/
def varListing (ts : TypeSystem) (v : TypeVarId) : Datum :=
  string (ts.text (ts.typeVar v).name ++ "#" ++ toString v.index)

/-- A substitution in the order of its variables. -/
def substListing (ts : TypeSystem) (s : SubstId) : Datum :=
  each (fun b => list [ts.varListing b.1, ts.typeListing b.2]) (ts.pool.bindings s)

/-! ### Declarations -/

/-- The word for the kind of a member, and the type of its result or value. -/
def kindWord : MemberKind → String × Option TypeId
  | .method _ _ result _ => ("method", some result)
  | .constructor .. => ("ctor", none)
  | .field _ type => ("field", some type)
  | .initializer => ("init", none)

/-- A member instance. -/
def memberListing (ts : TypeSystem) (m : MemberId) : Datum :=
  let d := ts.member m
  let (kind, type) := kindWord d.kind
  record [("id", number m.index), ("display", string (ts.displayMember m)), ("kind", string kind),
    ("type", optional ts.typeListing type),
    ("type_params", each ts.varListing d.kind.typeParams), ("flags", d.flags.listing),
    ("decl", number d.decl.index), ("origin", number d.origin.index),
    ("from", optional (fun g => number g.index) d.generic)]

/-- A class with what it inherits and declares. -/
def classListing (ts : TypeSystem) (c : ClassId) : Datum :=
  let d := ts.classDef c
  record [("name", string (ts.className c)), ("flags", d.flags.listing),
    ("type_params", each ts.varListing d.typeParams),
    ("outer", optional ts.typeListing d.outer), ("super", optional ts.typeListing d.superclass),
    ("interfaces", each ts.typeListing d.interfaces),
    ("members", each (fun m => number m.index) d.members),
    ("in_scope", each ts.varListing (ts.typeParamsInScope c)),
    ("generic", truth (ts.isGeneric c)),
    ("closure", each (fun d => string (ts.className d)) (ts.classClosure c))]

/-- What declares a type variable. -/
def ownerListing : TypeVarOwner → Datum
  | .classDef c => record [("class", number c.index)]
  | .member m => record [("member", number m.index)]
  | .pending => string "pending"

/-- A type variable with its bound. -/
def typeVarListing (ts : TypeSystem) (v : TypeVarId) : Datum :=
  let d := ts.typeVar v
  record [("name", string (ts.text d.name)), ("bound", ts.typeListing d.bound),
    ("owner", ownerListing d.owner)]

end TypeSystem

end Erasure
