/-
Declared classes, interfaces and type variables.
-/
import Erasure.Handle

namespace Erasure

/-- Properties of a class. An inner class carries an enclosing instance, a static one does not. -/
structure ClassFlags where
  isInterface : Bool := false
  isAbstract : Bool := false
  isFinal : Bool := false
  isStatic : Bool := false
  isInner : Bool := false
  deriving DecidableEq, Repr, Inhabited

/-- A declared class or interface. -/
structure ClassDef where
  /-- The qualified name, with those of the enclosing classes. -/
  name : Name
  flags : ClassFlags := {}
  /-- The type parameters, in order of declaration. -/
  typeParams : List TypeVarId := []
  /-- The type of the enclosing instance of an inner class. -/
  outer : Option TypeId := none
  /-- The superclass; the root class and interfaces have none. -/
  superclass : Option TypeId := none
  interfaces : List TypeId := []
  /-- The members declared by the class itself, in order of declaration. -/
  members : List MemberId := []
  deriving DecidableEq, Repr, Inhabited

/-- What declares a type variable. -/
inductive TypeVarOwner where
  | classDef (c : ClassId)
  | member (m : MemberId)
  /-- A method or constructor that is still to be declared. -/
  | pending
  deriving DecidableEq, Repr, Inhabited

/-- A declared type variable with its upper bound. -/
structure TypeVarDef where
  name : Name
  bound : TypeId
  owner : TypeVarOwner
  deriving DecidableEq, Repr, Inhabited

end Erasure
