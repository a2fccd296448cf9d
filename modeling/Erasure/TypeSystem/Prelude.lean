/-
The classes that every program builds on.

`core.Object` and `core.String` declare what the runtime library provides and what string
operations need. `TypeSystem.initial` is the type system that holds them and nothing else.
-/
import Erasure.TypeSystem.Basic

namespace Erasure.TypeSystem

/-- Declares a method without type parameters. -/
def declareMethod (c : ClassId) (name : String) (formals : List TypeId) (result : TypeId)
    (flags : MemberFlags) : StateM TypeSystem MemberId := do
  let name ← intern name
  declareMember c (.method name formals result []) flags

/-- Declares the members of `core.Object`. -/
def declareObjectMembers : StateM TypeSystem Unit := do
  discard <| declareMember .object (.constructor [] []) {}
  discard <| declareMethod .object "toString" [] .string {}
  discard <| declareMethod .object "equals" [.object] Primitive.boolean.typeId {}
  discard <| declareMethod .object "hashCode" [] Primitive.int.typeId {}

/-- The types that `core.String.valueOf` converts to text. -/
def printableTypes : List TypeId :=
  [Primitive.boolean, .char, .int, .long, .float, .double].map Primitive.typeId ++ [.object]

/-- Declares the members of `core.String`. -/
def declareStringMembers : StateM TypeSystem Unit := do
  discard <| declareMember .string (.constructor [.charArray] []) {}
  discard <| declareMethod .string "concat" [.string] .string { isFinal := true }
  discard <| declareMethod .string "length" [] Primitive.int.typeId { isFinal := true }
  discard <| declareMethod .string "toString" [] .string { isFinal := true }
  for ty in printableTypes do
    discard <| declareMethod .string "valueOf" [ty] .string { isStatic := true }

/-- Declares the two classes with their types, then their members. -/
def declarePrelude : StateM TypeSystem Unit := do
  discard <| Pool.rawClass (← declareClass "core.Object" {})
  discard <| Pool.rawClass (← declareClass "core.String" { isFinal := true })
  discard <| Pool.array Primitive.char.typeId
  declareObjectMembers
  declareStringMembers

/-- The type system that holds the prelude only. -/
def initial : TypeSystem := (declarePrelude bare).2

end Erasure.TypeSystem
