/-
The layout symbols of classes, computed once for each class.

`ClassLayout` gathers the names that belong to one class. A `LayoutCache` remembers the layouts
and interface tables asked for so far; a request that fails is not remembered.
-/
import Erasure.Memo
import Erasure.Symbol.Mangling

namespace Erasure

/-- The names that belong to one class, one interface, or the class of all arrays. -/
structure ClassLayout where
  typeName : String
  tableTypeName : String
  size : String
  /-- The method table of a class; the table an interface keeps for itself. -/
  table : String
  classInit : String
  interfacesInit : String
  /-- The descriptor that interfaces have. -/
  descriptor : Option String
  deriving DecidableEq, Repr

/-- What a layout is remembered for: a class, or all arrays. -/
inductive LayoutKey where
  | classDef (c : ClassId)
  | arrays
  deriving DecidableEq, Repr

/-- Remembered layouts and interface tables. -/
structure LayoutCache where
  layouts : Memo LayoutKey ClassLayout := ∅
  interfaceTables : Memo (TypeId × TypeId) String := ∅

namespace LayoutCache

/-- The table of a class, or the one an interface keeps for itself with its descriptor. -/
def tableAndDescriptor (ts : TypeSystem) (ty : TypeId) :
    Except MangleError (Symbol × Option Symbol) := do
  if ts.isInterfaceType ty then
    let table ← ts.interfaceTableSymbol ty ty
    return (table, some (← ts.interfaceDescriptorSymbol ty))
  else
    return (← ts.dispatchVectorSymbol ty, none)

/-- The layout of a class, interface or array type. -/
def layoutOf (ts : TypeSystem) (ty : TypeId) : Except MangleError ClassLayout := do
  let (table, descriptor) ← tableAndDescriptor ts ty
  return {
    typeName := ← ts.layoutTypeName ty
    tableTypeName := ← ts.tableTypeName ty
    size := (← ts.sizeSymbol ty).encode
    table := table.encode
    classInit := (← ts.classInitSymbol ty).encode
    interfacesInit := (← ts.interfacesInitSymbol ty).encode
    descriptor := descriptor.map Symbol.encode }

/-- What the layout of a type is remembered for. -/
def keyOf (ts : TypeSystem) (ty : TypeId) : Except MangleError LayoutKey :=
  match ts.classOf? ty with
  | some c => .ok (.classDef c)
  | none => (fun _ => .arrays) <$> ts.linkName ty

/-- The layout of a type, computed at the first request. -/
def layout (ts : TypeSystem) (ty : TypeId) : ExceptT MangleError (StateM LayoutCache) ClassLayout :=
  do
    let key ← (keyOf ts ty : Except MangleError LayoutKey)
    match (← get).layouts.find? key with
    | some known => return known
    | none =>
      let new ← (layoutOf ts ty : Except MangleError ClassLayout)
      modify fun cache => { cache with layouts := cache.layouts.insert key new }
      return new

/-- The symbol of the table that a class keeps for an interface, computed at the first request. -/
def interfaceTable (ts : TypeSystem) (interface ty : TypeId) :
    ExceptT MangleError (StateM LayoutCache) String := do
  match (← get).interfaceTables.find? (interface, ty) with
  | some known => return known
  | none =>
    let new ← (ts.interfaceTableSymbol interface ty : Except MangleError Symbol)
    modify fun cache =>
      { cache with
        interfaceTables := cache.interfaceTables.insert (interface, ty) new.encode }
    return new.encode

end LayoutCache

end Erasure
