/-
The printed form of types and members.

A class prints its qualified name, an array its element type with brackets, an instantiation its
class with the arguments in order of declaration. Mangled symbols embed the printed form of erased
types, so that form is part of what linked code agrees on.
-/
import Erasure.TypeSystem.Basic

namespace Erasure.TypeSystem

/-- Texts separated by commas. -/
def commaSeparated (texts : List String) : String := ", ".intercalate texts

/-- The printed form of a type, at most `depth` levels deep. -/
def displayWithin (ts : TypeSystem) : (depth : Nat) → TypeId → String
  | 0, _ => ""
  | depth + 1, ty =>
    match ts.kind ty with
    | .prim p => p.keyword
    | .null => "null"
    | .array elem => ts.displayWithin depth elem ++ "[]"
    | .raw c => ts.className c
    | .var v => ts.text (ts.typeVar v).name
    | .inst base s _ =>
      let args := (ts.classDef base).typeParams.map fun param =>
        match ts.pool.replacement? s param with
        | some arg => ts.displayWithin depth arg
        | none => ts.text (ts.typeVar param).name
      ts.className base ++ "<" ++ commaSeparated args ++ ">"
    | .lub l =>
      "lub(" ++ commaSeparated ((ts.pool.candidates l).map (ts.displayWithin depth)) ++ ")"

/-- The printed form of a type. -/
def display (ts : TypeSystem) (ty : TypeId) : String := ts.displayWithin (ty.index + 1) ty

/-- The printed form of a type that may be missing. -/
def displayOption (ts : TypeSystem) : Option TypeId → String
  | some ty => ts.display ty
  | none => "<none>"

/-- The printed forms of types, separated by commas. -/
def displayList (ts : TypeSystem) (tys : List TypeId) : String :=
  commaSeparated (tys.map ts.display)

/-- The name under which constructors are printed. -/
def constructorName : String := "<init>"

/-- The name under which initializers are printed. -/
def initializerName : String := "<clinit>"

/-- The printed form of a member: its container and name, with the formals of a procedure. -/
def displayMember (ts : TypeSystem) (m : MemberId) : String :=
  let m := ts.member m
  let container := ts.display m.container
  match m.kind with
  | .method name formals _ _ =>
    container ++ "." ++ ts.text name ++ "(" ++ ts.displayList formals ++ ")"
  | .constructor formals _ =>
    container ++ "." ++ constructorName ++ "(" ++ ts.displayList formals ++ ")"
  | .field name _ => container ++ "." ++ ts.text name
  | .initializer => container ++ "." ++ initializerName

end Erasure.TypeSystem
