/-
Handles: the numbers by which entities refer to each other, and their printed form.

Each kind of entity has a type of handles of its own, so that a class is never taken for a type.
An absent entity is an `Option` of a handle. In 32 bits the greatest word stands for "absent" in
those kinds that can be absent; `HandleKind.describe` prints a word as a handle of a kind.
-/

namespace Erasure

/-- A type of the pool. -/
structure TypeId where
  index : Nat
  deriving DecidableEq, Repr, Inhabited

/-- A declared class or interface. -/
structure ClassId where
  index : Nat
  deriving DecidableEq, Repr, Inhabited

/-- A member instance: a declared member or an image of one. -/
structure MemberId where
  index : Nat
  deriving DecidableEq, Repr, Inhabited

/-- A declared type variable. -/
structure TypeVarId where
  index : Nat
  deriving DecidableEq, Repr, Inhabited

/-- A substitution of the pool. -/
structure SubstId where
  index : Nat
  deriving DecidableEq, Repr, Inhabited

/-- A set of join candidates of the pool. -/
structure LubId where
  index : Nat
  deriving DecidableEq, Repr, Inhabited

/-- An interned name. -/
structure Name where
  index : Nat
  deriving DecidableEq, Repr, Inhabited

/-- An expression node. -/
structure ExprId where
  index : Nat
  deriving DecidableEq, Repr, Inhabited

/-- A statement node. -/
structure StmtId where
  index : Nat
  deriving DecidableEq, Repr, Inhabited

/-- A local variable or formal parameter. -/
structure LocalId where
  index : Nat
  deriving DecidableEq, Repr, Inhabited

/-- The kinds of handles. -/
inductive HandleKind where
  | type
  | classDef
  | member
  | localDef
  | expr
  | stmt
  | name
  | typeVar
  | subst
  | lub
  deriving DecidableEq, Repr

namespace HandleKind

/-- The name under which handles of a kind are printed. -/
def label : HandleKind → String
  | type => "TypeId"
  | classDef => "ClassId"
  | member => "MemberId"
  | localDef => "LocalId"
  | expr => "ExprId"
  | stmt => "StmtId"
  | name => "Name"
  | typeVar => "TypeVarId"
  | subst => "SubstId"
  | lub => "LubId"

/-- How the absent entity of a kind is called, where there is one. -/
def absentLabel? : HandleKind → Option String
  | type | classDef | member | localDef => some "NONE"
  | expr | stmt => some "INVALID"
  | name | typeVar | subst | lub => none

/-- The word that stands for an absent entity. -/
def absentWord : UInt32 := 0xFFFFFFFF

/-- A word printed as a handle: its number, or the name of the absent entity. -/
def describe (k : HandleKind) (word : UInt32) : String :=
  match k.absentLabel? with
  | some absent =>
    if word = absentWord then k.label ++ "::" ++ absent
    else k.label ++ "(" ++ toString word.toNat ++ ")"
  | none => k.label ++ "(" ++ toString word.toNat ++ ")"

/-- Whether a word names an entity that is present. -/
def isPresent (k : HandleKind) (word : UInt32) : Bool :=
  k.absentLabel?.isNone || word ≠ absentWord

end HandleKind

/-- A contiguous run of list entries, by its first position and its length. -/
structure Run where
  start : Nat
  length : Nat
  deriving DecidableEq, Repr

namespace Run

/-- The position after the last entry. -/
def stop (r : Run) : Nat := r.start + r.length

/-- Whether the run has no entry. -/
def isEmpty (r : Run) : Bool := r.length = 0

/-- The run printed under a label, as the positions it starts and stops at. -/
def describe (r : Run) (label : String) : String :=
  label ++ "(" ++ toString r.start ++ ".." ++ toString r.stop ++ ")"

end Run

end Erasure
