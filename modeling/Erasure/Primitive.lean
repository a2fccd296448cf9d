/-
Primitive kinds and the widening conversions between them.
-/

namespace Erasure

/-- The primitive kinds, `void` included, in the order of their type numbers. -/
inductive Primitive where
  | boolean
  | byte
  | short
  | char
  | int
  | long
  | float
  | double
  | void
  deriving DecidableEq, Repr

namespace Primitive

/-- All primitive kinds, in order. -/
def all : List Primitive := [boolean, byte, short, char, int, long, float, double, void]

/-- The keyword that denotes the kind. -/
def keyword : Primitive → String
  | boolean => "boolean"
  | byte => "byte"
  | short => "short"
  | char => "char"
  | int => "int"
  | long => "long"
  | float => "float"
  | double => "double"
  | void => "void"

/-- The kind that a keyword denotes. -/
def ofKeyword? (word : String) : Option Primitive := all.find? (·.keyword = word)

/-- The width in bits of an integral kind. -/
def bitWidth? : Primitive → Option Nat
  | byte => some 8
  | short | char => some 16
  | int => some 32
  | long => some 64
  | boolean | float | double | void => none

/-- Whether the kind is integral. -/
def isIntegral (p : Primitive) : Bool := p.bitWidth?.isSome

/-- Whether the kind is a number, integral or not. -/
def isNumeric : Primitive → Bool
  | boolean | void => false
  | byte | short | char | int | long | float | double => true

/-- Whether a value of the first kind converts to the second without a cast. A `char` never
converts to a `short` nor the other way, though both have 16 bits. -/
def widensTo : Primitive → Primitive → Bool
  | boolean, boolean | void, void => true
  | byte, byte | byte, short | byte, int | byte, long | byte, float | byte, double => true
  | short, short | short, int | short, long | short, float | short, double => true
  | char, char | char, int | char, long | char, float | char, double => true
  | int, int | int, long | int, float | int, double => true
  | long, long | long, float | long, double => true
  | float, float | float, double => true
  | double, double => true
  | _, _ => false

theorem ofKeyword?_keyword (p : Primitive) : ofKeyword? p.keyword = some p := by
  cases p <;> decide

end Primitive

end Erasure
