/-
Link symbols: what a mangled name stands for.

A `Symbol` names a procedure, the storage of a static field or a piece of the layout of a class.
`Symbol.describe` is the form for readers, `Symbol.encode` (in `Erasure.Symbol.Encoding`) the form
that linked code uses.
-/

namespace Erasure

/-- The code of a formal parameter in the symbol of a procedure. -/
inductive ArgCode where
  | boolean
  | float
  | double
  /-- An integral type of a width in bits; `char` and `short` share 16. -/
  | int (bits : Nat)
  | array (elem : ArgCode)
  /-- A class or interface. -/
  | reference (name : String)
  deriving DecidableEq, Repr

/-- A link symbol. -/
inductive Symbol where
  | method (container name : String) (args : List ArgCode)
  | constructor (container : String) (args : List ArgCode)
  /-- The storage of a static field; the class comes with its `class.` or `interface.`. -/
  | staticField (classType field : String)
  | size (className : String)
  | dispatchVector (className : String)
  /-- The table that a class keeps for an interface. -/
  | interfaceTable (interface className : String)
  | classInit (className : String)
  | interfacesInit (className : String)
  | interfaceDescriptor (interface : String)
  deriving DecidableEq, Repr

namespace ArgCode

/-- The type that a code stands for, as it is printed. -/
def describe : ArgCode → String
  | boolean => "boolean"
  | float => "float"
  | double => "double"
  | int 8 => "byte"
  | int 16 => "short"
  | int 32 => "int"
  | int 64 => "long"
  | int bits => "i" ++ toString bits
  | array elem => elem.describe ++ "[]"
  | reference name => name

/-- How many array levels a code has, and the code below them. -/
def peel : ArgCode → Nat × ArgCode
  | array elem => (elem.peel.1 + 1, elem.peel.2)
  | code => (0, code)

end ArgCode

namespace Symbol

/-- The class name of a class type: what follows `class.` or `interface.`. -/
def classNameOf (classType : String) : String :=
  match classType.toList with
  | 'c' :: 'l' :: 'a' :: 's' :: 's' :: '.' :: name => String.ofList name
  | 'i' :: 'n' :: 't' :: 'e' :: 'r' :: 'f' :: 'a' :: 'c' :: 'e' :: '.' :: name =>
    String.ofList name
  | _ => classType

/-- A list of formals as it is printed. -/
def describeArgs (args : List ArgCode) : String :=
  "(" ++ ", ".intercalate (args.map ArgCode.describe) ++ ")"

/-- The form of a symbol for readers. -/
def describe : Symbol → String
  | method container name args => container ++ "." ++ name ++ describeArgs args
  | constructor container args => container ++ ".<init>" ++ describeArgs args
  | staticField classType field => "static " ++ classNameOf classType ++ "." ++ field
  | size className => "size of " ++ className
  | dispatchVector className => "dispatch vector of " ++ className
  | interfaceTable interface className =>
    "interface table of " ++ className ++ " for " ++ interface
  | classInit className => "class initializer of " ++ className
  | interfacesInit className => "interface tables initializer of " ++ className
  | interfaceDescriptor interface => "interface descriptor of " ++ interface

end Symbol

end Erasure
