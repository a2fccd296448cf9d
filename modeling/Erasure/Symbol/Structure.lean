/-
The structure of symbols, printed part by part.

Where `Symbol.describe` reads like a declaration, `Symbol.showStructure` names the form of the
symbol and each of its parts, with texts quoted.
-/
import Erasure.Symbol.Basic
import Erasure.Text.Quoted

namespace Erasure

/-- The structure of an argument code. -/
def ArgCode.showStructure : ArgCode → String
  | boolean => "Boolean"
  | float => "Float"
  | double => "Double"
  | int bits => "Int(" ++ toString bits ++ ")"
  | array elem => "Array(" ++ elem.showStructure ++ ")"
  | reference name => "Reference(" ++ Text.quoted name ++ ")"

namespace Symbol

/-- A form with its parts, each after its label. -/
def showParts (form : String) (parts : List (String × String)) : String :=
  form ++ " \x7b " ++ ", ".intercalate (parts.map fun (label, part) => label ++ ": " ++ part)
    ++ " \x7d"

/-- A list of argument codes, structure by structure. -/
def showArgs (args : List ArgCode) : String :=
  "[" ++ ", ".intercalate (args.map ArgCode.showStructure) ++ "]"

/-- The structure of a symbol. -/
def showStructure : Symbol → String
  | method container name args =>
    showParts "Method"
      [("container", Text.quoted container), ("name", Text.quoted name), ("args", showArgs args)]
  | constructor container args =>
    showParts "Constructor" [("container", Text.quoted container), ("args", showArgs args)]
  | staticField classType field =>
    showParts "StaticField"
      [("class_type", Text.quoted classType), ("field", Text.quoted field)]
  | size className => showParts "Size" [("class", Text.quoted className)]
  | dispatchVector className => showParts "DispatchVector" [("class", Text.quoted className)]
  | interfaceTable interface className =>
    showParts "InterfaceTable"
      [("interface", Text.quoted interface), ("class", Text.quoted className)]
  | classInit className => showParts "ClassInit" [("class", Text.quoted className)]
  | interfacesInit className => showParts "InterfacesInit" [("class", Text.quoted className)]
  | interfaceDescriptor interface =>
    showParts "InterfaceDescriptor" [("interface", Text.quoted interface)]

end Symbol

end Erasure
