/-
Listings of symbols and layouts.
-/
import Erasure.Listing.Datum
import Erasure.Symbol.Layout

namespace Erasure

open Datum

/-- A code that is no array. -/
def ArgCode.simpleListing : ArgCode → Datum
  | boolean => string "b"
  | float => string "f"
  | double => string "d"
  | int bits => record [("int", number bits)]
  | reference name => record [("ref", string name)]
  | array _ => absent

/-- An argument code; nested arrays are counted. -/
def ArgCode.listing (code : ArgCode) : Datum :=
  match code.peel with
  | (0, c) => c.simpleListing
  | (levels, c) => record [("array", number levels), ("of", c.simpleListing)]

/-- The word for the form of a symbol, and its parts. -/
def Symbol.parts : Symbol → String × List (String × Datum)
  | method container name args =>
    ("Method", [("container", string container), ("name", string name),
      ("args", each ArgCode.listing args)])
  | constructor container args =>
    ("Constructor", [("container", string container), ("args", each ArgCode.listing args)])
  | staticField classType field =>
    ("StaticField", [("class_type", string classType), ("field", string field)])
  | size c => ("Size", [("class", string c)])
  | dispatchVector c => ("DispatchVector", [("class", string c)])
  | interfaceTable i c => ("InterfaceTable", [("interface", string i), ("class", string c)])
  | classInit c => ("ClassInit", [("class", string c)])
  | interfacesInit c => ("InterfacesInit", [("class", string c)])
  | interfaceDescriptor i => ("InterfaceDescriptor", [("interface", string i)])

/-- A symbol. -/
def Symbol.listing (s : Symbol) : Datum := record (("k", string s.parts.1) :: s.parts.2)

/-- The layout of a class. -/
def ClassLayout.listing (l : ClassLayout) : Datum :=
  record [("type_name", string l.typeName), ("table_type_name", string l.tableTypeName),
    ("size", string l.size), ("table", string l.table), ("class_init", string l.classInit),
    ("interfaces_init", string l.interfacesInit), ("descriptor", optional string l.descriptor)]

end Erasure
