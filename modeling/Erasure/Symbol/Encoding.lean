/-
The mangled form of symbols.

Every name in a symbol follows its length in bytes, so that names joined together can be told
apart again; only the parts of a static field's symbol go without. `Symbol.encode` is the whole
table of forms.
-/
import Erasure.Symbol.Basic

namespace Erasure

/-- What every mangled symbol begins with. -/
def Symbol.start : String := "_tern_"

/-- The class name that stands for every array type. -/
def Symbol.arrayClass : String := "class.support.Array"

/-- A name after its length in bytes. -/
def Symbol.lengthPrefixed (name : String) : String := toString name.utf8ByteSize ++ name

/-- The mangled form of an argument code, with the mark that separates it from what precedes. -/
def ArgCode.encode : ArgCode → String
  | boolean => "_b"
  | float => "_f"
  | double => "_d"
  | int bits => "_i" ++ toString bits
  | array elem => "_a" ++ elem.encode
  | reference name => "_" ++ Symbol.lengthPrefixed name

namespace Symbol

/-- The mangled form of a list of argument codes. -/
def encodeArgs : List ArgCode → String
  | [] => "_void"
  | args => String.join (args.map ArgCode.encode)

/-- The mangled form of a symbol. -/
def encode : Symbol → String
  | method container name args =>
    start ++ lengthPrefixed container ++ "_" ++ lengthPrefixed name ++ encodeArgs args
  | constructor container args =>
    start ++ lengthPrefixed container ++ "__constructor_" ++ encodeArgs args
  | staticField classType field => start ++ "static_" ++ classType ++ "_" ++ field
  | size className => start ++ "size_" ++ lengthPrefixed className
  | dispatchVector className => start ++ "dv_" ++ lengthPrefixed className
  | interfaceTable interface className =>
    start ++ "it_" ++ lengthPrefixed interface ++ "_" ++ lengthPrefixed className
  | classInit className => start ++ "init_" ++ lengthPrefixed className
  | interfacesInit className => start ++ "it_init_" ++ lengthPrefixed className
  | interfaceDescriptor interface => start ++ "itype_" ++ lengthPrefixed interface

end Symbol

end Erasure
