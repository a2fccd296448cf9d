/-
The command line: what each command prints, and its exit code.
-/
import Erasure.Compile.Compiler
import Erasure.Compile.CoreUnit
import Erasure.Symbol.Decoding
import Erasure.Symbol.Structure
import Erasure.TypeSystem.Prelude

namespace Erasure.CommandLine

/-- What a run of the program leaves behind. -/
structure Outcome where
  code : UInt32 := 0
  stdout : String := ""
  stderr : String := ""
  deriving DecidableEq, Repr

/-- Lines of text, each ended. -/
def lines (ls : List String) : String := String.join (ls.map (· ++ "\n"))

/-- How the program is used. -/
def usage : List String := [
  "Tern compiler",
  "",
  "Usage: ternc [options] <command> [args]",
  "",
  "Commands:",
  "  demangle <symbol>...   Decode mangled Tern symbol names",
  "  abi                    List the symbols of the runtime support library",
  "  help                   Show this message",
  "",
  "Options:",
  "  -v, --verbose          Show demangled forms and symbol structure",
  "  --log-tree             Hierarchical tracing output (with RUST_LOG set)",
  "  --no-validate          Skip post-desugaring validation"]

/-- The lines for one symbol: its readable form and, when asked for, its structure. A text that is
no symbol is repeated. -/
def demangleLines (verbose : Bool) (symbol : String) : List String :=
  match Symbol.decode? symbol with
  | none => [symbol]
  | some s => s.describe :: if verbose then ["  " ++ s.showStructure] else []

/-- The lines for the symbols of a unit. -/
def symbolLines (verbose : Bool) (symbols : UnitSymbols) : List String :=
  let defined := symbols.defined.map fun name =>
    "define  " ++ name ++ if verbose then "  " ++ (Symbol.demangle? name).getD "" else ""
  symbols.types.map ("type    " ++ ·) ++ defined
    ++ if verbose then symbols.external.map ("extern  " ++ ·) else []

/-- Lists the symbols of the runtime library. -/
def abi (options : Options) : Outcome :=
  let (unit, types) := CoreUnit.build .initial
  match (Compiler.compile { options } types unit).1 with
  | .ok symbols => { stdout := lines (symbolLines options.verbose symbols) }
  | .error e => { code := 1, stderr := lines ["error: " ++ e.message] }

/-- Runs the program on its arguments. Flags can stand anywhere among them. -/
def run (args : List String) : Outcome :=
  let options := Options.parse args
  match args.filter fun arg => !Options.isFlag arg with
  | [] | "help" :: _ | "--help" :: _ | "-h" :: _ => { stdout := lines usage }
  | ["demangle"] => { code := 1, stderr := lines ["Usage: ternc demangle <symbol>..."] }
  | "demangle" :: symbols =>
    { stdout := lines (symbols.flatMap (demangleLines options.verbose)) }
  | "abi" :: _ => abi options
  | command :: _ =>
    { code := 1
      stdout := lines usage
      stderr := lines ["error: unknown command '" ++ command ++ "'", ""] }

end Erasure.CommandLine
