/-
Options of the compiler.
-/

namespace Erasure

/-- What the compiler is told to do. -/
structure Options where
  /-- Show symbols together with their readable forms. -/
  verbose : Bool := false
  /-- Nest the log by the structure of the work. -/
  logTree : Bool := false
  /-- Check units after desugaring. -/
  validate : Bool := true
  deriving DecidableEq, Repr

namespace Options

/-- What an argument does to the options, if it is a flag. -/
def flag? : String → Option (Options → Options)
  | "-v" | "--verbose" => some fun o => { o with verbose := true }
  | "--log-tree" => some fun o => { o with logTree := true }
  | "--no-validate" => some fun o => { o with validate := false }
  | _ => none

/-- Whether an argument is a flag. -/
def isFlag (arg : String) : Bool := (flag? arg).isSome

/-- The options that arguments ask for; arguments that are no flags do not count. -/
def parse (args : List String) : Options :=
  (args.filterMap flag?).foldl (fun o set => set o) {}

end Options

end Erasure
