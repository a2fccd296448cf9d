/-
Compiling a unit to the symbols it defines and refers to.

A unit is desugared, checked if the options say so, made canonical and mangled. Canonical forms
and layouts are remembered from one unit to the next; what was done before a failure stays done.
-/
import Erasure.Compile.Options
import Erasure.Compile.Plan
import Erasure.Compile.References
import Erasure.Compile.SymbolSet
import Erasure.Tree.Validation
import Erasure.Symbol.Layout

namespace Erasure

/-- Why a unit could not be compiled. -/
inductive CompileError where
  | tree (e : TreeError)
  | canon (e : CanonError)
  | mangle (e : MangleError)
  deriving DecidableEq, Repr

/-- The text of the error. -/
def CompileError.message : CompileError → String
  | tree e => "lowering failed: " ++ e.message
  | canon e => "canonicalization failed: " ++ e.message
  | mangle e => "mangling failed: " ++ e.message

/-- The cause of the error in one word, behind those of the stages it came through. -/
def CompileError.code : CompileError → String
  | tree e => "Compile." ++ e.code
  | canon e => "Compile." ++ e.code
  | mangle e => "Compile." ++ e.code

/-- The names that a unit brings to linking. -/
structure UnitSymbols where
  /-- The names of instance types and table types. -/
  types : SymbolSet := []
  defined : SymbolSet := []
  referenced : SymbolSet := []
  deriving DecidableEq, Repr

/-- The symbols that have to be defined elsewhere. -/
def UnitSymbols.external (s : UnitSymbols) : SymbolSet :=
  s.referenced.filter fun symbol => symbol ∉ s.defined

/-- A compiler with what it remembers from one unit to the next. -/
structure Compiler where
  options : Options := {}
  memo : CanonicalMemo := {}
  layouts : LayoutCache := {}

/-- The state of a compilation. -/
structure Compilation where
  compiler : Compiler
  types : TypeSystem
  compiled : CompilationUnit

/-- Compiling, which can fail. -/
abbrev CompileM := ExceptT CompileError (StateM Compilation)

namespace Compiler

/-! ### Stages as parts of a compilation -/

/-- Canonicalization as part of a compilation. -/
def canonical {ε α : Type} (wrap : ε → CompileError) (act : ExceptT ε CanonicalM α) :
    CompileM α := ExceptT.mk fun s =>
  let (result, c) := act.run ⟨s.types, s.compiler.memo⟩
  (result.mapError wrap,
    { s with types := c.types, compiler := { s.compiler with memo := c.memo } })

/-- A request to the layout cache as part of a compilation. -/
def cached {α : Type} (act : TypeSystem → ExceptT MangleError (StateM LayoutCache) α) :
    CompileM α := ExceptT.mk fun s =>
  let (result, cache) := (act s.types).run s.compiler.layouts
  (result.mapError .mangle, { s with compiler := { s.compiler with layouts := cache } })

/-- Mangling as part of a compilation. -/
def mangled (symbol : TypeSystem → Except MangleError Symbol) : CompileM String := do
  match symbol (← get).types with
  | .ok s => return s.encode
  | .error e => throw (.mangle e)

/-- Desugaring as part of a compilation. -/
def desugared : CompileM Unit := ExceptT.mk fun s =>
  let (result, types, compiled) := StringForm.desugar s.types s.compiled
  ((result.map fun _ => ()).mapError .tree, { s with types, compiled })

/-! ### Symbols -/

/-- The symbols that a class defines, and the names of its types. -/
def classSymbols (symbols : UnitSymbols) (plan : ClassPlan) : CompileM UnitSymbols := do
  let layout ← cached fun ts => LayoutCache.layout ts plan.type
  let tables ←
    if plan.isInterface then pure []
    else plan.interfaces.mapM fun iface =>
      cached fun ts => LayoutCache.interfaceTable ts iface plan.type
  let procedures ← plan.procedures.mapM fun m => mangled (·.procedureSymbol m)
  let staticFields ← plan.staticFields.mapM fun m => mangled (·.staticFieldSymbol m)
  let ofLayout := [layout.size, layout.table, layout.classInit, layout.interfacesInit]
    ++ layout.descriptor.toList
  return { symbols with
    types := symbols.types.addAll [layout.typeName, layout.tableTypeName]
    defined := symbols.defined.addAll (ofLayout ++ tables ++ procedures ++ staticFields) }

/-- The symbols that an allocation refers to: the size and the method table. -/
def allocationSymbols (ty : TypeId) : CompileM (List String) := do
  let layout ← cached fun ts => LayoutCache.layout ts ty
  return [layout.size, layout.table]

/-! ### Units -/

/-- Checks the unit, if the options say so. -/
def validated : CompileM Unit := do
  let s ← get
  if s.compiler.options.validate then
    discard <| canonical .tree (Validation.validate s.compiled)

/-- The symbols of the unit being compiled. -/
def unitSymbols : CompileM UnitSymbols := do
  desugared
  validated
  let u := (← get).compiled
  let plans ← canonical .canon (u.classes.mapM ClassPlan.ofDecl)
  let references := Reference.ofUnit (← get).types u
  let procedures ← canonical .canon
    ((Reference.procedures references).mapM Canonicalizer.canonicalizeMember)
  let staticFields ← canonical .canon
    ((Reference.staticFields references).mapM Canonicalizer.canonicalizeMember)
  let allocations ← canonical .canon
    ((Reference.allocations references).mapM fun ty => liftM (Canonicalizer.canonicalize ty))
  let symbols ← plans.foldlM classSymbols {}
  let called ← procedures.mapM fun m => mangled (·.procedureSymbol m)
  let accessed ← staticFields.mapM fun m => mangled (·.staticFieldSymbol m)
  let allocated ← allocations.mapM allocationSymbols
  return { symbols with
    referenced := symbols.referenced.addAll (called ++ accessed ++ allocated.flatten) }

/-- Compiles a unit. The type system, the unit and the compiler come back also after a failure. -/
def compile (c : Compiler) (types : TypeSystem) (u : CompilationUnit) :
    Except CompileError UnitSymbols × Compilation :=
  unitSymbols.run ⟨c, types, u⟩

end Compiler

end Erasure
