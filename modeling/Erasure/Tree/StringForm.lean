/-
Desugaring of strings.

A literal becomes the construction of a string from its code units. An addition with a string
operand becomes a call of `concat` on the operands, each converted to a string: null is spelled
out, a primitive goes through `core.String.valueOf`, any other object through its own `toString`.
-/
import Erasure.Tree.Editor

namespace Erasure

/-- A form of expression that desugaring removes. -/
inductive StringForm where
  | literal (text : Name)
  | concatenation (left right : ExprId)
  deriving DecidableEq, Repr

/-- How many string forms a desugaring removed. -/
structure StringCounts where
  literals : Nat := 0
  concatenations : Nat := 0
  deriving DecidableEq, Repr

/-- Counts a string form. -/
def StringCounts.add (counts : StringCounts) : StringForm → StringCounts
  | .literal _ => { counts with literals := counts.literals + 1 }
  | .concatenation .. => { counts with concatenations := counts.concatenations + 1 }

namespace StringForm

/-- The string form that an expression has: a literal, or an addition with an operand whose
static type is the string class. -/
def ofExpr? (a : Arena) (e : ExprId) : Option StringForm :=
  match (a.expr e).kind with
  | .str text => some (.literal text)
  | .binary .add left right =>
    if (a.expr left).type = .string || (a.expr right).type = .string
    then some (.concatenation left right)
    else none
  | _ => none

/-- An expression converted to a string. -/
def promote (e : ExprId) : BuildM ExprId := do
  let b ← get
  let ty := b.typeOf e
  if ty = .string then
    return e
  match b.types.kind ty with
  | .null => Builder.newString "null"
  | .prim _ => Builder.staticCall .string "valueOf" [e]
  | _ => Builder.call (.expr e) ty "toString" []

/-- The expression that takes the place of a string form. -/
def replacement (form : StringForm) : BuildM ExprId := do
  match form with
  | .literal text => Builder.newString ((← get).types.text text)
  | .concatenation left right =>
    let left ← promote left
    let right ← promote right
    Builder.call (.expr left) .string "concat" [right]

/-- The editor that replaces every string form. -/
def editor : Editor StringCounts where
  record b e counts := ((ofExpr? b.arena e).map counts.add).getD counts
  replace e := do
    match ofExpr? (← get).arena e with
    | some form => some <$> replacement form
    | none => return none

/-- Desugars all strings of a unit. The type system and the unit come back also after a
failure. -/
def desugar (types : TypeSystem) (u : CompilationUnit) :
    Except TreeError StringCounts × TypeSystem × CompilationUnit :=
  let (result, s) := editor.editUnit {} types u
  (result.map fun _ => s.log, s.builder.types, { u with arena := s.builder.arena })

/-! ### Reading constructed strings -/

/-- The code unit that a character literal stands for. -/
def unitOf? (a : Arena) (e : ExprId) : Option UInt16 :=
  match (a.expr e).kind with
  | .char unit => some unit
  | _ => none

/-- The code units of a string that is constructed from an array of character literals. -/
def unitsOf? (a : Arena) (e : ExprId) : Option (List UInt16) :=
  match (a.expr e).kind with
  | .new _ _ [array] =>
    match (a.expr array).kind with
    | .newArray elems => elems.mapM (unitOf? a)
    | _ => none
  | _ => none

end StringForm

end Erasure
