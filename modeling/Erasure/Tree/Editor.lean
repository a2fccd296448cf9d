/-
Editing trees from the leaves up.

Children are edited before their parent. A replacement is written into the place of the node,
under the node's own span, so nothing above it has to be built again. A failure leaves everything
as it was at that moment.
-/
import Erasure.Tree.Builder

namespace Erasure

/-- What to do at each expression of a tree. -/
structure Editor (ρ : Type) where
  /-- Notes an expression in the log, before it is replaced or kept. -/
  record : Builder → ExprId → ρ → ρ
  /-- The replacement of an expression, if it is not to be kept. The builder has its span. -/
  replace : ExprId → BuildM (Option ExprId)

/-- The state of an editing: what is built, what is noted, and how many nodes were replaced. -/
structure Editing (ρ : Type) where
  builder : Builder
  log : ρ
  replaced : Nat := 0

/-- Editing that can fail. -/
abbrev EditM (ρ : Type) := ExceptT TreeError (StateM (Editing ρ))

namespace Editor

variable {ρ : Type}

/-- Building as part of an editing. -/
def build {α : Type} (act : BuildM α) : EditM ρ α := ExceptT.mk fun s =>
  let (result, builder) := act.run s.builder
  (result, { s with builder })

/-- Copies an expression into the place of another, which keeps its span. -/
def putInPlace (id replacement : ExprId) (s : Editing ρ) : Editing ρ :=
  let a := s.builder.arena
  let node := { a.expr replacement with span := (a.expr id).span }
  { s with
    builder := { s.builder with arena := a.replaceExpr id node }
    replaced := s.replaced + 1 }

/-- Notes an expression and replaces it, its children being done. -/
def leave (r : Editor ρ) (id : ExprId) : EditM ρ Unit := do
  modify fun s =>
    { s with builder := { s.builder with span := (s.builder.arena.expr id).span } }
  modify fun s => { s with log := r.record s.builder id s.log }
  match ← build (r.replace id) with
  | some replacement => modify (putInPlace id replacement)
  | none => pure ()

/-- Edits a tree at most `depth` levels deep. -/
def editWithin (r : Editor ρ) : (depth : Nat) → NodeId → EditM ρ Unit
  | 0, _ => pure ()
  | depth + 1, n => do
    ((← get).builder.arena.children n).forM (r.editWithin depth)
    match n with
    | .expr id => r.leave id
    | .stmt _ => pure ()

/-- A bound on the depth of a tree while it is edited: a replacement may be twice as deep as
what it replaces. -/
def depthFor (a : Arena) : Nat := 2 * a.nodeCount + 2

/-- Edits all trees below the roots. -/
def editAll (r : Editor ρ) (roots : List NodeId) : EditM ρ Unit := do
  let depth := depthFor (← get).builder.arena
  roots.forM (r.editWithin depth)

/-- Edits all trees of a unit. The answer comes with the final state, also after a failure. -/
def editUnit (r : Editor ρ) (log : ρ) (types : TypeSystem) (u : CompilationUnit) :
    Except TreeError Unit × Editing ρ :=
  (r.editAll u.roots).run { builder := ⟨types, u.arena, .generated⟩, log }

end Editor

end Erasure
