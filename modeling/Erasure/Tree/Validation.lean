/-
Checks after desugaring.

No string form is left, and every member that a node refers to has a canonical form, so that the
whole unit can be mangled. The check stops at the first node, in preorder, that fails.
-/
import Erasure.Tree.StringForm

namespace Erasure.Validation

/-- The member that a node has to have a canonical form of. -/
def memberOf? (a : Arena) : NodeId → Option MemberId
  | .expr e =>
    match (a.expr e).kind with
    | .field _ m | .call _ m _ _ | .new m _ _ => some m
    | _ => none
  | .stmt s =>
    match (a.stmt s).kind with
    | .constructorCall _ m _ => some m
    | _ => none

/-- The error that a string form at a node stands for. -/
def stringError? (a : Arena) : NodeId → Option TreeError
  | .expr e => (StringForm.ofExpr? a e).map fun
    | .literal _ => .stringLiteralRemains (a.expr e).span
    | .concatenation .. => .stringConcatRemains (a.expr e).span
  | .stmt _ => none

/-- Checks a node: how many members were found to have a canonical form, or what is wrong. -/
def checkNode (a : Arena) (n : NodeId) : ExceptT TreeError CanonicalM Nat := do
  if let some e := stringError? a n then
    throw e
  match memberOf? a n with
  | none => return 0
  | some m =>
    match ← (Canonicalizer.canonicalizeMember m).run with
    | .ok _ => return 1
    | .error e => throw (.canon e)

/-- Checks nodes in order and counts the members. -/
def checkNodes (a : Arena) (ns : List NodeId) : ExceptT TreeError CanonicalM Nat :=
  ns.foldlM (fun checked n => return checked + (← checkNode a n)) 0

/-- Checks a unit and counts the members that its nodes refer to. -/
def validate (u : CompilationUnit) : ExceptT TreeError CanonicalM Nat :=
  checkNodes u.arena u.nodes

end Erasure.Validation
