/-
The unit that declares the prelude.

Compiling it yields the symbols that the runtime library has to define.
-/
import Erasure.Tree.Builder

namespace Erasure.CoreUnit

/-- Locals for the formals of a procedure. -/
def formals (types : List TypeId) : StateM Builder (List LocalId) :=
  types.zipIdx.mapM fun (ty, i) => Builder.newLocal ("a" ++ toString i) ty { isFinal := true }

/-- The declaration of a member of the prelude, with an empty body. Initializers have none. -/
def declOf? (m : MemberId) : StateM Builder (Option MemberDecl) := do
  match ((← get).types.member m).kind with
  | .method _ types _ _ => do
    let locals ← formals types
    return some ⟨m, .method locals (some (← Builder.block [])), .generated⟩
  | .constructor types _ => do
    let locals ← formals types
    return some ⟨m, .constructor locals (some (← Builder.block [])), .generated⟩
  | .field .. => return some ⟨m, .field none, .generated⟩
  | .initializer => return none

/-- The declaration of a class with all of its members. -/
def classDecl (c : ClassId) : StateM Builder ClassDecl := do
  let decls ← ((← get).types.classDef c).members.mapM declOf?
  return ⟨c, decls.filterMap id, .generated⟩

/-- The unit that declares `core.Object` and `core.String`, with the type system afterwards. -/
def build (types : TypeSystem) : CompilationUnit × TypeSystem :=
  let (classes, b) := ([ClassId.object, .string].mapM classDecl).run ⟨types, {}, .generated⟩
  (⟨b.arena, classes⟩, b.types)

end Erasure.CoreUnit
