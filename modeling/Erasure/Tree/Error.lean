/-
What can go wrong when trees are built, edited and checked.
-/
import Erasure.Canonical.Reconciliation
import Erasure.Span
import Erasure.TypeSystem.Lookup

namespace Erasure

/-- Why a tree could not be built, or does not pass the checks. -/
inductive TreeError where
  | lookup (e : LookupError)
  | canon (e : CanonError)
  | ssaWithoutInit (name : String)
  /-- An operand that has to be a truth value is of another type. -/
  | notBoolean (context type : String)
  | notAnArray (type : String)
  | notAReference (type : String)
  | notInstantiable (type : String)
  /-- The target of an assignment that nothing can be assigned to. -/
  | notAssignable (span : Span)
  | stringLiteralRemains (span : Span)
  | stringConcatRemains (span : Span)
  deriving DecidableEq, Repr

/-- The text of the error. -/
def TreeError.message : TreeError → String
  | lookup e => e.message
  | canon e => e.message
  | ssaWithoutInit name => "SSA temporary `" ++ name ++ "` needs an initializer"
  | notBoolean context type => context ++ " must be `boolean`, found `" ++ type ++ "`"
  | notAnArray type => "indexed expression has non-array type `" ++ type ++ "`"
  | notAReference type => "`" ++ type ++ "` is not a reference type"
  | notInstantiable type => "`" ++ type ++ "` cannot be instantiated"
  | notAssignable span => "assignment target at " ++ span.describe ++ " is not an lvalue"
  | stringLiteralRemains span => "string literal survived desugaring at " ++ span.describe
  | stringConcatRemains span => "string concatenation survived desugaring at " ++ span.describe

/-- The cause of the error in one word, behind those of the stages it came through. -/
def TreeError.code : TreeError → String
  | lookup e => "Lower." ++ e.code
  | canon e => "Lower." ++ e.code
  | ssaWithoutInit .. => "Lower.SsaWithoutInit"
  | notBoolean .. => "Lower.NotBoolean"
  | notAnArray .. => "Lower.NotAnArray"
  | notAReference .. => "Lower.NotAReference"
  | notInstantiable .. => "Lower.NotInstantiable"
  | notAssignable .. => "Lower.NotAnLvalue"
  | stringLiteralRemains .. => "Lower.StringLiteralRemains"
  | stringConcatRemains .. => "Lower.StringConcatRemains"

end Erasure
