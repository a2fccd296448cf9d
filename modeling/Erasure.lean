import Erasure.Canonical.Basic
import Erasure.Canonical.Reconciliation
import Erasure.CommandLine
import Erasure.Compile.Compiler
import Erasure.Compile.CoreUnit
import Erasure.Compile.Options
import Erasure.Compile.Plan
import Erasure.Compile.References
import Erasure.Compile.SymbolSet
import Erasure.Handle
import Erasure.InternTable
import Erasure.Listing.Datum
import Erasure.Listing.Declarations
import Erasure.Listing.Symbols
import Erasure.Listing.Trees
import Erasure.Main
import Erasure.Memo
import Erasure.Names
import Erasure.Pool
import Erasure.Pool.Kind
import Erasure.Pool.Substitution
import Erasure.Primitive
import Erasure.Proofs.Canonical.Addition
import Erasure.Proofs.Canonical.Agreement
import Erasure.Proofs.Canonical.Applicability
import Erasure.Proofs.Canonical.Attribution
import Erasure.Proofs.Canonical.Concord
import Erasure.Proofs.Canonical.Declaring
import Erasure.Proofs.Canonical.Depth
import Erasure.Proofs.Canonical.ErasedImage
import Erasure.Proofs.Canonical.ErasingSubst
import Erasure.Proofs.Canonical.Exactness
import Erasure.Proofs.Canonical.Extension
import Erasure.Proofs.Canonical.Faithful
import Erasure.Proofs.Canonical.Instantiation
import Erasure.Proofs.Canonical.Link
import Erasure.Proofs.Canonical.MemberForest
import Erasure.Proofs.Canonical.Members
import Erasure.Proofs.Canonical.Monotone
import Erasure.Proofs.Canonical.NormalForm
import Erasure.Proofs.Canonical.Outline
import Erasure.Proofs.Canonical.Persistence
import Erasure.Proofs.Canonical.Rank
import Erasure.Proofs.Canonical.Recall
import Erasure.Proofs.Canonical.RecallMembers
import Erasure.Proofs.Canonical.RecallReconciliation
import Erasure.Proofs.Canonical.Reconciliation
import Erasure.Proofs.Canonical.Relation
import Erasure.Proofs.Canonical.Session
import Erasure.Proofs.Canonical.Soundness
import Erasure.Proofs.Canonical.Stepwise
import Erasure.Proofs.Canonical.Subtyping
import Erasure.Proofs.Canonical.Types
import Erasure.Proofs.Canonical.Upward
import Erasure.Proofs.Canonical.Validity
import Erasure.Proofs.Compile.Continuation
import Erasure.Proofs.Compile.Gathering
import Erasure.Proofs.Compile.History
import Erasure.Proofs.Compile.InterfaceTables
import Erasure.Proofs.Compile.LayoutRequests
import Erasure.Proofs.Compile.Layouts
import Erasure.Proofs.Compile.Linking
import Erasure.Proofs.Compile.Mangling
import Erasure.Proofs.Compile.Memory
import Erasure.Proofs.Compile.Order
import Erasure.Proofs.Compile.Stages
import Erasure.Proofs.Growth
import Erasure.Proofs.Hierarchy.BoundChain
import Erasure.Proofs.Hierarchy.Closure
import Erasure.Proofs.Joins.CommonClass
import Erasure.Proofs.Joins.Nested
import Erasure.Proofs.Joins.Order
import Erasure.Proofs.Joins.Rules
import Erasure.Proofs.Joins.UpperBound
import Erasure.Proofs.Lookup.Candidates
import Erasure.Proofs.Lookup.Hierarchy
import Erasure.Proofs.Lookup.Nearest
import Erasure.Proofs.Lookup.Overriding
import Erasure.Proofs.Lookup.Search
import Erasure.Proofs.Pool.Composition
import Erasure.Proofs.Pool.Construction
import Erasure.Proofs.Pool.Correspondence
import Erasure.Proofs.Pool.FiniteMap
import Erasure.Proofs.Pool.Flags
import Erasure.Proofs.Pool.Rebuilding
import Erasure.Proofs.Pool.Shape
import Erasure.Proofs.Pool.Sorted
import Erasure.Proofs.Pool.Substitution
import Erasure.Proofs.Pool.Validity
import Erasure.Proofs.Strings.Chain
import Erasure.Proofs.Strings.CodeUnits
import Erasure.Proofs.Strings.Desugared
import Erasure.Proofs.Strings.Evaluation
import Erasure.Proofs.Strings.Frame
import Erasure.Proofs.Strings.Literals
import Erasure.Proofs.Strings.RawClass
import Erasure.Proofs.Strings.Replacement
import Erasure.Proofs.Strings.Specification
import Erasure.Proofs.Strings.StringClass
import Erasure.Proofs.Strings.TextMethod
import Erasure.Proofs.Strings.Translation
import Erasure.Proofs.Strings.Validation
import Erasure.Proofs.Subtyping.Climbing
import Erasure.Proofs.Subtyping.Derivation
import Erasure.Proofs.Subtyping.Outline
import Erasure.Proofs.Subtyping.Preorder
import Erasure.Proofs.Subtyping.Recursion
import Erasure.Proofs.Subtyping.Substitution
import Erasure.Proofs.Symbol.Demangling
import Erasure.Proofs.Symbol.Existence
import Erasure.Proofs.Symbol.Independence
import Erasure.Proofs.Symbol.InterfaceTable
import Erasure.Proofs.Symbol.Mangling
import Erasure.Proofs.Symbol.Reading
import Erasure.Proofs.Symbol.RoundTrip
import Erasure.Proofs.Symbol.Spelling
import Erasure.Proofs.Symbol.StaticField
import Erasure.Proofs.Tree.Assembly
import Erasure.Proofs.Tree.Building
import Erasure.Proofs.Tree.Desugaring
import Erasure.Proofs.Tree.DirectCalls
import Erasure.Proofs.Tree.Editing
import Erasure.Proofs.Tree.FirstViolation
import Erasure.Proofs.Tree.Reachability
import Erasure.Proofs.Tree.ReadBack
import Erasure.Proofs.Tree.Receivers
import Erasure.Proofs.Tree.Traversal
import Erasure.Proofs.Tree.TreeShape
import Erasure.Proofs.Tree.Visiting
import Erasure.Proofs.TypeSystem.Bounds
import Erasure.Proofs.TypeSystem.Declarations
import Erasure.Proofs.TypeSystem.Deriving
import Erasure.Proofs.TypeSystem.Display
import Erasure.Proofs.TypeSystem.Image
import Erasure.Proofs.TypeSystem.Join
import Erasure.Proofs.TypeSystem.Layers
import Erasure.Proofs.TypeSystem.Links
import Erasure.Proofs.TypeSystem.Lookup
import Erasure.Proofs.TypeSystem.Operation
import Erasure.Proofs.TypeSystem.Signature
import Erasure.Proofs.TypeSystem.TypesOnly
import Erasure.Proofs.TypeSystem.Validity
import Erasure.Span
import Erasure.Symbol.Basic
import Erasure.Symbol.Decoding
import Erasure.Symbol.Encoding
import Erasure.Symbol.Layout
import Erasure.Symbol.Mangling
import Erasure.Symbol.Structure
import Erasure.Text.Printable
import Erasure.Text.Quoted
import Erasure.Tree.Arena
import Erasure.Tree.Builder
import Erasure.Tree.CompilationUnit
import Erasure.Tree.Editor
import Erasure.Tree.Error
import Erasure.Tree.Node
import Erasure.Tree.Operator
import Erasure.Tree.StringForm
import Erasure.Tree.Validation
import Erasure.TypeSystem.Basic
import Erasure.TypeSystem.Class
import Erasure.TypeSystem.Display
import Erasure.TypeSystem.Hierarchy
import Erasure.TypeSystem.Image
import Erasure.TypeSystem.Join
import Erasure.TypeSystem.Lookup
import Erasure.TypeSystem.Member
import Erasure.TypeSystem.Prelude
import Erasure.TypeSystem.Subtyping
