import MixinTypes.Table
import MixinTypes.Distinct
import MixinTypes.Path
import MixinTypes.Nominal
import MixinTypes.Text.Extent
import MixinTypes.Text.Blank
import MixinTypes.Text.Reader
import MixinTypes.Text.SyntaxError
import MixinTypes.Text.Identifier
import MixinTypes.Ty.Basic
import MixinTypes.Ty.Parts
import MixinTypes.Ty.Names
import MixinTypes.Ty.Subst
import MixinTypes.Ty.Render
import MixinTypes.Ty.Reader
import MixinTypes.Signature.Basic
import MixinTypes.Signature.Reader
import MixinTypes.Formals
import MixinTypes.Overload
import MixinTypes.Method
import MixinTypes.Interface.Basic
import MixinTypes.Decl.Basic
import MixinTypes.Decl.Collection
import MixinTypes.Decl.Lookup
import MixinTypes.Decl.Session
import MixinTypes.World.Basic
import MixinTypes.World.Plan
import MixinTypes.World.Built
import MixinTypes.World.Memo
import MixinTypes.World.Link
import MixinTypes.World.Session
import MixinTypes.World.Ancestry
import MixinTypes.Assignable.Reduction
import MixinTypes.Assignable.Relation
import MixinTypes.Assignable.Search
import MixinTypes.Assignable.Selection
import MixinTypes.Assignable.Session
import MixinTypes.Expr.Node
import MixinTypes.Expr.Supply
import MixinTypes.Call.Matching
import MixinTypes.Call.Places
import MixinTypes.Check.Fault
import MixinTypes.Check.Walk
import MixinTypes.Check.Session
import MixinTypes.Report
import MixinTypes.Proofs.Linking.Extension
import MixinTypes.Proofs.Linking.Dependency
import MixinTypes.Proofs.Linking.Failure
import MixinTypes.Proofs.Linking.Outcome
import MixinTypes.Proofs.Linking.Cycle
import MixinTypes.Proofs.Assignability.Derivation
import MixinTypes.Proofs.Assignability.Decision
import MixinTypes.Check.Explanation
import MixinTypes.Proofs.Checking.Account
import MixinTypes.Proofs.Checking.Explanation
import MixinTypes.Proofs.Ancestry.Methods
import MixinTypes.Proofs.Linking.Keys
import MixinTypes.Proofs.Merging.Chains
import MixinTypes.Proofs.Generics.Composition
import MixinTypes.Proofs.Ancestry.Supers
import MixinTypes.Proofs.Assignability.SelfType
import MixinTypes.Proofs.Ancestry.Objects
import MixinTypes.Proofs.Assignability.Availability
import MixinTypes.Proofs.Assignability.Transitivity
import MixinTypes.Proofs.Reading.Combinators
import MixinTypes.Proofs.Reading.Written
import MixinTypes.Proofs.Reading.Names
import MixinTypes.Proofs.Reading.Members
import MixinTypes.Proofs.Reading.Primary
import MixinTypes.Proofs.Reading.RoundTrip
import MixinTypes.Proofs.Checking.Independence
import MixinTypes.Check.Questions
import MixinTypes.Proofs.Checking.Untyped
import MixinTypes.Proofs.Construction.Flags
import MixinTypes.Proofs.Construction.Indifference
import MixinTypes.Proofs.Construction.Nearest
import MixinTypes.Proofs.Reading.Acceptance
import MixinTypes.Proofs.Reading.SignatureRoundTrip
import MixinTypes.Proofs.Checking.Coverage
import MixinTypes.Proofs.Checking.Concrete
import MixinTypes.Proofs.Linking.Closure
import MixinTypes.Proofs.Linking.Tolerance
import MixinTypes.Proofs.Declaring.Agreement
import MixinTypes.Proofs.Declaring.Order
import MixinTypes.Proofs.Declaring.History
import MixinTypes.Proofs.Ancestry.Initialize
import MixinTypes.Proofs.Merging.Repetition
import MixinTypes.Proofs.Merging.Precedence
import MixinTypes.Proofs.Calls.Conservation
import MixinTypes.Proofs.Merging.Idempotence
import MixinTypes.Proofs.Assignability.Unions
import MixinTypes.Proofs.Assignability.Intersections
import MixinTypes.Proofs.Resolving.Scopes
import MixinTypes.Proofs.Ancestry.Hierarchy
import MixinTypes.Proofs.Ancestry.SelfTypes
import MixinTypes.Proofs.Resolving.Stability
import MixinTypes.Proofs.Generics.Action
import MixinTypes.Proofs.Calls.Instantiation
import MixinTypes.Proofs.Calls.Reordering
import MixinTypes.Check.Trace
import MixinTypes.Check.Visit
import MixinTypes.Proofs.Checking.Replay
import MixinTypes.Proofs.Checking.Locals
import MixinTypes.Proofs.Reading.Segments
import MixinTypes.Proofs.Reading.PathSource
import MixinTypes.Proofs.Reading.Failures
import MixinTypes.Proofs.Checking.Lookups
