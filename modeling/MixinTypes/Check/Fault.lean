import MixinTypes.Expr.Node
import MixinTypes.Ty.Render

/-!
# Faults

What the checker finds wrong with a program, and how it is told: a short code, a message, and a label
for the place.
-/

namespace MixinTypes

/-- What is wrong. Positions count from zero. -/
inductive Cause where
  | incompatibleAssignment (target value : Ty)
  | noMethod (receiver : Ty) (method : String)
  | missingArgument (position : Nat)
  | extraArgument (position : Nat)
  | missingKeyword (name : String)
  | extraKeyword (name : String)
  | invalidArgument (expected actual : Ty)
deriving DecidableEq

/-- Something wrong at a node. -/
structure Fault where
  site : Site
  cause : Cause
deriving DecidableEq

namespace Cause

def code : Cause → String
  | .incompatibleAssignment .. => "incompatible-assignment"
  | .noMethod .. => "no-method"
  | .missingArgument .. => "argument-missing"
  | .extraArgument .. => "extra-argument"
  | .missingKeyword .. => "keyword-missing"
  | .extraKeyword .. => "extra-keyword"
  | .invalidArgument .. => "invalid-argument"

def message : Cause → String
  | .incompatibleAssignment target value =>
    s!"Cannot assign a value of type `{value}` to a variable of type `{target}`"
  | .noMethod receiver method => s!"Type `{receiver}` does not have method `{method}`"
  | .missingArgument position => s!"Expected argument at position {position} is missing"
  | .extraArgument position => s!"Extra argument given at position {position}"
  | .missingKeyword name => s!"Expected keyword `{name}` is missing"
  | .extraKeyword name => s!"Unexpected keyword `{name}` given"
  | .invalidArgument expected actual => s!"Expected `{expected}` but given `{actual}`"

/-- What is said at the place itself; the whole message where nothing shorter helps. -/
def label : Cause → String
  | .incompatibleAssignment target _ => s!"expected `{target}`"
  | .noMethod _ method => s!"`{method}` is not defined here"
  | .invalidArgument _ actual => s!"this is `{actual}`"
  | cause => cause.message

/-- The types that a cause speaks of. -/
def types : Cause → List Ty
  | .incompatibleAssignment target value => [target, value]
  | .noMethod receiver _ => [receiver]
  | .invalidArgument expected actual => [expected, actual]
  | .missingArgument _ | .extraArgument _ | .missingKeyword _ | .extraKeyword _ => []

end Cause

/-- The message after its code. -/
def Fault.render (f : Fault) : String := s!"[{f.cause.code}] {f.cause.message}"

end MixinTypes
