import MixinTypes.Check.Fault
import MixinTypes.Text.SyntaxError
import MixinTypes.World.Link

/-!
# Reports

What is shown to the author of a source: a message, a code for the kind of problem, a piece of advice,
and labels for places in the source.
-/

namespace MixinTypes

/-- A remark on `length` bytes from `offset` on. -/
structure Label where
  offset : Nat
  length : Nat
  text : String
deriving DecidableEq

/-- A remark on an extent. -/
def Label.ofExtent (e : Extent) (text : String) : Label := ⟨e.start, e.length, text⟩

/-- A problem as it is shown. -/
structure Report where
  message : String
  code : Option String
  help : Option String
  labels : List Label
deriving DecidableEq

namespace Report

def ofSyntaxError (e : SyntaxError) : Report where
  message := e.message
  code := some "sigcheck::syntax_error"
  help := e.help
  labels := [.ofExtent e.extent "parsing stopped here"]

def ofFault (f : Fault) : Report where
  message := f.render
  code := none
  help := none
  labels := [.ofExtent f.site.extent f.cause.label]

def ofLinkError (e : LinkError) : Report :=
  match e with
  | .recursive _ =>
    { message := e.render
      code := some "sigcheck::recursive_definition"
      help := some "break the cycle between these declarations"
      labels := [] }
  | .unknown .. =>
    { message := e.render
      code := some "sigcheck::unknown_type"
      help := none
      labels := [] }

/-- The same report with other advice. -/
def withHelp (r : Report) (help : String) : Report := { r with help := some help }

end Report

end MixinTypes
