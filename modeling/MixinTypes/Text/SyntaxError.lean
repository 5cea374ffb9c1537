import MixinTypes.Text.Extent
import MixinTypes.Text.Reader

/-!
# Texts that cannot be read

A syntax error covers the text from where reading stopped to the end of the source and quotes it.
-/

namespace MixinTypes

/-- Why a text was refused, and which part of it was not read. -/
structure SyntaxError where
  message : String
  extent : Extent
  help : Option String
deriving DecidableEq

namespace SyntaxError

/-- The message followed by the byte range. -/
def render (e : SyntaxError) : String :=
  s!"{e.message} at {e.extent.start}..{e.extent.stop}"

/-- The error of a `source` for some `subject` that could not be read from `stop` on. -/
def unread (subject : String) (source stop : List Char) : SyntaxError where
  message := s!"invalid {subject}"
  extent := ⟨Text.byteLength source - Text.byteLength stop, Text.byteLength source⟩
  help := some s!"could not parse `{String.ofList (Text.trim stop)}`"

end SyntaxError

/-- Read a whole source with `p`, with blanks around it allowed. -/
def Text.Reader.readAll (p : Text.Reader α) (subject : String) (source : String) :
    Except SyntaxError α :=
  match (do let a ← p.padded; endOfText; return a : Text.Reader α).run source.toList with
  | .ok (a, _) => .ok a
  | .error stop => .error (.unread subject source.toList stop)

end MixinTypes
