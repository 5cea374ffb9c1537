import MixinTypes.Path
import MixinTypes.Text.SyntaxError

/-!
# Identifiers, words and written paths

Identifiers are made of ASCII letters, digits and underscores and do not start with a digit. A
written path has a constant for each segment: an identifier that starts with an uppercase letter or
an underscore. A label starts with a lowercase letter. A word ends where no identifier character
follows.
-/

namespace MixinTypes

namespace Text

def isIdentStart (c : Char) : Bool := c.isAlpha || c == '_'

def isIdentChar (c : Char) : Bool := c.isAlphanum || c == '_'

def isConstantStart (c : Char) : Bool := c.isUpper || c == '_'

namespace Reader

/-- One character that is `good`. -/
def satisfy (good : Char → Bool) : Reader Char where
  run
    | [] => .error []
    | c :: rest => if good c then .ok (c, rest) else .error (c :: rest)
  within
    | [] => .error (List.suffix_refl _)
    | c :: rest => by
      dsimp only
      split
      · exact .ok (List.suffix_cons ..) c
      · exact .error (List.suffix_refl _)

def identifier : Reader (List Char) := do
  let c ← satisfy isIdentStart
  let cs ← takeWhile isIdentChar
  return c :: cs

/-- A segment of a written path. -/
def constant : Reader (List Char) := identifier.filter fun cs => cs.head?.any isConstantStart

/-- The name of a keyword parameter. -/
def label : Reader (List Char) := identifier.filter fun cs => cs.head?.any Char.isLower

/-- The word `w`, with no identifier character after it. -/
def word (w : String) : Reader Unit := do
  text w
  notBefore isIdentChar

/-- A path as written: constants between double colons, absolute after a leading double colon. -/
def path : Reader Path := do
  let top ← optional (text "::")
  let segments ← sepBy1 (text "::") constant
  return ⟨segments.map String.ofList, top.isSome⟩

end Reader

end Text

/-- Read a source that is one written path. -/
def Path.read (source : String) : Except SyntaxError Path :=
  Text.Reader.path.readAll "module name" source

end MixinTypes
