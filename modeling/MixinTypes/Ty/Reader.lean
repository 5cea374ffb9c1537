import MixinTypes.Text.Identifier
import MixinTypes.Ty.Basic

/-!
# The grammar of types

From loose to tight: a union of intersections of primary types. A primary type is a type in
parentheses, one of the words `any`, `self`, `instance` and `class`, a variable, or a path with
optional arguments and an optional suffix. A path without suffix whose last segment starts with an
underscore names a protocol.
-/

namespace MixinTypes.Ty

open Text Reader

/-- One member stands for itself; otherwise `combine` them. -/
def ofMembers (combine : List Ty → Ty) : List Ty → Ty
  | [t] => t
  | ts => combine ts

/-- The suffix that names the object of a module or class. -/
def suffixReader : Reader Facet := do
  char '.'
  (do word "module"; return .moduleObject) <|> (do
    word "class"
    let constructs ← optional (do blanks; word "constructor")
    return .classObject constructs.isSome)

/-- The facet of a path that is written without suffix. -/
def plainFacet (p : Path) : Facet :=
  if p.simpleName.toList.head? = some '_' then .protocol else .instances

/-- Arguments in angle brackets, each read with `inner`. -/
def argsReader (inner : Reader Ty) : Reader (List Ty) := do
  padded (char '<')
  let args ← sepBy1 (padded (char ',')) inner
  padded (char '>')
  return args

def namedReader (inner : Reader Ty) : Reader Ty := do
  let p ← path
  let args ← optional (argsReader inner)
  let suffix ← optional suffixReader
  return .named ⟨suffix.getD (plainFacet p), p⟩ (args.getD [])

def varReader : Reader String := do
  char '\x27'
  let name ← identifier
  return String.ofList name

/-- A type in parentheses. -/
def groupReader (inner : Reader Ty) : Reader Ty := do
  padded (char '(')
  let t ← inner
  padded (char ')')
  return t

/-- A primary type; nested types are read with `inner`. -/
def primaryReader (inner : Reader Ty) : Reader Ty :=
  padded (groupReader inner
    <|> (do word "any"; return .any)
    <|> (do word "self"; return .self)
    <|> (do word "instance"; return .inst)
    <|> (do word "class"; return .cls)
    <|> (do let name ← varReader; return .var name)
    <|> namedReader inner)

def interReader (inner : Reader Ty) : Reader Ty := do
  let ts ← sepBy1 (char '&') (primaryReader inner)
  return ofMembers .inter ts

def unionReader (inner : Reader Ty) : Reader Ty := do
  let ts ← sepBy1 (char '|') (interReader inner)
  return ofMembers .union ts

/-- A type that is nested less than the given depth. -/
def levelReader : Nat → Reader Ty
  | 0 => fail
  | depth + 1 => unionReader (delay fun _ => levelReader depth)

/-- A type. -/
def reader : Reader Ty := bounded levelReader

/-- Read a source that is one type. -/
def read (source : String) : Except SyntaxError Ty := reader.readAll "type" source

end MixinTypes.Ty
