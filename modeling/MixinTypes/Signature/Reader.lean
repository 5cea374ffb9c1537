import MixinTypes.Signature.Basic
import MixinTypes.Ty.Reader

/-!
# The grammar of signatures

Optional type parameters in angle brackets, optional parameters in parentheses, an optional block in
braces, then an arrow and the result, as in

`<'a> (Integer, ?String, *any, name: String, **any) { ('a) -> any } -> ::Array<'a>`.
-/

namespace MixinTypes.Signature

open Text Reader

/-- The name of a keyword parameter with its colon. A double colon does not count as one. -/
def labelReader : Reader String := do
  let name ← padded label
  char ':'
  notBefore (· == ':')
  return String.ofList name

def paramReader : Reader Param :=
  padded ((do text "**"; return .restKeywords (← Ty.reader))
    <|> (do char '*'; return .rest (← Ty.reader))
    <|> (do char '?'; return .optionalKeyword (← labelReader) (← Ty.reader))
    <|> (do char '?'; return .optional (← Ty.reader))
    <|> (do return .keyword (← labelReader) (← Ty.reader))
    <|> (do return .required (← Ty.reader)))

def paramsReader : Reader (List Param) := do
  padded (char '(')
  let params ← sepBy (padded (char ',')) paramReader
  padded (char ')')
  return params

/-- An arrow and the type after it. -/
def returnsReader : Reader Ty := do
  padded (text "->")
  Ty.reader

def blockReader : Reader BlockSignature := do
  padded (char '\x7b')
  let params ← optional paramsReader
  let returns ← returnsReader
  padded (char '\x7d')
  return ⟨params.getD [], returns⟩

def typeParamsReader : Reader (List String) := do
  padded (char '<')
  let names ← sepBy1 (padded (char ',')) (padded Ty.varReader)
  padded (char '>')
  return names

/-- A signature that covers `extent`. -/
def reader (extent : Extent) : Reader Signature := do
  let typeParams ← optional typeParamsReader
  let params ← optional paramsReader
  let block ← optional blockReader
  let returns ← returnsReader
  return ⟨typeParams.getD [], params.getD [], block, returns, extent⟩

/-- Read a source that is one signature; it covers the whole source. -/
def read (source : String) : Except SyntaxError Signature :=
  (reader ⟨0, byteLength source.toList⟩).readAll "method type" source

end MixinTypes.Signature
