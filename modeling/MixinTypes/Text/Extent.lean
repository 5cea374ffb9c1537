/-!
# Extents

The place of something in a source text: two byte offsets, from `start` up to `stop`. Nothing
forbids an extent that stops before it starts; its length is zero. `byteLength` gives the offset of
the end of a text.
-/

namespace MixinTypes

/-- A range of byte offsets. -/
structure Extent where
  start : Nat
  stop : Nat
deriving DecidableEq

namespace Extent

/-- The extent of nothing, at the start of the text. -/
def nowhere : Extent := ⟨0, 0⟩

instance : Inhabited Extent := ⟨nowhere⟩

/-- The number of bytes covered. -/
def length (e : Extent) : Nat := e.stop - e.start

def isEmpty (e : Extent) : Bool := e.length == 0

end Extent

/-! ## Bytes of a text -/

namespace Text

/-- The number of bytes of a text. -/
def byteLength : List Char → Nat
  | [] => 0
  | c :: cs => c.utf8Size + byteLength cs

/-- The bytes of a string are those of its characters. -/
theorem byteLength_toList (s : String) : byteLength s.toList = s.utf8ByteSize := by
  have ofList : ∀ cs, byteLength cs = (String.ofList cs).utf8ByteSize := by
    intro cs
    induction cs with
    | nil => rfl
    | cons c cs ih =>
      rw [byteLength, ih, ← List.singleton_append, String.ofList_append, String.utf8ByteSize_append]
      simp
  rw [ofList, String.ofList_toList]

theorem byteLength_append (as bs : List Char) :
    byteLength (as ++ bs) = byteLength as + byteLength bs := by
  induction as with
  | nil => simp [byteLength]
  | cons c cs ih => simp only [List.cons_append, byteLength, ih, Nat.add_assoc]

end Text

end MixinTypes
