import MixinTypes.Ty.Basic

/-!
# The text of a type

Arguments follow the whole name, also one with a suffix; unions and intersections are always in
parentheses, so the text shows the tree.
-/

namespace MixinTypes.Ty

mutual

/-- The text of a type. -/
def toChars : Ty → List Char
  | .any => "any".toList
  | .var name => '\x27' :: name.toList
  | .self => "self".toList
  | .inst => "instance".toList
  | .cls => "class".toList
  | .named name [] => name.toChars
  | .named name (t :: ts) =>
    name.toChars ++ '<' :: (", ".toList).intercalate (toCharsList (t :: ts)) ++ ['>']
  | .union ts => '(' :: (" | ".toList).intercalate (toCharsList ts) ++ [')']
  | .inter ts => '(' :: (" & ".toList).intercalate (toCharsList ts) ++ [')']

/-- The texts of a list of types. -/
def toCharsList : List Ty → List (List Char)
  | [] => []
  | t :: ts => toChars t :: toCharsList ts

end

@[simp] theorem toCharsList_eq (ts : List Ty) : toCharsList ts = ts.map toChars := by
  induction ts with
  | nil => rfl
  | cons t ts ih => simp [toCharsList, ih]

theorem toChars_named_cons (n : Nominal) (t : Ty) (ts : List Ty) :
    (Ty.named n (t :: ts)).toChars =
      n.toChars ++ '<' :: [',', ' '].intercalate ((t :: ts).map toChars) ++ ['>'] :=
  toCharsList_eq (t :: ts) ▸ rfl

theorem toChars_union (ts : List Ty) :
    (Ty.union ts).toChars = '(' :: [' ', '|', ' '].intercalate (ts.map toChars) ++ [')'] :=
  toCharsList_eq ts ▸ rfl

theorem toChars_inter (ts : List Ty) :
    (Ty.inter ts).toChars = '(' :: [' ', '&', ' '].intercalate (ts.map toChars) ++ [')'] :=
  toCharsList_eq ts ▸ rfl

def render (t : Ty) : String := String.ofList t.toChars

instance : ToString Ty := ⟨render⟩

end MixinTypes.Ty
