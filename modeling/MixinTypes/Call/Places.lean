import MixinTypes.Call.Matching

/-!
# Places for what is passed

A call passes arguments by position and entries by keyword. Each of these has at most one place among the
formal parameters. An argument goes to the parameter at its position, the required ones before the optional
ones, or else to the rest. An entry goes to the parameter of its name, a required one before an optional one,
or else to the rest of the keywords.
-/

namespace MixinTypes

/-- What is passed: the argument at a position, or the value of a keyword. -/
inductive Item where
  | position (i : Nat)
  | entry (name : String)

/-- One of the formal parameters. -/
inductive Place where
  | required (i : Nat)
  | optional (i : Nat)
  | rest
  | keyword (name : String)
  | optionalKeyword (name : String)
  | restKeywords

namespace Place

/-- Whether something has to go there. -/
def needed : Place → Bool
  | .required _ | .keyword _ => true
  | _ => false

end Place

/-- All that a call passes. -/
structure Supplied where
  given : List Node
  entries : Table String Node

namespace Supplied

def items (s : Supplied) : List Item :=
  (List.range s.given.length).map .position ++ s.entries.keys.map .entry

def value? (s : Supplied) : Item → Option Node
  | .position i => s.given[i]?
  | .entry name => s.entries.get? name

end Supplied

namespace Formals

/-- The type of a parameter. -/
def typeAt? (f : Formals) : Place → Option Ty
  | .required i => f.required[i]?
  | .optional i => f.optional[i]?
  | .rest => f.rest
  | .keyword name => f.keywords.get? name
  | .optionalKeyword name => f.optionalKeywords.get? name
  | .restKeywords => f.restKeywords

/-- Where something that is passed goes. -/
def place? (f : Formals) : Item → Option Place
  | .position i =>
    if i < f.required.length then some (.required i)
    else if i < f.positional.length then some (.optional (i - f.required.length))
    else f.rest.map fun _ => .rest
  | .entry name =>
    if f.keywords.contains name then some (.keyword name)
    else if f.optionalKeywords.contains name then some (.optionalKeyword name)
    else f.restKeywords.map fun _ => .restKeywords

/-- The parameters that something has to go to. -/
def demands (f : Formals) : List Place :=
  (List.range f.required.length).map .required ++ f.keywords.keys.map .keyword

/-- What is reported to have no place. -/
def unplaced (f : Formals) (args : List Node) : List Item :=
  (f.extra args).map .position ++ (f.extraKeywords args).map .entry

/-- The parameters that are reported to get nothing. -/
def lacking (f : Formals) (args : List Node) : List Place :=
  (f.missing args).map .required ++ (f.missingKeywords args).map .keyword

/-- How arguments divide into those by position and the elements of a hash with the keywords, which is the last
argument if that is a hash literal and a parameter is filled by keyword. -/
inductive Divides (f : Formals) : List Node → List Node → List Node → Prop where
  | keywords {site : Site} {given elements : List Node} (takes : f.hasKeywords = true) :
      Divides f (given ++ [.hash site elements]) given elements
  | positional {args : List Node}
      (other : f.hasKeywords = true → ∀ given site elements, args ≠ given ++ [.hash site elements]) :
      Divides f args args []

end Formals

/-- The value of the last pair with the symbol `name` for a key. -/
def LastValue (elements : List Node) (name : String) (value : Node) : Prop :=
  ∃ before site key after, elements = before ++ .pair site (.lit key (.sym name)) value :: after ∧
    ∀ site key value, .pair site (.lit key (.sym name)) value ∉ after

namespace Formals

/-- What arguments pass: those by position, and one entry for each symbol in the hash with the keywords. -/
def Supplies (f : Formals) (args : List Node) (s : Supplied) : Prop :=
  ∃ elements, f.Divides args s.given elements ∧
    ∀ name value, s.entries.get? name = some value ↔ LastValue elements name value

/-- A pair of a type and a node stands for something that is passed and the place it goes to. -/
def Joins (f : Formals) (s : Supplied) (p : Ty × Node) (link : Item × Place) : Prop :=
  f.place? link.1 = some link.2 ∧ f.typeAt? link.2 = some p.1 ∧ s.value? link.1 = some p.2

end Formals

end MixinTypes
