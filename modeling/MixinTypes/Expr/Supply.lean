import MixinTypes.Expr.Node

/-!
# Numbering nodes

A supply hands out the numbers 0, 1, 2, … to nodes in the order in which they are finished. A node
may ask for a number of its own instead; the supply has moved on all the same.
-/

namespace MixinTypes

/-- Work that takes numbers from a supply; the state is the next number. -/
abbrev Supply := StateM Nat

namespace Supply

/-- A site for a finished node, with its own number when it asks for one. -/
def site (extent : Extent) (own : Option Nat) : Supply Site := do
  let id ← get
  set (id + 1)
  return ⟨own.getD id, extent⟩

/-- A pair with a symbol for its key, as a keyword argument is written. The symbol is numbered
before the pair. -/
def keyword (name : String) (value : Node) (extent : Extent) (own : Option Nat) : Supply Node := do
  let key ← site .nowhere none
  let whole ← site extent own
  return .pair whole (.lit key (.sym name)) value

end Supply

end MixinTypes
