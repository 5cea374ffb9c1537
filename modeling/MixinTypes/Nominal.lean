import MixinTypes.Path

/-!
# Nominal type names

One declaration is seen from several sides: the instances of a class or module, the module object
itself, the class object (which may or may not be able to construct), and a protocol, whose values
are known by their methods alone. A nominal name pairs such a side with the path of the declaration.
-/

namespace MixinTypes

/-- The side of a declaration that a nominal name speaks of. -/
inductive Facet where
  /-- Instances of a class or module. -/
  | instances
  /-- The module itself, used as a namespace object. -/
  | moduleObject
  /-- The class itself; `constructs` says that it can make instances. -/
  | classObject (constructs : Bool)
  /-- A protocol: any value that has its methods. -/
  | protocol
deriving DecidableEq

/-- The name of a nominal type. -/
structure Nominal where
  facet : Facet
  path : Path
deriving DecidableEq

namespace Nominal

/-- The same facet of another declaration. -/
def withPath (n : Nominal) (p : Path) : Nominal := { n with path := p }

/-- The same facet of the declaration at the same segments from the root. -/
def toAbsolute (n : Nominal) : Nominal := n.withPath n.path.toAbsolute

/-- What is written after the path. -/
def suffix : Facet → List Char
  | .instances => []
  | .moduleObject => ".module".toList
  | .classObject true => ".class constructor".toList
  | .classObject false => ".class".toList
  | .protocol => []

/-- The text of a nominal name: the path, then `.module`, `.class` or `.class constructor`. -/
def toChars (n : Nominal) : List Char := n.path.toChars ++ suffix n.facet

def render (n : Nominal) : String := String.ofList n.toChars

instance : ToString Nominal := ⟨render⟩

@[simp] theorem withPath_self (n : Nominal) : n.withPath n.path = n := rfl

end Nominal

end MixinTypes
