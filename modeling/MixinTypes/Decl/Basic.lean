import MixinTypes.Method

/-!
# Declarations

What a program declares: classes and modules (together the constants), protocols, and extensions,
which add members to a constant from outside.
-/

namespace MixinTypes

/-- Which objects a declared method belongs to. -/
inductive Side where
  /-- The instances. -/
  | instances
  /-- The class or module object itself. -/
  | object
  | both
deriving DecidableEq

/-- A declared method with its overloads as written. -/
structure MethodDecl where
  name : String
  side : Side
  signatures : List Signature
  attributes : List Attribute

namespace MethodDecl

/-- Whether instances have the method. -/
def onInstances (m : MethodDecl) : Bool := m.side ≠ .object

/-- Whether the class or module object has the method. -/
def onObject (m : MethodDecl) : Bool := m.side ≠ .instances

end MethodDecl

/-- A path applied to type arguments, as in `Comparable<Integer>`. -/
structure Applied where
  path : Path
  args : List Ty

/-- A member of a class, a module or an extension. -/
inductive Member where
  | method (m : MethodDecl)
  /-- A mixin for the instances. -/
  | included (a : Applied)
  /-- A mixin for the object itself. -/
  | extended (a : Applied)

namespace Member

def method? : Member → Option MethodDecl
  | .method m => some m
  | _ => none

def included? : Member → Option Applied
  | .included a => some a
  | _ => none

end Member

/-- What sets classes and modules apart. -/
inductive Body where
  /-- A class, with its superclass if one is written. -/
  | cls (superclass : Option Applied)
  /-- A module, with the type its users must have if one is written. -/
  | mod (selfType : Option Ty)

/-- The two kinds of constants. -/
inductive ConstantKind where
  | cls
  | mod
deriving DecidableEq

def Body.kind : Body → ConstantKind
  | .cls _ => .cls
  | .mod _ => .mod

/-- A declared class or module. -/
structure Constant where
  path : Path
  params : List String
  members : List Member
  extent : Extent
  body : Body

namespace Constant

/-- The constant under the absolute form of its path. -/
def atRoot (c : Constant) : Constant := { c with path := c.path.toAbsolute }

/-- The declared methods, in order. -/
def methods (c : Constant) : List MethodDecl := c.members.filterMap Member.method?

/-- The mixins for the instances, in order. -/
def includes (c : Constant) : List Applied := c.members.filterMap Member.included?

theorem mem_includes {c : Constant} {a : Applied} : a ∈ c.includes ↔ .included a ∈ c.members := by
  simp only [includes, List.mem_filterMap]
  constructor
  · rintro ⟨x, hx, ha⟩
    cases x <;> simp [Member.included?] at ha
    exact ha ▸ hx
  · exact fun h => ⟨_, h, rfl⟩

/-- The type that users of a module must have. -/
def selfType? (c : Constant) : Option Ty :=
  match c.body with
  | .cls _ => none
  | .mod t => t

end Constant

/-- A declared protocol. -/
structure Protocol where
  path : Path
  params : List String
  methods : List MethodDecl
  extent : Extent

/-- The protocol under the absolute form of its path. -/
def Protocol.atRoot (p : Protocol) : Protocol := { p with path := p.path.toAbsolute }

/-- Members added to the constant at `target`. -/
structure Extension where
  target : Path
  name : String
  members : List Member
  extent : Extent

/-- The extension of the constant at the absolute form of its target. -/
def Extension.atRoot (e : Extension) : Extension := { e with target := e.target.toAbsolute }

/-- The declared methods of an extension, in order. -/
def Extension.methods (e : Extension) : List MethodDecl := e.members.filterMap Member.method?

/-- Anything that can be declared. -/
inductive Declaration where
  | constant (c : Constant)
  | protocol (p : Protocol)
  | extension (e : Extension)

namespace Declaration

def constant? : Declaration → Option Constant
  | .constant c => some c
  | _ => none

def protocol? : Declaration → Option Protocol
  | .protocol p => some p
  | _ => none

def extension? : Declaration → Option Extension
  | .extension e => some e
  | _ => none

end Declaration

end MixinTypes
