import MixinTypes.Decl.Lookup

/-!
# Worlds and the meaning of names

A world is a collection of declarations together with the paths of its root classes. Names in it are
made absolute in a scope, the path of the declaration they are written in. A name that cannot be
resolved stays as it is written; `unresolved?` says why.

Main statements: `absolute_absoluteName` for a name that resolves, `absoluteName_of_unresolved?` for one
that does not.
-/

namespace MixinTypes

/-- The paths of the declarations that everything else rests on. -/
structure Roots where
  /-- The one class without a superclass. -/
  basicObject : Path
  /-- The superclass of a class that names none. -/
  object : Path
  /-- The class of module objects. -/
  moduleClass : Path
  /-- The class of class objects. -/
  classClass : Path

/-- The root paths that are in force when nothing else is said. -/
def Roots.standard : Roots where
  basicObject := ⟨["BasicObject"], true⟩
  object := ⟨["Object"], true⟩
  moduleClass := ⟨["Module"], true⟩
  classClass := ⟨["Class"], true⟩

/-- Declarations and their roots. -/
structure World where
  decls : Declarations
  roots : Roots

/-- A name that could not be resolved in a scope, and why. -/
structure Unresolved where
  name : Nominal
  scope : Path
  cause : LookupError
deriving DecidableEq

namespace World

/-- The superclass of a constant as written, `object` when a class names none. Modules and the root
class have none. -/
def base? (w : World) (c : Constant) : Option Applied :=
  match c.body with
  | .mod _ => none
  | .cls superclass =>
    if c.path = w.roots.basicObject then none else some (superclass.getD ⟨w.roots.object, []⟩)

/-- The path of the declaration that a name written in `scope` speaks of. -/
def locate (w : World) (scope : Path) (n : Nominal) : Except LookupError Path :=
  match n.facet with
  | .instances => (w.decls.find (some scope) n.path).map Constant.path
  | .moduleObject => (w.decls.findKind .mod (some scope) n.path).map Constant.path
  | .classObject _ => (w.decls.findKind .cls (some scope) n.path).map Constant.path
  | .protocol => .ok n.path.toAbsolute

/-- The absolute form of a name. Without a scope the path is taken from the root as it is. -/
def absoluteName (w : World) (scope : Option Path) (n : Nominal) : Nominal :=
  match scope with
  | none => n.toAbsolute
  | some s =>
    match w.locate s n with
    | .ok p => n.withPath p
    | .error _ => n

/-- The failure to resolve a name, if there is one. -/
def unresolved? (w : World) (scope : Option Path) (n : Nominal) : Option Unresolved :=
  match scope with
  | none => none
  | some s =>
    match w.locate s n with
    | .ok _ => none
    | .error cause => some ⟨n, s, cause⟩

/-- Make every name in a type absolute. -/
def absoluteTy (w : World) (scope : Option Path) (t : Ty) : Ty :=
  t.mapNames (w.absoluteName scope)

/-- The names in a type that cannot be resolved, as written from left to right. -/
def unresolvedIn (w : World) (scope : Option Path) (t : Ty) : List Unresolved :=
  t.names.filterMap (w.unresolved? scope)

/-- The overload that a signature written in `scope` declares. A `result` that is given replaces
the one written. -/
def overload (w : World) (scope : Option Path) (result : Option Ty) (s : Signature) : Overload :=
  .ofSignature (w.absoluteTy scope) result s

/-- The names in a signature that cannot be resolved, in the order in which they count. -/
def unresolvedInSignature (w : World) (scope : Option Path) (result : Option Ty) (s : Signature) :
    List Unresolved :=
  (s.types result.isNone).flatMap (w.unresolvedIn scope)

@[simp] theorem absoluteName_none (w : World) (n : Nominal) :
    w.absoluteName none n = n.toAbsolute := rfl

@[simp] theorem unresolved?_none (w : World) (n : Nominal) : w.unresolved? none n = none := rfl

theorem absoluteName_facet (w : World) (scope : Option Path) (n : Nominal) :
    (w.absoluteName scope n).facet = n.facet := by
  cases scope with
  | none => rfl
  | some s => simp only [absoluteName]; split <;> rfl

theorem absoluteName_of_locate {w : World} {scope p : Path} {n : Nominal}
    (h : w.locate scope n = .ok p) : w.absoluteName (some scope) n = n.withPath p := by
  simp only [absoluteName, h]

/-- In a scope, the names without a failure are those that are located. -/
theorem unresolved?_eq_none_iff {w : World} {scope : Path} {n : Nominal} :
    w.unresolved? (some scope) n = none ↔ ∃ p, w.locate scope n = .ok p := by
  simp only [unresolved?]
  cases w.locate scope n with
  | error => exact ⟨nofun, nofun⟩
  | ok p => exact ⟨fun _ => ⟨p, rfl⟩, fun _ => rfl⟩

/-- What a failure says is so. -/
theorem locate_of_unresolved? {w : World} {scope : Option Path} {n : Nominal} {u : Unresolved}
    (h : w.unresolved? scope n = some u) :
    scope = some u.scope ∧ u.name = n ∧ w.locate u.scope u.name = .error u.cause := by
  cases scope with
  | none => cases h
  | some s =>
    simp only [unresolved?] at h
    split at h
    · cases h
    · next hl =>
      cases h
      exact ⟨rfl, rfl, hl⟩

/-- A name with a failure stays as it is. -/
theorem absoluteName_of_unresolved? {w : World} {scope : Option Path} {n : Nominal} {u : Unresolved}
    (h : w.unresolved? scope n = some u) : w.absoluteName scope n = n := by
  obtain ⟨rfl, rfl, hl⟩ := locate_of_unresolved? h
  simp only [absoluteName, hl]

/-- A mapped success comes from a success. -/
theorem exists_of_map_eq_ok {f : α → β} {e : Except ε α} {b : β} (h : e.map f = .ok b) :
    ∃ a, e = .ok a ∧ f a = b := by
  cases e with
  | error => exact nomatch h
  | ok a => exact ⟨a, rfl, Except.ok.inj h⟩

theorem eq_error_of_map_eq_error {f : α → β} {e : Except ε α} {x : ε} (h : e.map f = .error x) :
    e = .error x := by
  cases e with
  | error => exact congrArg _ (Except.error.inj h)
  | ok => exact nomatch h

theorem eq_ok_of_toOption_eq_some {e : Except ε α} {a : α} (h : e.toOption = some a) : e = .ok a := by
  cases e with
  | error => exact nomatch h
  | ok => exact congrArg _ (Option.some.inj h)

theorem absolute_of_locate {w : World} {scope : Path} {n : Nominal} {p : Path}
    (h : w.locate scope n = .ok p) : p.absolute = true := by
  unfold locate at h
  split at h
  · obtain ⟨c, hc, rfl⟩ := exists_of_map_eq_ok h
    exact w.decls.constants_absolute c (Declarations.mem_of_find hc)
  · obtain ⟨c, hc, rfl⟩ := exists_of_map_eq_ok h
    exact w.decls.constants_absolute c
      (Declarations.mem_of_find (Declarations.find_of_findKind hc).1)
  · obtain ⟨c, hc, rfl⟩ := exists_of_map_eq_ok h
    exact w.decls.constants_absolute c
      (Declarations.mem_of_find (Declarations.find_of_findKind hc).1)
  · obtain rfl := Except.ok.inj h; rfl

/-- A name without a failure becomes absolute. -/
theorem absolute_absoluteName {w : World} {scope : Option Path} {n : Nominal}
    (h : w.unresolved? scope n = none) : (w.absoluteName scope n).path.absolute = true := by
  cases scope with
  | none => rfl
  | some s =>
    obtain ⟨p, hp⟩ := unresolved?_eq_none_iff.mp h
    rw [absoluteName_of_locate hp]
    exact absolute_of_locate hp

/-- An absolute path stays as it is. -/
theorem path_of_locate_of_absolute {w : World} {scope : Path} {n : Nominal} {p : Path}
    (hn : n.path.absolute = true) (h : w.locate scope n = .ok p) : p = n.path := by
  unfold locate at h
  split at h
  · obtain ⟨c, hc, rfl⟩ := exists_of_map_eq_ok h
    exact Declarations.path_of_find_of_absolute hn hc
  · obtain ⟨c, hc, rfl⟩ := exists_of_map_eq_ok h
    exact Declarations.path_of_find_of_absolute hn (Declarations.find_of_findKind hc).1
  · obtain ⟨c, hc, rfl⟩ := exists_of_map_eq_ok h
    exact Declarations.path_of_find_of_absolute hn (Declarations.find_of_findKind hc).1
  · rw [← Except.ok.inj h, Path.toAbsolute_eq_self hn]

theorem absoluteName_of_absolute {w : World} {n : Nominal} (hn : n.path.absolute = true)
    (scope : Option Path) : w.absoluteName scope n = n := by
  cases scope with
  | none =>
    rw [absoluteName_none, Nominal.toAbsolute, Path.toAbsolute_eq_self hn, Nominal.withPath_self]
  | some s =>
    simp only [absoluteName]
    split
    · next hp => rw [path_of_locate_of_absolute hn hp, Nominal.withPath_self]
    · rfl

/-- A type with absolute names stays as it is. -/
theorem absoluteTy_of_absolute {w : World} {t : Ty} (ht : ∀ n ∈ t.names, n.path.absolute = true)
    (scope : Option Path) : w.absoluteTy scope t = t :=
  (Ty.mapNames_congr fun n hn => absoluteName_of_absolute (ht n hn) scope).trans (Ty.mapNames_id t)

end World

end MixinTypes
