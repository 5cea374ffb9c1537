import Mathlib.Data.List.Forall2
import MixinTypes.World.Link

/-!
# Absolute types are stable

To make a type absolute is to replace the paths of its names, each by what is found for its kind of name in the
scope. What is found has an absolute path and is found again at that path; what is not found stays as it is
written, and is not found a second time either. So a type that has been made absolute in a scope is left alone
there, and one whose names have all become absolute is left alone in every scope.

1. Replacing names keeps the shape of a type (`Ty.sameShape_mapNames`).
2. A name that has been located is located at its own path, from everywhere (`locate_withPath`). With the names
   that fail as before, making a name absolute again gives the name and its failure (`absoluteName_absoluteName`,
   `unresolved?_absoluteName`).
3. Both go from names to types, whose names are those of the type before, one by one (`absoluteTy_absoluteTy`,
   `unresolvedIn_absoluteTy`); `resolveTy_stable` says it of the operation that also takes notes.
-/

namespace MixinTypes

namespace Ty

/-- The two types differ in the paths of their names only: they are built alike from the same variables, with as
many arguments and members each, and the names speak of the same facets. -/
inductive SameShape : Ty → Ty → Prop where
  | any : SameShape .any .any
  | var (name : String) : SameShape (.var name) (.var name)
  | self : SameShape .self .self
  | inst : SameShape .inst .inst
  | cls : SameShape .cls .cls
  | named {m n : Nominal} {as bs : List Ty} (facet : m.facet = n.facet) (args : List.Forall₂ SameShape as bs) :
      SameShape (.named m as) (.named n bs)
  | union {as bs : List Ty} (members : List.Forall₂ SameShape as bs) : SameShape (.union as) (.union bs)
  | inter {as bs : List Ty} (members : List.Forall₂ SameShape as bs) : SameShape (.inter as) (.inter bs)

theorem sameShape_mapNames {f : Nominal → Nominal} (hf : ∀ n, (f n).facet = n.facet) (t : Ty) :
    t.SameShape (t.mapNames f) := by
  have list : ∀ {ts : List Ty}, (∀ t ∈ ts, t.SameShape (t.mapNames f)) →
      List.Forall₂ SameShape ts (ts.map (mapNames f)) := by
    intro ts h
    rw [List.forall₂_map_right_iff, List.forall₂_same]
    exact h
  induction t using Ty.induction with
  | any => exact .any
  | var name => exact .var name
  | self => exact .self
  | inst => exact .inst
  | cls => exact .cls
  | named name args ih =>
    rw [mapNames, mapNamesList_eq]
    exact .named (hf name).symm (list ih)
  | union ts ih =>
    rw [mapNames, mapNamesList_eq]
    exact .union (list ih)
  | inter ts ih =>
    rw [mapNames, mapNamesList_eq]
    exact .inter (list ih)

end Ty

namespace World

variable {w : World} {n : Nominal}

/-! ## Names -/

/-- What a name speaks of in one scope is what its own path speaks of in every scope. -/
theorem locate_withPath {scope p : Path} (h : w.locate scope n = .ok p) (scope' : Path) :
    w.locate scope' (n.withPath p) = .ok p := by
  have again : ∀ {c}, w.decls.find (some scope) n.path = .ok c →
      w.decls.find (some scope') c.path = .ok c := by
    intro c hc
    have hat := Declarations.constantAt?_of_resolve? (Declarations.find_eq_ok_iff.mp hc)
    exact Declarations.find_path_of_constantAt? hat (some scope')
  have againKind : ∀ {kind c}, w.decls.findKind kind (some scope) n.path = .ok c →
      w.decls.findKind kind (some scope') c.path = .ok c := by
    intro kind c hc
    obtain ⟨hfind, hkind⟩ := Declarations.findKind_eq_ok_iff.mp hc
    exact Declarations.findKind_eq_ok_iff.mpr ⟨again hfind, hkind⟩
  obtain ⟨facet, path⟩ := n
  cases facet with
  | instances =>
    obtain ⟨c, hc, rfl⟩ := exists_of_map_eq_ok h
    exact congrArg (Except.map Constant.path) (again hc)
  | moduleObject | classObject =>
    obtain ⟨c, hc, rfl⟩ := exists_of_map_eq_ok h
    exact congrArg (Except.map Constant.path) (againKind hc)
  | protocol =>
    have hp : path.toAbsolute = p := Except.ok.inj h
    change Except.ok p.toAbsolute = _
    rw [← hp, Path.toAbsolute_eq_self (Path.toAbsolute_absolute path)]

theorem absoluteName_absoluteName (w : World) (scope : Option Path) (n : Nominal) :
    w.absoluteName scope (w.absoluteName scope n) = w.absoluteName scope n := by
  cases h : w.unresolved? scope n with
  | none => exact absoluteName_of_absolute (absolute_absoluteName h) scope
  | some u =>
    have hkept := absoluteName_of_unresolved? h
    rw [hkept, hkept]

/-- A failure is repeated, and nothing else fails. -/
theorem unresolved?_absoluteName (w : World) (scope : Option Path) (n : Nominal) :
    w.unresolved? scope (w.absoluteName scope n) = w.unresolved? scope n := by
  cases h : w.unresolved? scope n with
  | some u => rw [absoluteName_of_unresolved? h, h]
  | none =>
    cases scope with
    | none => rfl
    | some s =>
      obtain ⟨p, hp⟩ := unresolved?_eq_none_iff.mp h
      rw [absoluteName_of_locate hp, unresolved?_eq_none_iff]
      exact ⟨p, locate_withPath hp s⟩

/-! ## Types -/

theorem absoluteTy_absoluteTy (w : World) (scope : Option Path) (t : Ty) :
    w.absoluteTy scope (w.absoluteTy scope t) = w.absoluteTy scope t := by
  unfold absoluteTy
  rw [Ty.mapNames_mapNames]
  exact Ty.mapNames_congr fun n _ => w.absoluteName_absoluteName scope n

theorem unresolvedIn_absoluteTy (w : World) (scope : Option Path) (t : Ty) :
    w.unresolvedIn scope (w.absoluteTy scope t) = w.unresolvedIn scope t := by
  unfold unresolvedIn absoluteTy
  rw [Ty.names_mapNames, List.filterMap_map]
  exact List.filterMap_congr fun n _ => w.unresolved?_absoluteName scope n

/-- Making a type absolute keeps its shape. Doing so again in the same scope changes nothing, and the notes taken
are the same again. When all names have become absolute, nothing changes in any other scope either. -/
theorem resolveTy_stable (w : World) (scope : Option Path) (t : Ty) (m : Memo w) :
    t.SameShape (w.resolveTy scope t m).1 ∧
      (∀ m', w.resolveTy scope (w.resolveTy scope t m).1 m' =
        ((w.resolveTy scope t m).1, (w.resolveTy scope t m').2)) ∧
      ((∀ n ∈ (w.resolveTy scope t m).1.names, n.path.absolute = true) →
        ∀ scope' m', (w.resolveTy scope' (w.resolveTy scope t m).1 m').1 = (w.resolveTy scope t m).1) := by
  refine ⟨Ty.sameShape_mapNames (w.absoluteName_facet scope) t, fun m' => ?_, fun h scope' m' => ?_⟩
  · unfold resolveTy
    rw [absoluteTy_absoluteTy, unresolvedIn_absoluteTy]
  · exact absoluteTy_of_absolute h scope'

end World

end MixinTypes
