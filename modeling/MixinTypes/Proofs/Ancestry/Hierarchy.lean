import Mathlib.Data.List.Nodup
import MixinTypes.Proofs.Ancestry.Search
import MixinTypes.Proofs.Linking.Dependency

/-!
# The hierarchy above a declaration

What a class or module builds on is written in its declaration: a superclass, which is `object` where a class
names none, and the modules that it includes. `BuildsOn` reads this off, one name at a time, each in the scope
of the declaration; a name that does not resolve there leads nowhere.

1. One step of the search follows exactly these names (`mem_parents_iff_buildsOn`).
2. The search only adds to the end of what it has seen, and never what it has seen already, so its list begins
   where it started and repeats nothing (`isPrefix_visit`, `nodup_visit`).
3. So the ancestors list the hierarchy above a declaration, whatever cycles and gaps it has
   (`ancestors_enumerate`).
-/

namespace MixinTypes.World

variable {w : World} {p q : Path} {seen stack : List Path}

/-- What is declared at the first path names what is declared at the second, as its superclass or as a module
that it includes. -/
inductive BuildsOn (w : World) : Path → Path → Prop where
  | superclass {c d : Constant} {s : Option Applied} (declared : c ∈ w.decls.constants)
      (isClass : c.body = .cls s) (notRoot : c.path ≠ w.roots.basicObject)
      (resolved : w.decls.find (some c.path) (w.superclassPath s) = .ok d) : BuildsOn w c.path d.path
  | included {c d : Constant} {a : Applied} (declared : c ∈ w.decls.constants)
      (member : .included a ∈ c.members) (resolved : w.decls.find (some c.path) a.path = .ok d) :
      BuildsOn w c.path d.path

theorem mem_parents_of_mem {c d : Constant} {a : Applied} (hc : c ∈ w.decls.constants)
    (ha : a ∈ (w.base? c).toList ++ c.includes) (hd : w.decls.find (some c.path) a.path = .ok d) :
    d.path ∈ w.parents c.path := by
  have hat := Declarations.constantAt?_eq_some_iff.mpr ⟨hc, rfl⟩
  exact (mem_parents_iff hat).mpr ⟨a, ha, d, Declarations.find_eq_ok_iff.mp hd, rfl⟩

/-- The parents of a declaration are what it builds on. -/
theorem mem_parents_iff_buildsOn : q ∈ w.parents p ↔ w.BuildsOn p q := by
  constructor
  · intro hq
    obtain ⟨c, hc⟩ := exists_constantAt?_of_mem_parents hq
    obtain ⟨a, ha, d, hd, rfl⟩ := (mem_parents_iff hc).mp hq
    obtain ⟨hmem, rfl⟩ := Declarations.constantAt?_eq_some_iff.mp hc
    rw [← Declarations.find_eq_ok_iff] at hd
    rcases List.mem_append.mp ha with ha | ha
    · obtain ⟨s, hs, hroot, hpath⟩ := (mem_map_base? (f := fun p => p)).mp (List.mem_map_of_mem ha)
      exact .superclass hmem hs hroot (hpath ▸ hd)
    · exact .included hmem (Constant.mem_includes.mp ha) hd
  · rintro (⟨hc, hs, hroot, hd⟩ | ⟨hc, ha, hd⟩)
    · obtain ⟨a, ha, hpath⟩ := List.mem_map.mp ((mem_map_base? (f := fun p => p)).mpr ⟨_, hs, hroot, rfl⟩)
      exact mem_parents_of_mem hc (List.mem_append_left _ ha) (hpath ▸ hd)
    · exact mem_parents_of_mem hc (List.mem_append_right _ (Constant.mem_includes.mpr ha)) hd

/-- What has been seen stays where it is. -/
theorem isPrefix_visit (w : World) (seen stack : List Path) : seen <+: w.visit seen stack := by
  induction seen, stack using visit.induct w with
  | case1 seen => simp only [visit, List.prefix_rfl]
  | case2 seen r stack hr ih => rwa [visit, if_pos hr]
  | case3 seen r stack hr ih =>
    rw [visit, if_neg hr]
    exact (List.prefix_append seen [r]).trans ih

/-- Nothing is seen twice. -/
theorem nodup_visit (h : seen.Nodup) : (w.visit seen stack).Nodup := by
  induction seen, stack using visit.induct w with
  | case1 seen => rwa [visit]
  | case2 seen r stack hr ih =>
    rw [visit, if_pos hr]
    exact ih h
  | case3 seen r stack hr ih =>
    have hconcat : (seen ++ [r]).Nodup := List.concat_eq_append ▸ h.concat hr
    rw [visit, if_neg hr]
    exact ih hconcat

/-- The search sees first where it starts. -/
theorem head?_ancestors (w : World) (p : Path) : (w.ancestors p).head? = some p.toAbsolute := by
  -- the first step of the search is always a visit
  have hvisit : w.ancestors p = w.visit [p.toAbsolute] ((w.parents p.toAbsolute).reverse ++ []) := by
    rw [ancestors, visit, if_neg List.not_mem_nil, List.nil_append]
  obtain ⟨rest, hrest⟩ := w.isPrefix_visit [p.toAbsolute] ((w.parents p.toAbsolute).reverse ++ [])
  rw [hvisit, ← hrest]
  rfl

/-- In every collection of declarations, also one with cycles and with names that resolve to nothing, the
ancestors of a path are listed without repetition, beginning with the path itself, and are exactly what it
reaches by going any number of times from a declaration to what it builds on. -/
theorem ancestors_enumerate (w : World) (p : Path) :
    (w.ancestors p).Nodup ∧ (w.ancestors p).head? = some p.toAbsolute ∧
      ∀ q, q ∈ w.ancestors p ↔ Relation.ReflTransGen w.BuildsOn p.toAbsolute q := by
  refine ⟨nodup_visit List.nodup_nil, w.head?_ancestors p, fun q => ?_⟩
  have hstep : (fun p q => q ∈ w.parents p) = w.BuildsOn := by
    funext p q
    exact propext mem_parents_iff_buildsOn
  rw [mem_ancestors_iff, Inherits, hstep]

end MixinTypes.World
