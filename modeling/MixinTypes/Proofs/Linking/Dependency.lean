import Mathlib.Logic.Relation
import MixinTypes.World.Built

/-!
# Dependencies between names

`DependsOn` says, from the declarations alone, from which other interfaces the interface of a name is
built: those of its superclass and its mixins, each resolved in the scope of the declaration, and of
the class that its object is an instance of. `Declared` says that a name has a declaration of the kind
it needs.

1. The requests of a plan are the dependencies of its name (`dependsOn_iff`), by one lemma on the
   requests of each group of steps.
2. A built name has a declaration, and so has everything it depends on, at any distance
   (`Built.of_reaches`).
3. No built name depends on itself, at any distance (`Built.not_dependsOn_self`).
-/

namespace MixinTypes

namespace World

/-- The look-up that the facet of a name calls for, without a scope, finds a declaration. -/
def Declared (w : World) (n : Nominal) : Prop :=
  match n.facet with
  | .instances => ∃ c, w.decls.find none n.path = .ok c
  | .moduleObject => ∃ c, w.decls.findKind .mod none n.path = .ok c
  | .classObject _ => ∃ c, w.decls.findKind .cls none n.path = .ok c
  | .protocol => ∃ p, w.decls.findProtocol n.path = .ok p

/-- The path that a class gives for its superclass, that of `object` when it gives none. -/
def superclassPath (w : World) (superclass : Option Applied) : Path :=
  (superclass.map Applied.path).getD w.roots.object

/-- The interface of the first name is built from that of the second. -/
inductive DependsOn (w : World) : Nominal → Nominal → Prop where
  | superclass {p : Path} {c : Constant} {s : Option Applied} (found : w.decls.find none p = .ok c)
      (isClass : c.body = .cls s) (notRoot : c.path ≠ w.roots.basicObject) :
      DependsOn w ⟨.instances, p⟩
        (w.absoluteName (some c.path) ⟨.instances, w.superclassPath s⟩)
  | included {p : Path} {c : Constant} {a : Applied} (found : w.decls.find none p = .ok c)
      (member : .included a ∈ c.members) :
      DependsOn w ⟨.instances, p⟩ (w.absoluteName (some c.path) ⟨.instances, a.path⟩)
  | classOfModules {p : Path} {c : Constant} (found : w.decls.findKind .mod none p = .ok c) :
      DependsOn w ⟨.moduleObject, p⟩ (w.absoluteName none ⟨.instances, w.roots.moduleClass⟩)
  | moduleIncluded {p : Path} {c : Constant} {a : Applied}
      (found : w.decls.findKind .mod none p = .ok c) (member : .included a ∈ c.members) :
      DependsOn w ⟨.moduleObject, p⟩ (w.absoluteName (some c.path) ⟨.moduleObject, a.path⟩)
  | moduleExtended {p : Path} {c : Constant} {a : Applied}
      (found : w.decls.findKind .mod none p = .ok c) (member : .extended a ∈ c.members) :
      DependsOn w ⟨.moduleObject, p⟩ (w.absoluteName (some c.path) ⟨.instances, a.path⟩)
  | classOfClasses {k : Bool} {p : Path} {c : Constant}
      (found : w.decls.findKind .cls none p = .ok c) :
      DependsOn w ⟨.classObject k, p⟩ (w.absoluteName none ⟨.instances, w.roots.classClass⟩)
  | superclassObject {k : Bool} {p : Path} {c : Constant} {s : Option Applied}
      (found : w.decls.findKind .cls none p = .ok c) (isClass : c.body = .cls s)
      (notRoot : c.path ≠ w.roots.basicObject) :
      DependsOn w ⟨.classObject k, p⟩
        (w.absoluteName (some c.path) ⟨.classObject k, w.superclassPath s⟩)
  | classIncluded {k : Bool} {p : Path} {c : Constant} {a : Applied}
      (found : w.decls.findKind .cls none p = .ok c) (member : .included a ∈ c.members) :
      DependsOn w ⟨.classObject k, p⟩ (w.absoluteName (some c.path) ⟨.moduleObject, a.path⟩)
  | classExtended {k : Bool} {p : Path} {c : Constant} {a : Applied}
      (found : w.decls.findKind .cls none p = .ok c) (member : .extended a ∈ c.members) :
      DependsOn w ⟨.classObject k, p⟩ (w.absoluteName (some c.path) ⟨.instances, a.path⟩)

/-- The second name is the first or is needed for it, directly or not. -/
abbrev Reaches (w : World) : Nominal → Nominal → Prop := Relation.ReflTransGen w.DependsOn

variable {w : World}

/-! ## The requests of groups of steps -/

theorem requests_mixinSteps (scope : Path) (facet : Facet) (a : Applied) :
    (w.mixinSteps scope facet a).filterMap Step.request? =
      [w.absoluteName (some scope) ⟨facet, a.path⟩] :=
  filterMap_mixinSteps (fun _ => rfl) scope facet a

theorem requests_defineSteps (scope : Path) (owner : Nominal) (m : MethodDecl) :
    (w.defineSteps scope owner m).filterMap Step.request? = [] :=
  filterMap_defineSteps (fun _ => rfl) scope owner m

theorem requests_selfTypeSteps (c : Constant) :
    (w.selfTypeSteps c).filterMap Step.request? = [] :=
  filterMap_selfTypeSteps (fun _ => rfl) fun _ => rfl

theorem requests_classMethodSteps (c : Constant) (constructs : Bool) (m : MethodDecl) :
    (w.classMethodSteps c constructs m).filterMap Step.request? = [] := by
  rw [filterMap_classMethodSteps (fun _ => rfl) fun _ _ => rfl]
  exact ite_self _

theorem requests_superclassSteps (c : Constant) :
    (w.superclassSteps c).filterMap Step.request? = (w.base? c).toList.map fun a =>
      w.absoluteName (some c.path) ⟨.instances, a.path⟩ := by
  rw [filterMap_superclassSteps fun _ => rfl]
  exact congrFun List.filterMap_eq_map _

theorem requests_superclassObjectSteps (c : Constant) (k : Bool) :
    (w.superclassObjectSteps c k).filterMap Step.request? = (w.base? c).toList.map fun a =>
      w.absoluteName (some c.path) ⟨.classObject k, a.path⟩ := by
  rw [filterMap_superclassObjectSteps fun _ => rfl]
  exact congrFun List.filterMap_eq_map _

theorem mem_requests_objectMixinSteps {c : Constant} {r : Nominal} :
    r ∈ (w.objectMixinSteps c).filterMap Step.request? ↔
      (∃ a, .included a ∈ c.members ∧
        r = w.absoluteName (some c.path) ⟨.moduleObject, a.path⟩) ∨
      ∃ a, .extended a ∈ c.members ∧ r = w.absoluteName (some c.path) ⟨.instances, a.path⟩ := by
  rw [objectMixinSteps, List.filterMap_flatMap, List.mem_flatMap]
  constructor
  · rintro ⟨x, hx, hr⟩
    cases x with
    | method => cases hr
    | included a =>
      simp only [requests_mixinSteps, List.mem_singleton] at hr
      exact .inl ⟨a, hx, hr⟩
    | extended a =>
      simp only [requests_mixinSteps, List.mem_singleton] at hr
      exact .inr ⟨a, hx, hr⟩
  · rintro (⟨a, ha, hr⟩ | ⟨a, ha, hr⟩)
    · exact ⟨_, ha, by simp only [requests_mixinSteps, List.mem_singleton]; exact hr⟩
    · exact ⟨_, ha, by simp only [requests_mixinSteps, List.mem_singleton]; exact hr⟩

/-- The superclass of a class other than the root one, as it is written or `object`. -/
theorem mem_map_base? {c : Constant} {f : Path → α} {r : α} :
    r ∈ (w.base? c).toList.map (fun a => f a.path) ↔
      ∃ s, c.body = .cls s ∧ c.path ≠ w.roots.basicObject ∧ r = f (w.superclassPath s) := by
  unfold base?
  split
  · next h => simp [h]
  · next s h =>
    have hs : (s.getD ⟨w.roots.object, []⟩).path = w.superclassPath s := by cases s <;> rfl
    rw [h]
    by_cases hr : c.path = w.roots.basicObject
    · simp [hr]
    · simp [hr, hs]

/-! ## The requests of plans -/

theorem requests_instancePlan (c : Constant) :
    (w.instancePlan c).requests = ((w.base? c).toList ++ c.includes).map fun a =>
      w.absoluteName (some c.path) ⟨.instances, a.path⟩ := by
  have included : (c.includes.flatMap (w.mixinSteps c.path .instances)).filterMap Step.request? =
      c.includes.map fun a => w.absoluteName (some c.path) ⟨.instances, a.path⟩ := by
    rw [List.filterMap_flatMap, List.map_eq_flatMap]
    simp only [requests_mixinSteps]
  rw [List.map_append, ← requests_superclassSteps, ← included]
  simp [instancePlan, Plan.requests, requests_selfTypeSteps, List.filterMap_flatMap,
    requests_defineSteps]

theorem mem_requests_instancePlan {c : Constant} {r : Nominal} :
    r ∈ (w.instancePlan c).requests ↔
      (∃ s, c.body = .cls s ∧ c.path ≠ w.roots.basicObject ∧
        r = w.absoluteName (some c.path) ⟨.instances, w.superclassPath s⟩) ∨
      ∃ a, .included a ∈ c.members ∧ r = w.absoluteName (some c.path) ⟨.instances, a.path⟩ := by
  have included : r ∈ (c.includes.map fun a => w.absoluteName (some c.path) ⟨.instances, a.path⟩) ↔
      ∃ a, .included a ∈ c.members ∧ r = w.absoluteName (some c.path) ⟨.instances, a.path⟩ := by
    simp only [List.mem_map, Constant.mem_includes, eq_comm]
  rw [requests_instancePlan, List.map_append, List.mem_append, included,
    ← mem_map_base? (f := fun p => w.absoluteName (some c.path) ⟨.instances, p⟩)]

theorem mem_requests_modulePlan {c : Constant} {r : Nominal} :
    r ∈ (w.modulePlan c).requests ↔
      r = w.absoluteName none ⟨.instances, w.roots.moduleClass⟩ ∨
      r ∈ (w.objectMixinSteps c).filterMap Step.request? := by
  simp [modulePlan, Plan.requests, requests_selfTypeSteps, List.filterMap_flatMap,
    requests_defineSteps, Step.request?, Nominal.toAbsolute, Nominal.withPath]

theorem requests_classPlan (c : Constant) (k : Bool) :
    (w.classPlan k c).requests = w.absoluteName none ⟨.instances, w.roots.classClass⟩ ::
      ((w.base? c).toList.map (fun a => w.absoluteName (some c.path) ⟨.classObject k, a.path⟩) ++
        (w.objectMixinSteps c).filterMap Step.request?) := by
  have dropped : (if k then [] else [Step.drop "new"]).filterMap Step.request? = [] := by
    cases k <;> rfl
  rw [← requests_superclassObjectSteps]
  simp [classPlan, Plan.requests, List.filterMap_flatMap, requests_classMethodSteps, dropped,
    Step.request?, Nominal.toAbsolute, Nominal.withPath]

theorem mem_requests_classPlan {c : Constant} {k : Bool} {r : Nominal} :
    r ∈ (w.classPlan k c).requests ↔
      r = w.absoluteName none ⟨.instances, w.roots.classClass⟩ ∨
      (∃ s, c.body = .cls s ∧ c.path ≠ w.roots.basicObject ∧
        r = w.absoluteName (some c.path) ⟨.classObject k, w.superclassPath s⟩) ∨
      r ∈ (w.objectMixinSteps c).filterMap Step.request? := by
  rw [← mem_map_base? (f := fun p => w.absoluteName (some c.path) ⟨.classObject k, p⟩),
    requests_classPlan, List.mem_cons, List.mem_append]

theorem requests_protocolPlan (q : Protocol) : (w.protocolPlan q).requests = [] := by
  simp [protocolPlan, Plan.requests, Step.request?]

/-! ## Dependencies are requests -/

theorem plan_instances {p : Path} {c : Constant} (h : w.decls.find none p = .ok c) :
    w.plan ⟨.instances, p⟩ = .ok (w.instancePlan c) := by
  unfold plan; rw [h]; rfl

/-- Instances of a declared constant are built by its plan. -/
theorem exists_assemble_of_built {c : Constant} {i : Interface}
    (hc : w.decls.constantAt? c.path = some c) (h : Built w ⟨.instances, c.path⟩ i) :
    ∃ found, (∀ r ∈ (w.instancePlan c).requests, Built w r (found r)) ∧
      i = (w.instancePlan c).assemble found := by
  have hplan := plan_instances (Declarations.find_path_of_constantAt? hc none)
  cases h with
  | intro found hp hb =>
    obtain rfl := Except.ok.inj (hplan.symm.trans hp)
    exact ⟨found, hb, rfl⟩

theorem plan_moduleObject {p : Path} {c : Constant} (h : w.decls.findKind .mod none p = .ok c) :
    w.plan ⟨.moduleObject, p⟩ = .ok (w.modulePlan c) := by
  unfold plan; rw [h]; rfl

theorem plan_classObject {p : Path} {c : Constant} {k : Bool}
    (h : w.decls.findKind .cls none p = .ok c) :
    w.plan ⟨.classObject k, p⟩ = .ok (w.classPlan k c) := by
  unfold plan; rw [h]; rfl

theorem exists_map_eq_ok_iff {f : α → β} {e : Except ε α} :
    (∃ b, e.map f = .ok b) ↔ ∃ a, e = .ok a := by
  constructor
  · rintro ⟨b, hb⟩
    obtain ⟨a, ha, -⟩ := exists_of_map_eq_ok hb
    exact ⟨a, ha⟩
  · rintro ⟨a, rfl⟩
    exact ⟨f a, rfl⟩

/-- The declared names are those with a plan. -/
theorem declared_iff {n : Nominal} : w.Declared n ↔ ∃ p, w.plan n = .ok p := by
  obtain ⟨facet, path⟩ := n
  cases facet with
  | instances => exact exists_map_eq_ok_iff.symm
  | moduleObject => exact exists_map_eq_ok_iff.symm
  | classObject k => exact exists_map_eq_ok_iff.symm
  | protocol => exact exists_map_eq_ok_iff.symm

theorem DependsOn.exists_request {n r : Nominal} (h : w.DependsOn n r) :
    ∃ p, w.plan n = .ok p ∧ r ∈ p.requests := by
  cases h with
  | superclass hc hb hr =>
    exact ⟨_, plan_instances hc, mem_requests_instancePlan.mpr (.inl ⟨_, hb, hr, rfl⟩)⟩
  | included hc ha =>
    exact ⟨_, plan_instances hc, mem_requests_instancePlan.mpr (.inr ⟨_, ha, rfl⟩)⟩
  | classOfModules hc => exact ⟨_, plan_moduleObject hc, mem_requests_modulePlan.mpr (.inl rfl)⟩
  | moduleIncluded hc ha =>
    exact ⟨_, plan_moduleObject hc, mem_requests_modulePlan.mpr
      (.inr (mem_requests_objectMixinSteps.mpr (.inl ⟨_, ha, rfl⟩)))⟩
  | moduleExtended hc ha =>
    exact ⟨_, plan_moduleObject hc, mem_requests_modulePlan.mpr
      (.inr (mem_requests_objectMixinSteps.mpr (.inr ⟨_, ha, rfl⟩)))⟩
  | classOfClasses hc => exact ⟨_, plan_classObject hc, mem_requests_classPlan.mpr (.inl rfl)⟩
  | superclassObject hc hb hr =>
    exact ⟨_, plan_classObject hc, mem_requests_classPlan.mpr (.inr (.inl ⟨_, hb, hr, rfl⟩))⟩
  | classIncluded hc ha =>
    exact ⟨_, plan_classObject hc, mem_requests_classPlan.mpr
      (.inr (.inr (mem_requests_objectMixinSteps.mpr (.inl ⟨_, ha, rfl⟩))))⟩
  | classExtended hc ha =>
    exact ⟨_, plan_classObject hc, mem_requests_classPlan.mpr
      (.inr (.inr (mem_requests_objectMixinSteps.mpr (.inr ⟨_, ha, rfl⟩))))⟩

theorem dependsOn_of_request {n r : Nominal} {p : Plan} (hp : w.plan n = .ok p)
    (hr : r ∈ p.requests) : w.DependsOn n r := by
  obtain ⟨facet, path⟩ := n
  cases facet with
  | instances =>
    obtain ⟨c, hc, rfl⟩ := exists_of_map_eq_ok hp
    rcases mem_requests_instancePlan.mp hr with ⟨s, hs, hn, rfl⟩ | ⟨a, ha, rfl⟩
    · exact .superclass hc hs hn
    · exact .included hc ha
  | moduleObject =>
    obtain ⟨c, hc, rfl⟩ := exists_of_map_eq_ok hp
    rcases mem_requests_modulePlan.mp hr with rfl | hr
    · exact .classOfModules hc
    · rcases mem_requests_objectMixinSteps.mp hr with ⟨a, ha, rfl⟩ | ⟨a, ha, rfl⟩
      · exact .moduleIncluded hc ha
      · exact .moduleExtended hc ha
  | classObject k =>
    obtain ⟨c, hc, rfl⟩ := exists_of_map_eq_ok hp
    rcases mem_requests_classPlan.mp hr with rfl | ⟨s, hs, hn, rfl⟩ | hr
    · exact .classOfClasses hc
    · exact .superclassObject hc hs hn
    · rcases mem_requests_objectMixinSteps.mp hr with ⟨a, ha, rfl⟩ | ⟨a, ha, rfl⟩
      · exact .classIncluded hc ha
      · exact .classExtended hc ha
  | protocol =>
    obtain ⟨q, -, rfl⟩ := exists_of_map_eq_ok hp
    rw [requests_protocolPlan] at hr
    cases hr

theorem dependsOn_of_split {n r : Nominal} {p : Plan} {before after : List Nominal}
    (hp : w.plan n = .ok p) (split : p.requests = before ++ r :: after) : w.DependsOn n r := by
  refine dependsOn_of_request hp ?_
  rw [split]
  exact List.mem_append_right _ (List.mem_cons_self ..)

/-- A name depends on the requests of its plan. -/
theorem dependsOn_iff {n r : Nominal} :
    w.DependsOn n r ↔ ∃ p, w.plan n = .ok p ∧ r ∈ p.requests :=
  ⟨DependsOn.exists_request, fun ⟨_, hp, hr⟩ => dependsOn_of_request hp hr⟩

end World

/-! ## Built names -/

namespace Built

variable {w : World} {n r : Nominal} {i : Interface}

theorem declared (h : Built w n i) : w.Declared n := by
  cases h with
  | intro _ hp _ => exact World.declared_iff.mpr ⟨_, hp⟩

/-- Whatever a built name depends on is built. -/
theorem of_dependsOn (h : Built w n i) (hr : w.DependsOn n r) : ∃ j, Built w r j := by
  obtain ⟨q, hq, hmem⟩ := World.dependsOn_iff.mp hr
  cases h with
  | intro found hp hb =>
    rw [hp] at hq
    cases hq
    exact ⟨_, hb r hmem⟩

theorem of_reaches (h : Built w n i) (hr : w.Reaches n r) : ∃ j, Built w r j := by
  induction hr with
  | refl => exact ⟨i, h⟩
  | tail _ hstep ih =>
    obtain ⟨j, hj⟩ := ih
    exact hj.of_dependsOn hstep

/-- A built name does not depend on itself, at any distance: by induction on how it was built, any
cycle through it is one through a name that it depends on. -/
theorem not_dependsOn_self (h : Built w n i) : ¬ Relation.TransGen w.DependsOn n n := by
  induction h with
  | @intro n p found hp hb ih =>
    intro hcycle
    obtain ⟨r, hstep, hback⟩ := Relation.TransGen.head'_iff.mp hcycle
    obtain ⟨q, hq, hmem⟩ := World.dependsOn_iff.mp hstep
    rw [hp] at hq
    cases hq
    exact ih r hmem (Relation.TransGen.tail' hback hstep)

end Built

end MixinTypes
