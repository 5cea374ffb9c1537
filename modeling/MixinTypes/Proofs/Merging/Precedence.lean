import MixinTypes.Proofs.Construction.Indifference
import MixinTypes.Proofs.Merging.Chains

/-!
# Own declarations come first

One side of a class or module is put together in two parts. First its sources are merged: the class that an
object is an instance of, the superclass, the mixins. Then what is declared for the side is put over what
has come of that. A definition is left out when something in the chain below is `==` to it, and then it has
the same owner. But the owners below are names that the interface is built from, and no interface is built
from itself. So a declaration that is the only one under its name is always on top.

1. The first part is a sequence of merges (`foldl_apply_gathers`); in the second, definitions are put over
   each other name by name (`get?_foldl_apply_settles`).
2. The merges of a plan and its definitions are the sources and the declarations of its side
   (`exists_parts_of_plan`).
3. No definition that comes with a source belongs to the name that is built (`owned_mergeAll`), so the first
   declaration under a name is added (`Method.atop_of_owned`, `own_declaration_wins`).
-/

namespace MixinTypes

/-! ## Definitions over definitions -/

namespace Method

/-- What is there under a name once definitions have been put over it one after another. -/
def stack (base? : Option Method) (ds : List Definition) : Option Method :=
  ds.foldl (fun base? d => some ((ofDefinition d).atop base?)) base?

theorem stack_append (base? : Option Method) (ds ds' : List Definition) :
    stack base? (ds ++ ds') = stack (stack base? ds) ds' :=
  List.foldl_append

/-- A definition is added to methods that other names own: to be covered it would have to be `==` to one of
theirs. -/
theorem atop_of_owned {d : Definition} {base? : Option Method}
    (h : ∀ base, base? = some base → ∀ d' ∈ base.chain, d'.owner ≠ d.owner) :
    (ofDefinition d).atop base? = ⟨d, base?.elim [] chain⟩ := by
  cases base? with
  | none => rfl
  | some base =>
    have hcovers : base.covers d = false := by
      rw [Bool.eq_false_iff]
      intro hcovers
      obtain ⟨d', hd', heq⟩ := covers_iff.mp hcovers
      exact h base rfl d' hd' (Definition.owner_eq_of_beq heq)
    change (if base.covers d then base else (ofDefinition d).onto base) = _
    rw [hcovers]
    rfl

end Method

/-! ## The two parts of a plan -/

/-- The methods that are there once interfaces have been merged one after another, each applied to its
arguments. -/
def MethodTable.mergeAll (found : Nominal → Interface) (t : MethodTable)
    (sources : List (Nominal × List Ty)) : MethodTable :=
  sources.foldl (fun t s => (Gathered.merge ⟨t, []⟩ (found s.1) s.2).methods) t

theorem MethodTable.owned_mergeAll {P : Nominal → Prop} {found : Nominal → Interface} {t : MethodTable}
    {sources : List (Nominal × List Ty)} (ht : t.Owned P)
    (h : ∀ s ∈ sources, (found s.1).methods.Owned P) : (t.mergeAll found sources).Owned P := by
  induction sources generalizing t with
  | nil => exact ht
  | cons s sources ih =>
    obtain ⟨hs, h⟩ := List.forall_mem_cons.mp h
    exact ih (Gathered.all_merge (g := ⟨t, []⟩) ht (hs.subst _)) h

/-- The definition that a step puts over what is there. -/
def Step.definition? : Step → Option Definition
  | .define d => some d
  | _ => none

namespace World

variable {w : World} {n r q : Nominal} {p : Plan} {c : Constant} {i : Interface} {name : String}
  {found : Nominal → Interface} {g : Gathered} {s : Step} {ss : List Step} {facet : Facet}

/-- The first part does nothing to methods but merge. -/
theorem foldl_apply_gathers (hs : ∀ s ∈ ss, Gathers s) :
    (ss.foldl (Step.apply found) g).methods = g.methods.mergeAll found (ss.filterMap Step.source?) := by
  induction ss generalizing g with
  | nil => rfl
  | cons s ss ih =>
    obtain ⟨hgathers, hs⟩ := List.forall_mem_cons.mp hs
    rw [List.foldl_cons, ih hs]
    cases s with
    | note | constrain | seed | mix => rfl
    | define | put | drop => exact hgathers.elim

theorem get?_apply_settles (hs : Settles facet s) (hfacet : facet ≠ .protocol) (hname : name ≠ "new") :
    (s.apply found g).methods.get? name =
      Method.stack (g.methods.get? name) (s.definition?.toList.filter fun d => d.name = name) := by
  cases s with
  | note => rfl
  | define d =>
    have hget := g.methods.get?_override d.name name (.ofDefinition d)
    by_cases h : d.name = name
    · subst h
      rw [if_pos rfl] at hget
      rw [Step.definition?, Option.toList_some, List.filter_cons_of_pos (by simp)]
      exact hget
    · rw [if_neg h] at hget
      rw [Step.definition?, Option.toList_some, List.filter_cons_of_neg (by simpa using h)]
      exact hget
  | put d =>
    have hnew : d.name = "new" := hs.resolve_right hfacet
    exact (Table.get?_insert ..).trans (if_neg fun h => hname (h.symm.trans hnew))
  | drop dropped => exact (Table.get?_erase ..).trans (if_neg fun h => hname (h.symm.trans hs.1))
  | seed | mix | constrain => exact hs.elim

/-- In the second part the definitions of a name are put over what is there under it. -/
theorem get?_foldl_apply_settles (hs : ∀ s ∈ ss, Settles facet s) (hfacet : facet ≠ .protocol)
    (hname : name ≠ "new") :
    (ss.foldl (Step.apply found) g).methods.get? name =
      Method.stack (g.methods.get? name)
        ((ss.filterMap Step.definition?).filter fun d => d.name = name) := by
  induction ss generalizing g with
  | nil => rfl
  | cons s ss ih =>
    obtain ⟨hsettles, hs⟩ := List.forall_mem_cons.mp hs
    have hdefinitions : (s :: ss).filterMap Step.definition? =
        s.definition?.toList ++ ss.filterMap Step.definition? := by
      rw [List.filterMap_cons]
      cases s.definition? <;> rfl
    rw [List.foldl_cons, ih hs, get?_apply_settles hsettles hfacet hname, hdefinitions, List.filter_append,
      Method.stack_append]

/-- The two parts together: under a name other than `new` the definitions of the plan are put over what
comes with the interfaces that it merges. -/
theorem get?_assemble (hp : w.plan n = .ok p) (hn : n.facet ≠ .protocol) (hname : name ≠ "new") :
    (p.assemble found).methods.get? name =
      Method.stack ((MethodTable.mergeAll found .empty (p.steps.filterMap Step.source?)).get? name)
        ((p.steps.filterMap Step.definition?).filter fun d => d.name = name) := by
  obtain ⟨merging, own, hsteps, hmerging, hown⟩ := exists_gathers_settles hp
  have hsources : own.filterMap Step.source? = [] :=
    List.filterMap_eq_nil_iff.mpr fun s hs => (hown s hs).source?
  have hdefinitions : merging.filterMap Step.definition? = [] := by
    refine List.filterMap_eq_nil_iff.mpr fun s hs => ?_
    cases s with
    | define => exact (hmerging _ hs).elim
    | _ => rfl
  change ((p.steps.foldl (Step.apply found) .empty).methods).get? name = _
  rw [hsteps, List.foldl_append, get?_foldl_apply_settles hown hn hname, foldl_apply_gathers hmerging,
    List.filterMap_append, List.filterMap_append, hsources, hdefinitions, List.append_nil, List.nil_append]
  rfl

/-! ## Sources and declarations -/

/-- One side of what is applied in a scope, with the types that it is applied to. -/
def source (w : World) (scope : Path) (facet : Facet) (a : Applied) : Nominal × List Ty :=
  (w.absoluteName (some scope) ⟨facet, a.path⟩, a.args.map (w.absoluteTy (some scope)))

/-- The mixins of a module or class object: the object sides of what is included and the instance sides of
what is extended. -/
def objectMixins (w : World) (c : Constant) : List (Nominal × List Ty) :=
  c.members.flatMap fun
    | .method _ => []
    | .included a => [w.source c.path .moduleObject a]
    | .extended a => [w.source c.path .instances a]

/-- What one side of a constant is built from: the class that an object is an instance of, the superclass
and the mixins, in this order. -/
def sources (w : World) (c : Constant) : Facet → List (Nominal × List Ty)
  | .instances => ((w.base? c).toList ++ c.includes).map (w.source c.path .instances)
  | .moduleObject => (⟨.instances, w.roots.moduleClass.toAbsolute⟩, []) :: w.objectMixins c
  | .classObject k =>
    (⟨.instances, w.roots.classClass.toAbsolute⟩, [.inst]) ::
      ((w.base? c).toList.map fun a => w.source c.path (.classObject k) ⟨a.path, []⟩) ++ w.objectMixins c
  | .protocol => []

/-- What is declared for one side of a constant: by its own methods of that side and, for instances, by its
extensions. -/
def declaredMethods (w : World) (c : Constant) : Facet → List MethodDecl
  | .instances =>
    c.methods.filter MethodDecl.onInstances
      ++ (w.decls.extensionsOf c.path).flatMap fun e => e.methods.filter MethodDecl.onInstances
  | .moduleObject | .classObject _ => c.methods.filter MethodDecl.onObject
  | .protocol => []

theorem sources_objectMixinSteps :
    (w.objectMixinSteps c).filterMap Step.source? = w.objectMixins c := by
  rw [objectMixinSteps, List.filterMap_flatMap, objectMixins]
  refine List.flatMap_congr fun member _ => ?_
  cases member with
  | method => rfl
  | included a => exact filterMap_mixinSteps (fun _ => rfl) c.path .moduleObject a
  | extended a => exact filterMap_mixinSteps (fun _ => rfl) c.path .instances a

theorem sources_defineSteps (scope : Path) (owner : Nominal) (ms : List MethodDecl) :
    (ms.flatMap (w.defineSteps scope owner)).filterMap Step.source? = [] := by
  rw [List.filterMap_flatMap, List.flatMap_eq_nil_iff]
  exact fun m _ => filterMap_defineSteps (fun _ => rfl) scope owner m

theorem definitions_defineSteps (scope : Path) (owner : Nominal) (ms : List MethodDecl) :
    (ms.flatMap (w.defineSteps scope owner)).filterMap Step.definition? =
      ms.map (w.definition (some scope) owner) := by
  rw [List.filterMap_flatMap, List.map_eq_flatMap]
  exact List.flatMap_congr fun m _ => filterMap_defineSteps (fun _ => rfl) scope owner m

theorem sources_instancePlan :
    (w.instancePlan c).steps.filterMap Step.source? = w.sources c .instances := by
  have included : (c.includes.flatMap (w.mixinSteps c.path .instances)).filterMap Step.source? =
      c.includes.map (w.source c.path .instances) := by
    rw [List.filterMap_flatMap, List.map_eq_flatMap]
    exact List.flatMap_congr fun a _ => filterMap_mixinSteps (fun _ => rfl) c.path .instances a
  have superclass : (w.superclassSteps c).filterMap Step.source? =
      (w.base? c).toList.map (w.source c.path .instances) := by
    rw [filterMap_superclassSteps fun _ => rfl]
    exact congrFun List.filterMap_eq_map _
  simp only [instancePlan, List.filterMap_append, superclass, included, sources_defineSteps,
    filterMap_selfTypeSteps (f := Step.source?) (fun _ => rfl) (fun _ => rfl), List.append_nil, sources,
    List.map_append]

theorem sources_modulePlan :
    (w.modulePlan c).steps.filterMap Step.source? = w.sources c .moduleObject := by
  simp only [modulePlan, List.filterMap_append, sources_objectMixinSteps, sources_defineSteps,
    filterMap_selfTypeSteps (f := Step.source?) (fun _ => rfl) (fun _ => rfl), List.append_nil,
    List.nil_append, sources]
  rfl

theorem sources_classPlan (k : Bool) :
    (w.classPlan k c).steps.filterMap Step.source? = w.sources c (.classObject k) := by
  have superclass : (w.superclassObjectSteps c k).filterMap Step.source? =
      (w.base? c).toList.map fun a => w.source c.path (.classObject k) ⟨a.path, []⟩ := by
    rw [filterMap_superclassObjectSteps fun _ => rfl]
    exact congrFun List.filterMap_eq_map _
  have own : (c.methods.flatMap (w.classMethodSteps c k)).filterMap Step.source? = [] := by
    rw [List.filterMap_flatMap, List.flatMap_eq_nil_iff]
    intro m _
    rw [filterMap_classMethodSteps (fun _ => rfl) fun _ _ => rfl]
    exact ite_self _
  have dropped : (if k then [] else [Step.drop "new"]).filterMap Step.source? = [] := by
    cases k <;> rfl
  simp only [classPlan, List.filterMap_append, superclass, sources_objectMixinSteps, own, dropped,
    List.append_nil, sources]
  rfl

theorem definitions_objectMixinSteps : (w.objectMixinSteps c).filterMap Step.definition? = [] :=
  List.filterMap_eq_nil_iff.mpr (forall_mem_objectMixinSteps (fun _ => rfl) fun _ _ => rfl)

theorem definitions_instancePlan :
    (w.instancePlan c).steps.filterMap Step.definition? =
      (w.instanceMethods c).map (w.definition (some c.path) ⟨.instances, c.path⟩) := by
  have superclass : (w.superclassSteps c).filterMap Step.definition? = [] :=
    List.filterMap_eq_nil_iff.mpr (forall_mem_superclassSteps (fun _ => rfl) fun _ _ => rfl)
  have included : (c.includes.flatMap (w.mixinSteps c.path .instances)).filterMap Step.definition? = [] :=
    List.filterMap_eq_nil_iff.mpr (List.forall_mem_flatMap.mpr fun a _ =>
      forall_mem_mixinSteps (fun _ => rfl) (fun _ _ => rfl) c.path .instances a)
  simp only [instancePlan, List.filterMap_append, superclass, included, definitions_defineSteps,
    filterMap_selfTypeSteps (f := Step.definition?) (fun _ => rfl) (fun _ => rfl), List.nil_append,
    instanceMethods, List.map_append]

theorem definitions_modulePlan :
    (w.modulePlan c).steps.filterMap Step.definition? =
      (c.methods.filter MethodDecl.onObject).map (w.definition (some c.path) ⟨.moduleObject, c.path⟩) := by
  simp only [modulePlan, List.filterMap_append, definitions_objectMixinSteps, definitions_defineSteps,
    filterMap_selfTypeSteps (f := Step.definition?) (fun _ => rfl) (fun _ => rfl), List.append_nil,
    List.nil_append]
  rfl

theorem definitions_classPlan (k : Bool) :
    (w.classPlan k c).steps.filterMap Step.definition? =
      (c.methods.filter MethodDecl.onObject).map (w.definition (some c.path) ⟨.classObject k, c.path⟩) := by
  have superclass : (w.superclassObjectSteps c k).filterMap Step.definition? = [] :=
    List.filterMap_eq_nil_iff.mpr (forall_mem_superclassObjectSteps (fun _ => rfl) (fun _ _ => rfl) k)
  have own : ∀ ms : List MethodDecl, (ms.flatMap (w.classMethodSteps c k)).filterMap Step.definition? =
      (ms.filter MethodDecl.onObject).map (w.definition (some c.path) ⟨.classObject k, c.path⟩) := by
    intro ms
    induction ms with
    | nil => rfl
    | cons m ms ih =>
      rw [List.flatMap_cons, List.filterMap_append, ih,
        filterMap_classMethodSteps (fun _ => rfl) fun _ _ => rfl]
      by_cases hside : m.onObject = true
      · rw [if_pos hside, List.filter_cons_of_pos hside]
        rfl
      · rw [if_neg hside, List.filter_cons_of_neg hside]
        rfl
  have dropped : (if k then [] else [Step.drop "new"]).filterMap Step.definition? = [] := by
    cases k <;> rfl
  simp only [classPlan, List.filterMap_append, superclass, definitions_objectMixinSteps, own, dropped,
    List.append_nil]
  rfl

/-- Only `initialize` is declared for instances without being theirs. -/
theorem filter_instanceMethods (hname : name ≠ "initialize") :
    (w.instanceMethods c).filter (fun m => m.name = name) =
      (w.declaredMethods c .instances).filter fun m => m.name = name := by
  rw [instanceMethods, declaredMethods, List.filter_append, List.filter_append, List.filter_filter,
    List.filter_filter]
  congr 1
  refine List.filter_congr fun m _ => ?_
  by_cases h : m.name = name
  · subst h
    simp [hname]
  · simp [h]

/-- The plan for one side of a constant merges its sources, and its definitions are those that are declared
for the side; under a name other than `initialize` it leaves out none. -/
theorem exists_parts_of_plan (hp : w.plan n = .ok p) (hn : n.facet ≠ .protocol) :
    ∃ c, w.decls.find none n.path = .ok c ∧ p.steps.filterMap Step.source? = w.sources c n.facet ∧
      ∀ name, name ≠ "initialize" →
        (p.steps.filterMap Step.definition?).filter (fun d => d.name = name) =
          ((w.declaredMethods c n.facet).filter fun m => m.name = name).map
            (w.definition (some c.path) ⟨n.facet, c.path⟩) := by
  obtain ⟨facet, path⟩ := n
  have named : ∀ (c : Constant) (ms : List MethodDecl) name,
      (ms.map (w.definition (some c.path) ⟨facet, c.path⟩)).filter (fun d => d.name = name) =
        (ms.filter fun m => m.name = name).map (w.definition (some c.path) ⟨facet, c.path⟩) :=
    fun _ _ _ => List.filter_map
  cases facet with
  | instances =>
    obtain ⟨c, hc, rfl⟩ := exists_of_map_eq_ok hp
    refine ⟨c, hc, sources_instancePlan, fun name hname => ?_⟩
    rw [definitions_instancePlan, named, filter_instanceMethods hname]
  | moduleObject =>
    obtain ⟨c, hc, rfl⟩ := exists_of_map_eq_ok hp
    refine ⟨c, (Declarations.find_of_findKind hc).1, sources_modulePlan, fun name _ => ?_⟩
    rw [definitions_modulePlan, named]
    rfl
  | classObject k =>
    obtain ⟨c, hc, rfl⟩ := exists_of_map_eq_ok hp
    refine ⟨c, (Declarations.find_of_findKind hc).1, sources_classPlan k, fun name _ => ?_⟩
    rw [definitions_classPlan, named]
    rfl
  | protocol => exact absurd rfl hn

/-! ## Owners -/

/-- A name with the same absolute form has the same plan. -/
theorem plan_of_toAbsolute_eq (h : q.toAbsolute = n.toAbsolute) (hp : w.plan n = .ok p) :
    w.plan q = .ok p := by
  obtain ⟨facet, path⟩ := n
  obtain ⟨facet', path'⟩ := q
  obtain rfl : facet' = facet := congrArg Nominal.facet h
  have hpath : path'.toAbsolute = path.toAbsolute := congrArg Nominal.path h
  cases facet' with
  | instances =>
    obtain ⟨c, hc, rfl⟩ := exists_of_map_eq_ok hp
    exact plan_instances (Declarations.find_none_of_toAbsolute_eq hpath hc)
  | moduleObject =>
    obtain ⟨c, hc, rfl⟩ := exists_of_map_eq_ok hp
    exact plan_moduleObject (Declarations.findKind_none_of_toAbsolute_eq hpath hc)
  | classObject k =>
    obtain ⟨c, hc, rfl⟩ := exists_of_map_eq_ok hp
    exact plan_classObject (Declarations.findKind_none_of_toAbsolute_eq hpath hc)
  | protocol =>
    obtain ⟨d, hd, rfl⟩ := exists_of_map_eq_ok hp
    exact congrArg (Except.map w.protocolPlan) (Declarations.findProtocol_of_toAbsolute_eq hpath hd)

/-- What a built name needs is another declaration, even if its path is written in another way: it would
need itself otherwise. -/
theorem toAbsolute_ne_of_reaches (hi : Built w n i) (hr : w.DependsOn n r) (hq : w.Reaches r q) :
    q.toAbsolute ≠ n.toAbsolute := by
  intro heq
  obtain ⟨p, hp, hmem⟩ := hr.exists_request
  have hback : w.DependsOn q r := dependsOn_of_request (plan_of_toAbsolute_eq heq hp) hmem
  obtain ⟨j, hj⟩ := hi.of_reaches (.head hr hq)
  exact hj.not_dependsOn_self (.head' hback hq)

theorem fst_mem_requests {source : Nominal × List Ty} (h : source ∈ p.steps.filterMap Step.source?) :
    source.1 ∈ p.requests := by
  obtain ⟨s, hs, hsource⟩ := List.mem_filterMap.mp h
  exact mem_requests_of_source? hs hsource

/-- Nothing that comes with an interface that a plan merges is owned by the name of the plan. -/
theorem owned_sources (hi : Built w n i) (hp : w.plan n = .ok p)
    (hb : ∀ r ∈ p.requests, Built w r (found r)) :
    (MethodTable.mergeAll found .empty (p.steps.filterMap Step.source?)).Owned (· ≠ n.toAbsolute) := by
  refine MethodTable.owned_mergeAll (MethodTable.owned_empty _) fun s hs => ?_
  have hr := fst_mem_requests hs
  refine (owned_reaches (hb _ hr)).imp ?_
  rintro o ⟨q, hq, rfl⟩
  exact toAbsolute_ne_of_reaches hi (dependsOn_of_request hp hr) hq

/-! ## Own declarations -/

/-- Under a name other than `initialize` and `new`, what is declared for one side of a constant is put over
what its sources leave there, and nothing that they leave belongs to the side. -/
theorem exists_sources_of_built (hi : Built w n i) (hn : n.facet ≠ .protocol)
    (hc : w.decls.find none n.path = .ok c) :
    ∃ found, (∀ s ∈ w.sources c n.facet, Built w s.1 (found s.1)) ∧
      (MethodTable.mergeAll found .empty (w.sources c n.facet)).Owned (· ≠ ⟨n.facet, c.path⟩) ∧
      ∀ name, name ≠ "initialize" → name ≠ "new" → i.methods.get? name =
        Method.stack ((MethodTable.mergeAll found .empty (w.sources c n.facet)).get? name)
          (((w.declaredMethods c n.facet).filter fun m => m.name = name).map
            (w.definition (some c.path) ⟨n.facet, c.path⟩)) := by
  cases id hi with
  | @intro _ p found hp hb =>
    obtain ⟨d, hd, hsources, hdefinitions⟩ := exists_parts_of_plan hp hn
    obtain rfl := Except.ok.inj (hc.symm.trans hd)
    have howner : n.toAbsolute = ⟨n.facet, c.path⟩ :=
      congrArg (Nominal.mk n.facet) (Declarations.path_of_find_none hc).symm
    refine ⟨found, ?_, ?_, fun name hinit hnew => ?_⟩
    · rw [← hsources]
      exact fun s hs => hb _ (fst_mem_requests hs)
    · rw [← hsources, ← howner]
      exact owned_sources hi hp hb
    · rw [get?_assemble hp hn hnew, hsources, hdefinitions name hinit]

/-- When a method other than `initialize` and `new` is the only one of its name that is declared for a side of
a class or module, the interface of the side has it under the name: owned by the side, with the overloads
that its signatures give in the scope of the class or module, and with its attributes. It overrides what
merging the sources alone leaves under the name. -/
theorem own_declaration_wins (w : World) (history : List Operation) (scope : Option Path) (n : Nominal)
    (i : Interface) (c : Constant) (m : MethodDecl)
    (hi : (w.interfaceOf scope n (w.after history)).1 = .ok i) (hn : n.facet ≠ .protocol)
    (hc : w.decls.find none (w.absoluteName scope n).path = .ok c) (hinit : m.name ≠ "initialize")
    (hnew : m.name ≠ "new")
    (honce : (w.declaredMethods c n.facet).filter (fun m' => m'.name = m.name) = [m]) :
    ∃ found, (∀ s ∈ w.sources c n.facet, Built w s.1 (found s.1)) ∧
      ∃ f, i.methods.get? m.name = some f ∧
        f.own =
          ⟨⟨n.facet, c.path⟩, m.name, m.signatures.map (w.overload (some c.path) none), m.attributes⟩ ∧
        f.overridden =
          ((MethodTable.mergeAll found .empty (w.sources c n.facet)).get? m.name).elim [] Method.chain := by
  have hbuilt := (interfaceOf_eq_ok_iff (isOpen_after history)).mp hi
  have hfacet := w.absoluteName_facet scope n
  obtain ⟨found, hsources, howned, hget⟩ := exists_sources_of_built hbuilt (hfacet ▸ hn) hc
  rw [hfacet] at hsources howned hget
  have hget := hget m.name hinit hnew
  rw [honce] at hget
  refine ⟨found, hsources, _, hget, ?_⟩
  rw [Method.atop_of_owned fun base hbase d hd => howned m.name base hbase d hd]
  exact ⟨rfl, rfl⟩

/-- A hidden method of an object that gives an instance of some class `Inner`. -/
def callsInner : MethodDecl :=
  ⟨"call", .object, [⟨[], [], none, .named ⟨.instances, ⟨["Inner"], false⟩⟩ [], .nowhere⟩], [.hidden]⟩

/-- A class whose object has a method that the class of classes, the object of its superclass and a module
that extends it have as well. Its instances have one, too. -/
def contested : World where
  decls := (Declarations.empty.addAll
    [.constant ⟨⟨["BasicObject"], true⟩, [], [], .nowhere, .cls none⟩,
     .constant ⟨⟨["Object"], true⟩, [], [], .nowhere, .cls (some ⟨⟨["BasicObject"], true⟩, []⟩)⟩,
     .constant ⟨⟨["Class"], true⟩, [], [.method ⟨"call", .instances, [], []⟩], .nowhere, .cls none⟩,
     .constant ⟨⟨["Helper"], true⟩, [], [.method ⟨"call", .instances, [], []⟩], .nowhere, .mod none⟩,
     .constant ⟨⟨["Upper"], true⟩, [], [.method ⟨"call", .object, [], []⟩], .nowhere, .cls none⟩,
     .constant ⟨⟨["Lower"], true⟩, [],
      [.extended ⟨⟨["Helper"], false⟩, []⟩, .method ⟨"call", .instances, [], []⟩, .method callsInner],
      .nowhere, .cls (some ⟨⟨["Upper"], false⟩, []⟩)⟩,
     .constant ⟨⟨["Lower", "Inner"], true⟩, [], [], .nowhere, .cls none⟩]).1
  roots := .standard

/-- The method of the object of the class is its own, with the name in its signature resolved in the class,
and it overrides the other three. -/
theorem own_declaration_wins_contested :
    ∃ i f, (contested.interfaceOf none ⟨.classObject true, ⟨["Lower"], true⟩⟩ (contested.after [])).1 = .ok i ∧
      i.methods.get? "call" = some f ∧ f.own.owner = ⟨.classObject true, ⟨["Lower"], true⟩⟩ ∧
      f.own.overloads = [{ Overload.permissive with
        formals := .empty, returns := .named ⟨.instances, ⟨["Lower", "Inner"], true⟩⟩ [] }] ∧
      f.own.attributes = [.hidden] ∧ f.overridden.map Definition.owner =
        [⟨.instances, ⟨["Helper"], true⟩⟩, ⟨.classObject true, ⟨["Upper"], true⟩⟩,
         ⟨.instances, ⟨["Class"], true⟩⟩] := by
  have howners : (contested.interfaceOf none ⟨.classObject true, ⟨["Lower"], true⟩⟩
      (contested.after [])).1.toOption.bind
        (fun i => (i.methods.get? "call").map fun f => f.overridden.map Definition.owner) =
      some [⟨.instances, ⟨["Helper"], true⟩⟩, ⟨.classObject true, ⟨["Upper"], true⟩⟩,
        ⟨.instances, ⟨["Class"], true⟩⟩] := by
    decide +kernel
  obtain ⟨i, hi, howners⟩ := Option.bind_eq_some_iff.mp howners
  obtain ⟨f, hf, howners⟩ := Option.map_eq_some_iff.mp howners
  have hi := eq_ok_of_toOption_eq_some hi
  obtain ⟨_, -, f', hf', hown, -⟩ := own_declaration_wins contested [] none
    ⟨.classObject true, ⟨["Lower"], true⟩⟩ i _ callsInner hi Facet.noConfusion rfl (by decide)
    (by decide) rfl
  obtain rfl := Option.some.inj (hf.symm.trans hf')
  refine ⟨i, f, hi, hf, ?_, ?_, ?_, howners⟩
  · exact congrArg Definition.owner hown
  · exact congrArg Definition.overloads hown
  · exact congrArg Definition.attributes hown

end World

end MixinTypes
