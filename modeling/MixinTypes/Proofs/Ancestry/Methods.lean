import Mathlib.Data.List.Basic
import MixinTypes.Proofs.Ancestry.Search
import MixinTypes.Proofs.Linking.Dependency
import MixinTypes.World.Link

/-!
# Interfaces and ancestors

The interface of the instances of a class or module is put together from the interfaces of its parents,
while its ancestors are found by a search. Both see the same declarations: the method names of the
interface are those that the ancestors and their extensions declare, and every definition that it holds
comes from an ancestor (`interfaceOf_instances`).

1. A step of a plan offers names and owners; carrying out steps gathers what they offer, and loses
   nothing unless a step drops a method (`mem_keys_foldl_apply`, `owned_foldl_apply`).
2. In a plan for instances the requests are the parents (`mem_requests_iff_mem_parents`), and what is
   defined is what the declarations at the path provide.
3. By induction on how the interface was built it offers what is provided anywhere above.
-/

namespace MixinTypes

/-! ## What steps offer -/

namespace Step

variable {found : Nominal → Interface} {g : Gathered} {key : String} {P : Nominal → Prop}
  {Q : Definition → Prop} {R : String → Method → Prop}

/-- Carrying out the step adds a method of this name. -/
def Offers (found : Nominal → Interface) (key : String) : Step → Prop
  | .seed source _ | .mix source _ => key ∈ (found source).methods.keys
  | .define d | .put d => key = d.name
  | .note _ | .constrain _ | .drop _ => False

/-- All definitions that the step adds have the property. -/
def Adds (found : Nominal → Interface) (Q : Definition → Prop) : Step → Prop
  | .seed source args | .mix source args => ((found source).instantiate args .id).methods.All Q
  | .define d | .put d => Q d
  | .note _ | .constrain _ | .drop _ => True

/-- All methods that the step adds have the property under their names. -/
def AddsEach (found : Nominal → Interface) (R : String → Method → Prop) : Step → Prop
  | .seed source args | .mix source args => ((found source).instantiate args .id).methods.Each R
  | .define d | .put d => R d.name (.ofDefinition d)
  | .note _ | .constrain _ | .drop _ => True

/-- All definitions that the step adds have owners with the property `P`. -/
def OwnedBy (found : Nominal → Interface) (P : Nominal → Prop) : Step → Prop
  | .seed source _ | .mix source _ => MethodTable.Owned P (found source).methods
  | .define d | .put d => P d.owner
  | .note _ | .constrain _ | .drop _ => True

theorem offers_of_request? {s : Step} {r : Nominal} (h : s.request? = some r) :
    s.Offers found key ↔ key ∈ (found r).methods.keys := by
  cases s with
  | seed | mix => cases h; exact Iff.rfl
  | _ => cases h

/-- The step adds a definition with this name. -/
def Defines (key : String) : Step → Prop
  | .define d | .put d => key = d.name
  | .note _ | .seed _ _ | .mix _ _ | .constrain _ | .drop _ => False

/-- A name is offered by a definition, or by an interface that is requested. -/
theorem offers_iff {s : Step} :
    s.Offers found key ↔ s.Defines key ∨ ∃ r, s.request? = some r ∧ key ∈ (found r).methods.keys := by
  cases s <;> simp [Offers, Defines, request?]

/-- Only to forget the name itself takes it away. -/
theorem mem_keys_apply {s : Step} (hs : s ≠ .drop key) :
    key ∈ (s.apply found g).methods.keys ↔ s.Offers found key ∨ key ∈ g.methods.keys := by
  cases s with
  | note | constrain => simp [apply, Offers]
  | seed | mix => exact Gathered.mem_keys_merge
  | define d => exact MethodTable.mem_keys_override
  | put d => exact Table.mem_keys_insert
  | drop name =>
    have hne : key ≠ name := fun h => hs (h ▸ rfl)
    simp [apply, Offers, Table.keys_erase, hne]

theorem OwnedBy.adds {s : Step} (h : s.OwnedBy found P) : s.Adds found fun d => P d.owner := by
  cases s with
  | note | constrain | drop => trivial
  | seed source args | mix source args => exact MethodTable.Owned.subst h _
  | define d | put d => exact h

theorem Adds.addsEach {s : Step} (h : s.Adds found Q) :
    s.AddsEach found fun _ m => ∀ d ∈ m.chain, Q d := by
  cases s with
  | note | constrain | drop => trivial
  | seed | mix => exact h
  | define | put => exact List.forall_mem_singleton.mpr h

theorem each_apply {s : Step} (hR : Method.KeptAtop R) (hg : g.methods.Each R) (hs : s.AddsEach found R) :
    (s.apply found g).methods.Each R := by
  cases s with
  | note | constrain => exact hg
  | seed source args | mix source args => exact Gathered.each_merge hR hg hs
  | define d => exact hg.override hR hs
  | put d => exact hg.insert hs
  | drop name => exact hg.erase name

theorem owned_apply {s : Step} (hg : MethodTable.Owned P g.methods) (hs : s.OwnedBy found P) :
    MethodTable.Owned P (s.apply found g).methods :=
  each_apply (Method.keptAtop_forall_mem _) hg hs.adds.addsEach

theorem mem_keys_foldl_apply {ss : List Step} (hs : ∀ s ∈ ss, s ≠ .drop key) :
    key ∈ (ss.foldl (apply found) g).methods.keys ↔
      (∃ s ∈ ss, s.Offers found key) ∨ key ∈ g.methods.keys := by
  induction ss generalizing g with
  | nil => simp
  | cons s ss ih =>
    rw [List.foldl_cons, ih fun t ht => hs t (List.mem_cons_of_mem s ht),
      mem_keys_apply (hs s (List.mem_cons_self ..)), List.exists_mem_cons_iff]
    exact or_left_comm.trans or_assoc.symm

theorem exists_offers_iff_defines {ss : List Step} :
    (∃ s ∈ ss, s.Offers found key) ↔
      (∃ r ∈ ss.filterMap request?, key ∈ (found r).methods.keys) ∨ ∃ s ∈ ss, s.Defines key := by
  constructor
  · rintro ⟨s, hs, hoffers⟩
    rcases offers_iff.mp hoffers with hdefines | ⟨r, hr, hkey⟩
    · exact .inr ⟨s, hs, hdefines⟩
    · exact .inl ⟨r, List.mem_filterMap.mpr ⟨s, hs, hr⟩, hkey⟩
  · rintro (⟨r, hr, hkey⟩ | ⟨s, hs, hdefines⟩)
    · obtain ⟨s, hs, hreq⟩ := List.mem_filterMap.mp hr
      exact ⟨s, hs, offers_iff.mpr (.inr ⟨r, hreq, hkey⟩)⟩
    · exact ⟨s, hs, offers_iff.mpr (.inl hdefines)⟩

theorem each_foldl_apply {ss : List Step} (hR : Method.KeptAtop R) (hg : g.methods.Each R)
    (hs : ∀ s ∈ ss, s.AddsEach found R) : (ss.foldl (apply found) g).methods.Each R := by
  induction ss generalizing g with
  | nil => exact hg
  | cons s ss ih =>
    rw [List.foldl_cons]
    exact ih (each_apply hR hg (hs s (List.mem_cons_self ..))) fun t ht => hs t (List.mem_cons_of_mem s ht)

theorem all_foldl_apply {ss : List Step} (hg : g.methods.All Q) (hs : ∀ s ∈ ss, s.Adds found Q) :
    (ss.foldl (apply found) g).methods.All Q :=
  each_foldl_apply (Method.keptAtop_forall_mem Q) hg fun s hm => (hs s hm).addsEach

theorem owned_foldl_apply {ss : List Step} (hg : MethodTable.Owned P g.methods)
    (hs : ∀ s ∈ ss, s.OwnedBy found P) : MethodTable.Owned P (ss.foldl (apply found) g).methods :=
  all_foldl_apply hg fun s hm => (hs s hm).adds

end Step

/-! ## Plans for instances -/

namespace World

variable {w : World} {c : Constant} {s : Step}

/-- The declarations at `p` give instances a method of this name: the constant there itself, which
keeps `initialize` to its own object, or an extension of it. -/
def Provides (w : World) (p : Path) (name : String) : Prop :=
  (∃ c, w.decls.constantAt? p = some c ∧
    ∃ m ∈ c.methods, m.onInstances = true ∧ m.name = name ∧ name ≠ "initialize") ∨
  ∃ e ∈ w.decls.extensionsOf p, ∃ m ∈ e.methods, m.onInstances = true ∧ m.name = name

/-- The methods that a plan for instances defines, in order. -/
def instanceMethods (w : World) (c : Constant) : List MethodDecl :=
  c.methods.filter (fun m => m.onInstances && m.name ≠ "initialize")
    ++ (w.decls.extensionsOf c.path).flatMap fun e => e.methods.filter MethodDecl.onInstances

theorem exists_mem_instanceMethods {name : String} (hc : w.decls.constantAt? c.path = some c) :
    (∃ m ∈ w.instanceMethods c, name = m.name) ↔ w.Provides c.path name := by
  constructor
  · rintro ⟨m, hm, rfl⟩
    rcases List.mem_append.mp hm with hm | hm
    · obtain ⟨hm, hside⟩ := List.mem_filter.mp hm
      rw [Bool.and_eq_true, decide_eq_true_eq] at hside
      exact .inl ⟨c, hc, m, hm, hside.1, rfl, hside.2⟩
    · obtain ⟨e, he, hm⟩ := List.mem_flatMap.mp hm
      obtain ⟨hm, hside⟩ := List.mem_filter.mp hm
      exact .inr ⟨e, he, m, hm, hside, rfl⟩
  · rintro (⟨d, hd, m, hm, hside, rfl, hname⟩ | ⟨e, he, m, hm, hside, rfl⟩)
    · rw [hc] at hd
      obtain rfl := Option.some.inj hd
      refine ⟨m, List.mem_append_left _ (List.mem_filter.mpr ⟨hm, ?_⟩), rfl⟩
      rw [hside, Bool.true_and, decide_eq_true_eq]
      exact hname
    · refine ⟨m, List.mem_append_right _ (List.mem_flatMap.mpr ⟨e, he, ?_⟩), rfl⟩
      exact List.mem_filter.mpr ⟨hm, hside⟩

/-- What a step towards the interface of instances can be. -/
theorem mem_steps_instancePlan (h : s ∈ (w.instancePlan c).steps) :
    (∃ u, s = .note u) ∨ (∃ t, s = .constrain t) ∨ (∃ r args, s = .mix r args) ∨
      ∃ m ∈ w.instanceMethods c, s = .define (w.definition (some c.path) ⟨.instances, c.path⟩ m) := by
  have note : ∀ {us : List Unresolved}, s ∈ us.map Step.note → ∃ u, s = .note u := by
    intro us hs
    obtain ⟨u, -, rfl⟩ := List.mem_map.mp hs
    exact ⟨u, rfl⟩
  have define : ∀ {m}, s ∈ w.defineSteps c.path ⟨.instances, c.path⟩ m → (∃ u, s = .note u) ∨
      s = .define (w.definition (some c.path) ⟨.instances, c.path⟩ m) := by
    intro m hs
    rcases List.mem_append.mp hs with hs | hs
    · exact .inl (note hs)
    · exact .inr (List.mem_singleton.mp hs)
  simp only [instancePlan, List.mem_append] at h
  rcases h with (((h | h) | h) | h) | h
  · unfold superclassSteps at h
    split at h
    · cases h
    · simp only [List.mem_append, List.mem_singleton] at h
      rcases h with (h | h) | h
      · exact .inl (note h)
      · exact .inr (.inr (.inl ⟨_, _, h⟩))
      · exact .inl (note h)
  · rcases List.mem_append.mp h with h | h
    · exact .inl (note h)
    · obtain ⟨t, -, rfl⟩ := List.mem_map.mp h
      exact .inr (.inl ⟨_, rfl⟩)
  · obtain ⟨a, -, h⟩ := List.mem_flatMap.mp h
    simp only [mixinSteps, List.mem_append, List.mem_singleton] at h
    rcases h with (h | h) | h
    · exact .inl (note h)
    · exact .inl (note h)
    · exact .inr (.inr (.inl ⟨_, _, h⟩))
  · obtain ⟨m, hm, h⟩ := List.mem_flatMap.mp h
    exact (define h).imp_right fun h => .inr (.inr ⟨m, List.mem_append_left _ hm, h⟩)
  · obtain ⟨m, hm, h⟩ := List.mem_flatMap.mp h
    exact (define h).imp_right fun h => .inr (.inr ⟨m, List.mem_append_right _ hm, h⟩)

theorem define_mem_steps_instancePlan {m : MethodDecl} (hm : m ∈ w.instanceMethods c) :
    .define (w.definition (some c.path) ⟨.instances, c.path⟩ m) ∈ (w.instancePlan c).steps := by
  have last : .define (w.definition (some c.path) ⟨.instances, c.path⟩ m) ∈
      w.defineSteps c.path ⟨.instances, c.path⟩ m :=
    List.mem_append_right _ (List.mem_singleton_self _)
  rcases List.mem_append.mp hm with hm | hm
  · exact List.mem_append_left _ (List.mem_append_right _ (List.mem_flatMap.mpr ⟨m, hm, last⟩))
  · exact List.mem_append_right _ (List.mem_flatMap.mpr ⟨m, hm, last⟩)

/-- In a scope, a path that denotes a constant names its instances there. -/
theorem absoluteName_instances {scope p : Path} {d : Constant}
    (h : w.decls.resolve? (some scope) p = some d) :
    w.absoluteName (some scope) ⟨.instances, p⟩ = ⟨.instances, d.path⟩ := by
  have hlocate : w.locate scope ⟨.instances, p⟩ = .ok d.path :=
    congrArg (Except.map Constant.path) (Declarations.find_eq_ok_iff.mpr h)
  exact absoluteName_of_locate hlocate

theorem exists_resolve?_of_declared {scope p : Path}
    (h : w.Declared (w.absoluteName (some scope) ⟨.instances, p⟩)) :
    ∃ d, w.decls.resolve? (some scope) p = some d := by
  cases hr : w.decls.resolve? (some scope) p with
  | some d => exact ⟨d, rfl⟩
  | none =>
    have hfind := Declarations.find_eq_error_iff.mpr ⟨rfl, hr⟩
    have habs : w.absoluteName (some scope) ⟨.instances, p⟩ = ⟨.instances, p⟩ := by
      simp only [absoluteName, locate, hfind]
      rfl
    rw [habs] at h
    obtain ⟨d, hd⟩ := h
    rw [Declarations.find_none_of_find_eq_error hfind] at hd
    cases hd

/-- When everything that is requested is declared, the requests are the parents. -/
theorem mem_requests_iff_mem_parents (hc : w.decls.constantAt? c.path = some c)
    (hd : ∀ r ∈ (w.instancePlan c).requests, w.Declared r) {r : Nominal} :
    r ∈ (w.instancePlan c).requests ↔ ∃ p ∈ w.parents c.path, r = ⟨.instances, p⟩ := by
  rw [requests_instancePlan] at hd ⊢
  constructor
  · intro hr
    obtain ⟨a, ha, rfl⟩ := List.mem_map.mp hr
    obtain ⟨d, hres⟩ := exists_resolve?_of_declared (hd _ hr)
    exact ⟨d.path, (mem_parents_iff hc).mpr ⟨a, ha, d, hres, rfl⟩, absoluteName_instances hres⟩
  · rintro ⟨p, hp, rfl⟩
    obtain ⟨a, ha, d, hres, rfl⟩ := (mem_parents_iff hc).mp hp
    exact List.mem_map.mpr ⟨a, ha, absoluteName_instances hres⟩

/-- What the steps towards the interface of instances offer. -/
theorem exists_offers_iff {found : Nominal → Interface} {key : String}
    (hc : w.decls.constantAt? c.path = some c)
    (hd : ∀ r ∈ (w.instancePlan c).requests, w.Declared r) :
    (∃ s ∈ (w.instancePlan c).steps, s.Offers found key) ↔
      w.Provides c.path key ∨
        ∃ p ∈ w.parents c.path, key ∈ (found ⟨.instances, p⟩).methods.keys := by
  rw [← exists_mem_instanceMethods hc]
  constructor
  · rintro ⟨s, hs, hoffers⟩
    rcases mem_steps_instancePlan hs with ⟨u, rfl⟩ | ⟨t, rfl⟩ | ⟨r, args, rfl⟩ | ⟨m, hm, rfl⟩
    · cases hoffers
    · cases hoffers
    · have hr : r ∈ (w.instancePlan c).requests := List.mem_filterMap.mpr ⟨_, hs, rfl⟩
      obtain ⟨p, hp, rfl⟩ := (mem_requests_iff_mem_parents hc hd).mp hr
      exact .inr ⟨p, hp, hoffers⟩
    · exact .inl ⟨m, hm, hoffers⟩
  · rintro (⟨m, hm, hname⟩ | ⟨p, hp, hkey⟩)
    · exact ⟨_, define_mem_steps_instancePlan hm, hname⟩
    · have hr := (mem_requests_iff_mem_parents hc hd).mpr ⟨p, hp, rfl⟩
      obtain ⟨s, hs, hreq⟩ := List.mem_filterMap.mp hr
      exact ⟨s, hs, (Step.offers_of_request? hreq).mpr hkey⟩

/-! ## Interfaces of instances -/

/-- The interface agrees with what is declared at `p` and above: in the names of its methods, and in
the owners of all definitions. -/
structure Surveys (w : World) (p : Path) (i : Interface) : Prop where
  names : ∀ key, key ∈ i.methods.keys ↔ ∃ a, w.Inherits p a ∧ w.Provides a key
  owners : i.methods.Owned fun o => ∃ a, w.Inherits p a ∧ o = ⟨.instances, a⟩

/-- Carrying out a plan on interfaces that agree with what is declared at the parents. -/
theorem surveys_assemble {found : Nominal → Interface} (hc : w.decls.constantAt? c.path = some c)
    (hd : ∀ r ∈ (w.instancePlan c).requests, w.Declared r)
    (h : ∀ p ∈ w.parents c.path, w.Surveys p (found ⟨.instances, p⟩)) :
    w.Surveys c.path ((w.instancePlan c).assemble found) where
  names key := by
    have noDrop : ∀ s ∈ (w.instancePlan c).steps, s ≠ .drop key := by
      intro s hs heq
      subst heq
      rcases mem_steps_instancePlan hs with ⟨_, h⟩ | ⟨_, h⟩ | ⟨_, _, h⟩ | ⟨_, _, h⟩ <;> cases h
    have here : key ∈ ((w.instancePlan c).assemble found).methods.keys ↔
        w.Provides c.path key ∨
          ∃ p ∈ w.parents c.path, key ∈ (found ⟨.instances, p⟩).methods.keys := by
      rw [← exists_offers_iff hc hd]
      exact (Step.mem_keys_foldl_apply noDrop).trans (or_iff_left List.not_mem_nil)
    rw [here]
    constructor
    · rintro (hkey | ⟨p, hp, hkey⟩)
      · exact ⟨c.path, .refl, hkey⟩
      · obtain ⟨a, ha, hkey⟩ := ((h p hp).names key).mp hkey
        exact ⟨a, .head hp ha, hkey⟩
    · rintro ⟨a, ha, hkey⟩
      rcases Relation.ReflTransGen.cases_head ha with rfl | ⟨p, hp, ha⟩
      · exact .inl hkey
      · exact .inr ⟨p, hp, ((h p hp).names key).mpr ⟨a, ha, hkey⟩⟩
  owners := by
    refine Step.owned_foldl_apply (MethodTable.owned_empty _) fun s hs => ?_
    rcases mem_steps_instancePlan hs with ⟨u, rfl⟩ | ⟨t, rfl⟩ | ⟨r, args, rfl⟩ | ⟨m, hm, rfl⟩
    · trivial
    · trivial
    · have hr : r ∈ (w.instancePlan c).requests := List.mem_filterMap.mpr ⟨_, hs, rfl⟩
      obtain ⟨p, hp, rfl⟩ := (mem_requests_iff_mem_parents hc hd).mp hr
      intro name m hm d hdef
      obtain ⟨a, ha, howner⟩ := (h p hp).owners name m hm d hdef
      exact ⟨a, .head hp ha, howner⟩
    · exact ⟨c.path, .refl, rfl⟩

/-- Every interface of instances that has been built agrees with what is declared. -/
theorem surveys_of_built {n : Nominal} {i : Interface} (h : Built w n i)
    (hn : n.facet = .instances) : w.Surveys n.path.toAbsolute i := by
  induction h with
  | @intro n p found hp hb ih =>
    obtain ⟨facet, path⟩ := n
    cases hn
    obtain ⟨c, hc, rfl⟩ := exists_of_map_eq_ok hp
    change w.Surveys path.toAbsolute _
    rw [← Declarations.path_of_find_none hc]
    have hat := Declarations.constantAt?_of_find_none hc
    have hd : ∀ r ∈ (w.instancePlan c).requests, w.Declared r := fun r hr => (hb r hr).declared
    refine surveys_assemble hat hd fun q hq => ?_
    have hr := (mem_requests_iff_mem_parents hat hd).mpr ⟨q, hq, rfl⟩
    have hsurvey : w.Surveys q.toAbsolute (found ⟨.instances, q⟩) := ih _ hr rfl
    rwa [Path.toAbsolute_eq_self (absolute_of_mem_parents hq)] at hsurvey

/-- When the interface of the instances of a class or module is obtained, the names of its methods are
those that some ancestor, other than as `initialize`, or some extension of an ancestor declares for
instances, and every definition in it belongs to the instances of an ancestor. -/
theorem interfaceOf_instances (w : World) (m : Memo w) (p : Path) (i : Interface)
    (h : (w.interfaceOf none ⟨.instances, p⟩ m).1 = .ok i) :
    (∀ name, name ∈ i.methods.keys ↔ ∃ a ∈ w.ancestors p, w.Provides a name) ∧
      ∀ name method, i.methods.get? name = some method → ∀ d ∈ method.chain,
        ∃ a ∈ w.ancestors p, d.owner = ⟨.instances, a⟩ := by
  rw [fst_interfaceOf] at h
  obtain ⟨built, -, rfl⟩ := exists_of_map_eq_ok h
  have hsurvey : w.Surveys p.toAbsolute built.1 := surveys_of_built built.2 rfl
  constructor
  · intro name
    rw [hsurvey.names]
    simp only [mem_ancestors_iff]
  · intro name method hget d hd
    obtain ⟨a, ha, howner⟩ := hsurvey.owners name method hget d hd
    exact ⟨a, mem_ancestors_iff.mpr ha, howner⟩

/-- A class and its superclass that include the same module, and an extension of that module. -/
def diamond : World where
  decls := (Declarations.empty.addAll
    [.constant ⟨⟨["BasicObject"], true⟩, [], [], .nowhere, .cls none⟩,
     .constant ⟨⟨["Object"], true⟩, [], [], .nowhere, .cls (some ⟨⟨["BasicObject"], true⟩, []⟩)⟩,
     .constant ⟨⟨["Shared"], true⟩, [],
      [.method ⟨"initialize", .instances, [], []⟩, .method ⟨"share", .both, [], []⟩], .nowhere,
      .mod none⟩,
     .constant ⟨⟨["Upper"], true⟩, [], [.included ⟨⟨["Shared"], false⟩, []⟩], .nowhere, .cls none⟩,
     .constant ⟨⟨["Lower"], true⟩, [],
      [.included ⟨⟨["Shared"], false⟩, []⟩, .method ⟨"own", .instances, [], []⟩], .nowhere,
      .cls (some ⟨⟨["Upper"], false⟩, []⟩)⟩,
     .extension ⟨⟨["Shared"], true⟩, "more",
      [.method ⟨"initialize", .instances, [], []⟩, .method ⟨"extra", .object, [], []⟩], .nowhere⟩]).1
  roots := .standard

/-- In the diamond, `initialize` is there because the extension declares it. -/
theorem interfaceOf_instances_diamond :
    ∃ i, (diamond.interfaceOf none ⟨.instances, ⟨["Lower"], false⟩⟩ (.empty diamond)).1 = .ok i ∧
      i.methods.keys = ["share", "initialize", "own"] ∧
      ∀ name ∈ ["share", "initialize", "own"],
        ∃ a ∈ diamond.ancestors ⟨["Lower"], false⟩, diamond.Provides a name := by
  have hkeys : ((diamond.interfaceOf none ⟨.instances, ⟨["Lower"], false⟩⟩
      (.empty diamond)).1.toOption.map fun i => i.methods.keys) =
        some ["share", "initialize", "own"] := by
    decide +kernel
  obtain ⟨i, hi, hkeys⟩ := Option.map_eq_some_iff.mp hkeys
  cases h : (diamond.interfaceOf none ⟨.instances, ⟨["Lower"], false⟩⟩ (.empty diamond)).1 with
  | error e =>
    rw [h] at hi
    cases hi
  | ok j =>
    rw [h] at hi
    cases hi
    have hnames := (interfaceOf_instances diamond (.empty diamond) _ i h).1
    exact ⟨i, rfl, hkeys, fun name hn => (hnames name).mp (hkeys ▸ hn)⟩

end World

end MixinTypes
