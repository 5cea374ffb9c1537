import MixinTypes.Proofs.Ancestry.Methods
import MixinTypes.Proofs.Ancestry.Supers

/-!
# Self-types of ancestors

A module says what type its users must have. This goes to its instances, and with them to the instances of all
that builds on the module, by way of superclasses and of mixins. Where nothing that is declared has type
parameters it arrives as it was written, so the further types of instances are what the modules among the
ancestors demand, no more and no less.

1. To the self-type of a declaration its plan adds the further types of what it requests
   (`mem_supers_assemble_iff`).
2. By induction on how an interface was built, its further types are those demanded anywhere above
   (`mem_supers_of_built_iff`). The ancestors are found by a search of their own (`mem_supers_iff_demanded`).
-/

namespace MixinTypes

namespace World

variable {w : World} {c : Constant} {n : Nominal} {i : Interface} {t : Ty}

/-- A module at the path demands this type of its users. -/
def Demands (w : World) (p : Path) (t : Ty) : Prop :=
  ∃ c ∈ w.decls.constants, c.path = p ∧ ∃ s, c.body = .mod (some s) ∧ t = w.absoluteTy (some p) s

theorem demands_iff (hc : w.decls.constantAt? c.path = some c) :
    w.Demands c.path t ↔ ∃ s, c.selfType? = some s ∧ w.absoluteTy (some c.path) s = t := by
  have hself : ∀ s, c.body = .mod (some s) ↔ c.selfType? = some s := by
    intro s
    unfold Constant.selfType?
    cases c.body with
    | cls => exact ⟨nofun, nofun⟩
    | mod => exact ⟨Body.mod.inj, congrArg Body.mod⟩
  constructor
  · rintro ⟨d, hd, hpath, s, hs, rfl⟩
    have hat := Declarations.constantAt?_eq_some_iff.mpr ⟨hd, hpath⟩
    obtain rfl := Option.some.inj (hc.symm.trans hat)
    exact ⟨s, (hself s).mp hs, rfl⟩
  · rintro ⟨s, hs, rfl⟩
    exact ⟨c, Declarations.mem_of_constantAt? hc, rfl, s, (hself s).mpr hs, rfl⟩

/-- What is requested for instances is mixed in. -/
theorem exists_mix_of_mem_requests {r : Nominal} (hr : r ∈ (w.instancePlan c).requests) :
    ∃ args, .mix r args ∈ (w.instancePlan c).steps := by
  obtain ⟨s, hs, hreq⟩ := List.mem_filterMap.mp hr
  rcases mem_steps_instancePlan hs with ⟨u, rfl⟩ | ⟨t, rfl⟩ | ⟨r', args, rfl⟩ | ⟨m, -, rfl⟩
  · cases hreq
  · cases hreq
  · cases hreq
    exact ⟨args, hs⟩
  · cases hreq

/-- The further types of instances are the self-type and those of all that is requested, when these take no
arguments. -/
theorem mem_supers_assemble_iff {found : Nominal → Interface}
    (hparams : ∀ r ∈ (w.instancePlan c).requests, (found r).params = []) :
    t ∈ ((w.instancePlan c).assemble found).supers ↔
      (∃ s, c.selfType? = some s ∧ w.absoluteTy (some c.path) s = t) ∨
        ∃ r ∈ (w.instancePlan c).requests, t ∈ (found r).supers := by
  have hmixed : ∀ r ∈ (w.instancePlan c).requests, ∀ args,
      ((found r).instantiate args .id).supers = (found r).supers := by
    intro r hr args
    rw [Interface.instantiate_of_params (hparams r hr)]
  rw [← constrain_mem_steps_iff, Plan.supers_assemble, List.mem_flatMap]
  constructor
  · rintro ⟨s, hs, ht⟩
    rcases mem_steps_instancePlan hs with ⟨u, rfl⟩ | ⟨t', rfl⟩ | ⟨r, args, rfl⟩ | ⟨m, -, rfl⟩
    · cases ht
    · exact .inl (List.mem_singleton.mp ht ▸ hs)
    · have hr : r ∈ (w.instancePlan c).requests := List.mem_filterMap.mpr ⟨_, hs, rfl⟩
      exact .inr ⟨r, hr, hmixed r hr args ▸ ht⟩
    · cases ht
  · rintro (hs | ⟨r, hr, ht⟩)
    · exact ⟨_, hs, List.mem_singleton_self t⟩
    · obtain ⟨args, hs⟩ := exists_mix_of_mem_requests hr
      have hmix : t ∈ ((found r).instantiate args .id).supers := by rwa [hmixed r hr args]
      exact ⟨_, hs, hmix⟩

theorem params_of_built (hparams : ∀ c ∈ w.decls.constants, c.params = []) (h : Built w n i)
    (hn : n.facet = .instances) : i.params = [] := by
  obtain ⟨facet, path⟩ := n
  cases hn
  cases h with
  | intro found hp _ =>
    obtain ⟨c, hc, rfl⟩ := exists_of_map_eq_ok hp
    exact hparams c (Declarations.mem_of_find hc)

/-- The further types of instances are demanded at the path or above it. -/
theorem mem_supers_of_built_iff (hparams : ∀ c ∈ w.decls.constants, c.params = []) (h : Built w n i)
    (hn : n.facet = .instances) :
    t ∈ i.supers ↔ ∃ a, w.Inherits n.path.toAbsolute a ∧ w.Demands a t := by
  induction h with
  | @intro n p found hp hb ih =>
    obtain ⟨facet, path⟩ := n
    cases hn
    obtain ⟨c, hc, rfl⟩ := exists_of_map_eq_ok hp
    change _ ↔ ∃ a, w.Inherits path.toAbsolute a ∧ w.Demands a t
    rw [← Declarations.path_of_find_none hc]
    have hat := Declarations.constantAt?_of_find_none hc
    have hrequests : ∀ r, r ∈ (w.instancePlan c).requests ↔ ∃ q ∈ w.parents c.path, r = ⟨.instances, q⟩ :=
      fun r => mem_requests_iff_mem_parents hat fun r hr => (hb r hr).declared
    -- what is requested are the parents, and their paths are absolute already
    have habove : ∀ q ∈ w.parents c.path, (t ∈ (found ⟨.instances, q⟩).supers ↔
        ∃ a, w.Inherits q a ∧ w.Demands a t) := by
      intro q hq
      have hq' := ih _ ((hrequests _).mpr ⟨q, hq, rfl⟩) rfl
      rwa [Path.toAbsolute_eq_self (absolute_of_mem_parents hq)] at hq'
    rw [mem_supers_assemble_iff, ← demands_iff hat]
    · constructor
      · rintro (hself | ⟨r, hr, ht⟩)
        · exact ⟨c.path, .refl, hself⟩
        · obtain ⟨q, hq, rfl⟩ := (hrequests r).mp hr
          obtain ⟨a, ha, hdemands⟩ := (habove q hq).mp ht
          exact ⟨a, .head hq ha, hdemands⟩
      · rintro ⟨a, ha, hdemands⟩
        rcases Relation.ReflTransGen.cases_head ha with rfl | ⟨q, hq, ha⟩
        · exact .inl hdemands
        · exact .inr ⟨_, (hrequests _).mpr ⟨q, hq, rfl⟩, (habove q hq).mpr ⟨a, ha, hdemands⟩⟩
    · intro r hr
      obtain ⟨q, -, rfl⟩ := (hrequests r).mp hr
      exact params_of_built hparams (hb _ hr) rfl

/-- When no class and no module has type parameters and the interface of the instances of one is obtained, its
further types are exactly the self-types of the modules among the ancestors, each made absolute in the scope of
its module. -/
theorem mem_supers_iff_demanded (w : World) (hparams : ∀ c ∈ w.decls.constants, c.params = []) (m : Memo w)
    (p : Path) (i : Interface) (h : (w.interfaceOf none ⟨.instances, p⟩ m).1 = .ok i) (t : Ty) :
    t ∈ i.supers ↔ ∃ a ∈ w.ancestors p, w.Demands a t := by
  rw [fst_interfaceOf] at h
  obtain ⟨built, -, rfl⟩ := exists_of_map_eq_ok h
  rw [mem_supers_of_built_iff hparams built.2 rfl]
  simp only [mem_ancestors_iff]
  rfl

/-- A module whose self-type names a class of its own namespace, and includes a module with a self-type too; a
subclass of that class includes the second module again. -/
def wooded : World where
  decls := (Declarations.empty.addAll
    [.constant ⟨⟨["BasicObject"], true⟩, [], [], .nowhere, .cls none⟩,
     .constant ⟨⟨["Object"], true⟩, [], [], .nowhere, .cls (some ⟨⟨["BasicObject"], true⟩, []⟩)⟩,
     .constant ⟨⟨["Each"], true⟩, [], [], .nowhere, .mod (some (.ofPath ⟨["Object"], false⟩ []))⟩,
     .constant ⟨⟨["Tree"], true⟩, [], [.included ⟨⟨["Each"], false⟩, []⟩], .nowhere,
      .mod (some (.ofPath ⟨["Node"], false⟩ []))⟩,
     .constant ⟨⟨["Tree", "Node"], true⟩, [], [.included ⟨⟨["Tree"], false⟩, []⟩], .nowhere, .cls none⟩,
     .constant ⟨⟨["Tree", "Leaf"], true⟩, [], [.included ⟨⟨["Each"], false⟩, []⟩], .nowhere,
      .cls (some ⟨⟨["Node"], false⟩, []⟩)⟩]).1
  roots := .standard

/-- Instances of the subclass have both self-types, that of the first module with the path of the class. -/
theorem mem_supers_iff_demanded_leaf :
    ∃ i, (wooded.interfaceOf none ⟨.instances, ⟨["Tree", "Leaf"], true⟩⟩ (.empty wooded)).1 = .ok i ∧
      i.supers = [.ofPath ⟨["Tree", "Node"], true⟩ [], .ofPath ⟨["Object"], true⟩ [],
        .ofPath ⟨["Object"], true⟩ []] ∧
      ∀ t, t ∈ i.supers ↔ ∃ a ∈ wooded.ancestors ⟨["Tree", "Leaf"], true⟩, wooded.Demands a t := by
  have hsupers : (wooded.interfaceOf none ⟨.instances, ⟨["Tree", "Leaf"], true⟩⟩
      (.empty wooded)).1.toOption.map Interface.supers =
      some [.ofPath ⟨["Tree", "Node"], true⟩ [], .ofPath ⟨["Object"], true⟩ [],
        .ofPath ⟨["Object"], true⟩ []] := by
    decide +kernel
  obtain ⟨i, hi, hsupers⟩ := Option.map_eq_some_iff.mp hsupers
  have hi := eq_ok_of_toOption_eq_some hi
  exact ⟨i, hi, hsupers, mem_supers_iff_demanded wooded (by decide +kernel) _ _ i hi⟩

end World

end MixinTypes
