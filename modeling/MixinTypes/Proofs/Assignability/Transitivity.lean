import MixinTypes.Proofs.Assignability.Availability
import MixinTypes.Proofs.Assignability.SelfType
import MixinTypes.Proofs.Assignability.Unions

/-!
# Transitivity on names without arguments

Where no module has a self-type, assignability is transitive between unions of names without arguments,
however they are nested. Names are related in two ways, by ancestry and by the names of methods, and the two
go together because instances have the methods of all that they inherit from.

1. A union may be used where each of its alternatives fits one of those expected
   (`assignable_iff_alternatives`), so it is enough to look at names.
2. A name that may be used for another has the methods of the other (`mem_keys_of_assignable`). For a protocol
   that is all that counts, and for instances ancestry is, which is transitive as well
   (`assignable_trans_of_names`).
-/

namespace MixinTypes

variable {w : World} {n m k : Nominal} {i j : Interface} {a b c t u : Ty} {args : List Ty}

/-! ## The fragment -/

namespace Ty

/-- The first type is no union, and is the second or, at any depth, a member of a union that the second is. -/
inductive Alternative (u : Ty) : Ty → Prop where
  | self (notUnion : ¬ u.IsUnion) : Alternative u u
  | union {t : Ty} {ts : List Ty} (mem : t ∈ ts) (below : Alternative u t) : Alternative u (.union ts)

/-- The name of instances or of a protocol with an interface. -/
structure Linkable (w : World) (n : Nominal) : Prop where
  facet : n.facet = .instances ∨ n.facet = .protocol
  builds : ∃ i, (w.interfaceOf none n (.empty w)).1 = .ok i

/-- Types made of such names without arguments, and of unions of these. -/
inductive Static (w : World) : Ty → Prop where
  | named {n : Nominal} (linkable : Linkable w n) : Static w (.named n [])
  | union {ts : List Ty} (each : ∀ t ∈ ts, Static w t) : Static w (.union ts)

theorem alternative_named_iff : u.Alternative (.named n args) ↔ u = .named n args := by
  constructor
  · intro h
    cases h with
    | self => rfl
  · rintro rfl
    exact .self fun h => h

theorem alternative_union_iff {ts : List Ty} : u.Alternative (.union ts) ↔ ∃ t ∈ ts, u.Alternative t := by
  constructor
  · intro h
    cases h with
    | self notUnion => exact absurd trivial notUnion
    | union mem below => exact ⟨_, mem, below⟩
  · rintro ⟨t, mem, below⟩
    exact .union mem below

/-- The alternatives of a type in the fragment are names. -/
theorem Static.exists_name (h : t.Static w) (hu : u.Alternative t) : ∃ n, Linkable w n ∧ u = .named n [] := by
  induction h with
  | @named n linkable => exact ⟨n, linkable, alternative_named_iff.mp hu⟩
  | union _ ih =>
    obtain ⟨t, ht, hu⟩ := alternative_union_iff.mp hu
    exact ih t ht hu

theorem Linkable.of_isSome (hfacet : n.facet = .instances ∨ n.facet = .protocol)
    (h : (w.interfaceOf none n (.empty w)).1.toOption.isSome = true) : Linkable w n := by
  obtain ⟨i, hi⟩ := Option.isSome_iff_exists.mp h
  exact ⟨hfacet, i, World.eq_ok_of_toOption_eq_some hi⟩

theorem Linkable.exists_built (h : Linkable w n) : ∃ i, Built w n.toAbsolute i := by
  obtain ⟨i, hi⟩ := h.builds
  exact ⟨i, (World.interfaceOf_eq_ok_iff Memo.isOpen_empty).mp hi⟩

end Ty

/-! ## Unions -/

/-- Enough parts of a union are met exactly when one of its alternatives has the property. -/
theorem Ty.Static.met_iff {P : Ty → Prop} (h : t.Static w) : t.Met P ↔ ∃ u, u.Alternative t ∧ P u := by
  induction h with
  | named =>
    rw [met_named_iff]
    simp only [alternative_named_iff, exists_eq_left]
  | union _ ih =>
    rw [met_union_iff]
    constructor
    · rintro ⟨t, ht, hmet⟩
      obtain ⟨u, hu, hP⟩ := (ih t ht).mp hmet
      exact ⟨u, .union ht hu, hP⟩
    · rintro ⟨u, hu, hP⟩
      obtain ⟨t, ht, hu⟩ := alternative_union_iff.mp hu
      exact ⟨t, ht, (ih t ht).mpr ⟨u, hu, hP⟩⟩

/-- Each alternative of the source needs one of the destination. -/
theorem assignable_iff_alternatives (ha : a.Static w) (hb : b.Static w) :
    Assignable w a b ↔ ∀ t, t.Alternative a → ∃ u, u.Alternative b ∧ Assignable w t u := by
  induction ha with
  | named =>
    simp only [Ty.alternative_named_iff, forall_eq]
    rw [assignable_named_iff_met, hb.met_iff]
  | @union ts _ ih =>
    rw [assignable_union_iff]
    constructor
    · intro h t ht
      obtain ⟨s, hs, ht⟩ := Ty.alternative_union_iff.mp ht
      exact (ih s hs).mp (h s hs) t ht
    · intro h s hs
      exact (ih s hs).mpr fun t ht => h t (.union hs ht)

/-! ## Names -/

section Names

variable (hself : ∀ c ∈ w.decls.constants, c.selfType? = none)

/-- Only instances may be used for instances. -/
theorem facet_of_assignable_instances (hn : n.facet = .instances ∨ n.facet = .protocol)
    (hm : m.facet = .instances) (h : Assignable w (.named n []) (.named m [])) : n.facet = .instances := by
  have of_akin : n.facet.Akin m.facet → n.facet = .instances := by
    obtain ⟨facet, p⟩ := n
    intro akin
    rcases hn with rfl | rfl
    · rfl
    · exact nomatch akin
  cases h with
  | refl => exact hm
  | sameDeclaration akin | ancestor akin | furtherType akin => exact of_akin akin
  | protocol target => exact nomatch hm.symm.trans target
  | moduleObject _ target => exact nomatch hm.symm.trans target

/-- Instances may be used for those that they inherit from. -/
theorem assignable_of_inherits (hn : n.facet = .instances) (hm : m.facet = .instances)
    (h : w.Inherits n.path.toAbsolute m.path.toAbsolute) : Assignable w (.named n []) (.named m []) := by
  have akin : n.facet.Akin m.facet := by
    rw [hn, hm]
    exact .instances
  by_cases same : n.path.toAbsolute = m.path.toAbsolute
  · exact .sameDeclaration akin same rfl (List.forall_mem_nil _) (List.forall_mem_nil _)
  · exact .ancestor akin same (World.mem_ancestors_iff.mpr h)

include hself

theorem inherits_of_assignable_instances (hn : n.facet = .instances) (hm : m.facet = .instances)
    (h : Assignable w (.named n []) (.named m [])) : w.Inherits n.path.toAbsolute m.path.toAbsolute := by
  refine World.inherits_of_assignable hself ?_ h
  rw [hn, hm]
  exact .instances

/-- A name that may be used for another has the methods of the other. -/
theorem mem_keys_of_assignable (hn : Ty.Linkable w n) (hm : Ty.Linkable w m)
    (hi : Built w n.toAbsolute i) (hj : Built w m.toAbsolute j)
    (h : Assignable w (.named n []) (.named m [])) : ∀ name ∈ j.methods.keys, name ∈ i.methods.keys := by
  intro name hname
  rcases hm.facet with hfacet | hfacet
  · have hn : n.facet = .instances := facet_of_assignable_instances hn.facet hfacet h
    have hinherits := inherits_of_assignable_instances hself hn hfacet h
    obtain ⟨_, p⟩ := n
    obtain ⟨_, q⟩ := m
    cases hn
    cases hfacet
    exact World.mem_keys_instances_of_inherits hi hj hinherits hname
  · have not_akin : ¬ n.facet.Akin m.facet := by
      rw [hfacet]
      generalize n.facet = f
      exact nofun
    cases h with
    | refl => exact hi.unique hj ▸ hname
    | sameDeclaration akin | ancestor akin | furtherType akin => exact absurd akin not_akin
    | protocol _ builtRequired builtProvided methods =>
      obtain rfl := builtRequired.unique hj
      obtain rfl := builtProvided.unique hi
      exact methods name hname
    | moduleObject _ target => exact nomatch hfacet.symm.trans target

theorem assignable_trans_of_names (hn : Ty.Linkable w n) (hm : Ty.Linkable w m) (hk : Ty.Linkable w k)
    (hnm : Assignable w (.named n []) (.named m [])) (hmk : Assignable w (.named m []) (.named k [])) :
    Assignable w (.named n []) (.named k []) := by
  rcases hk.facet with hfacet | hfacet
  · have hm : m.facet = .instances := facet_of_assignable_instances hm.facet hfacet hmk
    have hn : n.facet = .instances := facet_of_assignable_instances hn.facet hm hnm
    have hupper := inherits_of_assignable_instances hself hm hfacet hmk
    have hlower := inherits_of_assignable_instances hself hn hm hnm
    exact assignable_of_inherits hn hfacet (hlower.trans hupper)
  · obtain ⟨i, hi⟩ := hn.exists_built
    obtain ⟨j, hj⟩ := hm.exists_built
    obtain ⟨l, hl⟩ := hk.exists_built
    have hupper := mem_keys_of_assignable hself hm hk hj hl hmk
    have hlower := mem_keys_of_assignable hself hn hm hi hj hnm
    exact .protocol hfacet hl hi fun name hname => hlower name (hupper name hname)

end Names

/-! ## Tests -/

namespace World

/-- At any times in sessions, where no module has a self-type: when a type made of names and unions is tested
to be assignable to a second one, and this to a third one, so is the first to the third. -/
theorem test_trans (w : World) (hself : ∀ c ∈ w.decls.constants, c.selfType? = none)
    (before between after : List Query) (a b c : Ty) (ha : a.Static w) (hb : b.Static w) (hc : c.Static w)
    (hab : (w.test a b (w.inquiry before)).1 = true) (hbc : (w.test b c (w.inquiry between)).1 = true) :
    (w.test a c (w.inquiry after)).1 = true := by
  rw [test_iff (idle_inquiry _) (asking_inquiry _)] at hab hbc ⊢
  rw [assignable_iff_alternatives ha hb] at hab
  rw [assignable_iff_alternatives hb hc] at hbc
  rw [assignable_iff_alternatives ha hc]
  intro t ht
  obtain ⟨u, hu, htu⟩ := hab t ht
  obtain ⟨v, hv, huv⟩ := hbc u hu
  obtain ⟨n, hn, rfl⟩ := ha.exists_name ht
  obtain ⟨m, hm, rfl⟩ := hb.exists_name hu
  obtain ⟨k, hk, rfl⟩ := hc.exists_name hv
  exact ⟨_, hv, assignable_trans_of_names hself hn hm hk htu huv⟩

/-- Two classes one above the other, and a protocol with the method of the upper one. -/
def layered : World where
  decls := (Declarations.empty.addAll
    [.constant ⟨⟨["BasicObject"], true⟩, [], [], .nowhere, .cls none⟩,
     .constant ⟨⟨["Object"], true⟩, [], [], .nowhere, .cls (some ⟨⟨["BasicObject"], true⟩, []⟩)⟩,
     .constant ⟨⟨["Upper"], true⟩, [], [.method ⟨"each", .instances, [], []⟩], .nowhere, .cls none⟩,
     .constant ⟨⟨["Lower"], true⟩, [], [], .nowhere, .cls (some ⟨⟨["Upper"], false⟩, []⟩)⟩,
     .protocol ⟨⟨["_Each"], true⟩, [], [⟨"each", .instances, [], []⟩], .nowhere⟩]).1
  roots := .standard

/-- By way of the class above, a union with the class below fits a union with the protocol. -/
theorem test_trans_layered :
    let lower : Ty := .union [.ofPath ⟨["Lower"], true⟩ [], .union []]
    let upper : Ty := .union [.union [.ofPath ⟨["Upper"], false⟩ []], .ofPath ⟨["Upper"], true⟩ []]
    let each : Ty := .union [.ofPath ⟨["Lower"], true⟩ [], .named ⟨.protocol, ⟨["_Each"], true⟩⟩ []]
    (layered.test lower upper (layered.inquiry [])).1 = true ∧
      (layered.test upper each (layered.inquiry [])).1 = true ∧
      (layered.test lower each (layered.inquiry [])).1 = true := by
  intro lower upper each
  have instances : ∀ p, (layered.interfaceOf none ⟨.instances, p⟩ (.empty layered)).1.toOption.isSome = true →
      (Ty.ofPath p []).Static layered := fun _ h => .named (.of_isSome (.inl rfl) h)
  have hlower : lower.Static layered := .union (List.forall_mem_cons.mpr
    ⟨instances _ (by decide +kernel), List.forall_mem_singleton.mpr (.union (List.forall_mem_nil _))⟩)
  have hupper : upper.Static layered := .union (List.forall_mem_cons.mpr
    ⟨.union (List.forall_mem_singleton.mpr (instances _ (by decide +kernel))),
      List.forall_mem_singleton.mpr (instances _ (by decide +kernel))⟩)
  have heach : each.Static layered := .union (List.forall_mem_cons.mpr
    ⟨instances _ (by decide +kernel),
      List.forall_mem_singleton.mpr (.named (.of_isSome (.inr rfl) (by decide +kernel)))⟩)
  obtain ⟨i, -, hi, hprovided⟩ := exists_built_of_map_eq (w := layered)
    (n := ⟨.instances, ⟨["Upper"], true⟩⟩) (f := fun i => i.methods.keys) (a := ["each"]) (by decide +kernel)
  obtain ⟨j, -, hj, hrequired⟩ := exists_built_of_map_eq (w := layered)
    (n := ⟨.protocol, ⟨["_Each"], true⟩⟩) (f := fun j => j.methods.keys) (a := ["each"]) (by decide +kernel)
  have hserves : ∀ absolute, Assignable layered (.ofPath ⟨["Upper"], absolute⟩ []) each := fun absolute =>
    .unionDest (fun h => h) (List.mem_cons_of_mem _ (List.mem_singleton_self _))
      (.protocol rfl hj hi fun _ hname => hprovided ▸ hrequired ▸ hname)
  have hab : (layered.test lower upper (layered.inquiry [])).1 = true := by
    rw [test_iff (idle_inquiry []) (asking_inquiry [])]
    refine .unionSource (List.forall_mem_cons.mpr ⟨?_, List.forall_mem_singleton.mpr
      (.unionSource (List.forall_mem_nil _))⟩)
    refine .unionDest (fun h => h) (List.mem_cons_of_mem _ (List.mem_singleton_self _)) ?_
    exact .ancestor .instances (by decide) (by decide +kernel)
  have hbc : (layered.test upper each (layered.inquiry [])).1 = true := by
    rw [test_iff (idle_inquiry []) (asking_inquiry [])]
    exact .unionSource (List.forall_mem_cons.mpr ⟨.unionSource (List.forall_mem_singleton.mpr
      (hserves false)), List.forall_mem_singleton.mpr (hserves true)⟩)
  exact ⟨hab, hbc,
    test_trans layered (by decide +kernel) [] [] [] lower upper each hlower hupper heach hab hbc⟩

end World

end MixinTypes
