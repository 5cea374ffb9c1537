import MixinTypes.Proofs.Ancestry.Objects
import MixinTypes.Proofs.Ancestry.Supers
import MixinTypes.Proofs.Assignability.Decision

/-!
# Methods where a type is expected

Names are compared by ancestry, and interfaces are put together along the same declarations: so where no
module has a self-type, values of a nominal type have all the methods of a type of the same kind that they
may be used for. The comparison does not look at whether a class object can construct, but its interface
does: a class object that cannot has no `new`.

1. Without self-types one name is assignable to another of the same kind only when it inherits from it
   (`inherits_of_assignable`).
2. Instances then have what the instances above them have, and class objects what the class objects above
   them have, but for `new` (`methods_of_test`).
-/

namespace MixinTypes.World

variable {w : World} {n m : Nominal} {i j : Interface} {args params : List Ty}

/-- Without self-types only ancestry makes names of the same kind assignable. -/
theorem inherits_of_assignable (hself : ∀ c ∈ w.decls.constants, c.selfType? = none)
    (akin : n.facet.Akin m.facet) (h : Assignable w (.named n args) (.named m params)) :
    w.Inherits n.path.toAbsolute m.path.toAbsolute := by
  obtain ⟨facet, p⟩ := n
  obtain ⟨facet', q⟩ := m
  cases h with
  | refl => exact .refl
  | sameDeclaration _ same => rw [same]
  | ancestor _ _ mem => exact mem_ancestors_iff.mp mem
  | furtherType _ _ _ built mem =>
    rw [supers_eq_nil hself built] at mem
    cases mem
  | protocol target =>
    cases target
    cases akin
  | moduleObject source =>
    cases source
    cases akin

/-- Instances have the methods of the instances that they inherit from. -/
theorem mem_keys_instances_of_inherits {p q : Path} {name : String}
    (hi : Built w ⟨.instances, p.toAbsolute⟩ i) (hj : Built w ⟨.instances, q.toAbsolute⟩ j)
    (h : w.Inherits p.toAbsolute q.toAbsolute) (hname : name ∈ j.methods.keys) :
    name ∈ i.methods.keys := by
  obtain ⟨a, ha, hprovides⟩ := ((surveys_of_built hj rfl).names name).mp hname
  exact ((surveys_of_built hi rfl).names name).mpr ⟨a, h.trans ha, hprovides⟩

/-- At any time in a session and where no module has a self-type: when a test finds instances assignable
to instances, or a class object to a class object, whatever their arguments, then the first have all the
methods of the second, save for `new` when the first is a class object that cannot construct and the
second is one that can. -/
theorem methods_of_test (w : World) (history : List Query) (n m : Nominal) (args params : List Ty)
    (i j : Interface) (hself : ∀ c ∈ w.decls.constants, c.selfType? = none)
    (akin : n.facet.Akin m.facet) (hrooted : w.Rooted n.toAbsolute)
    (hi : (w.interfaceOf none n (w.inquiry history).memo).1 = .ok i)
    (hj : (w.interfaceOf none m (w.inquiry history).memo).1 = .ok j)
    (htest : (w.test (.named n args) (.named m params) (w.inquiry history)).1 = true) :
    ∀ name ∈ j.methods.keys, name ∈ i.methods.keys ∨
      name = "new" ∧ n.facet = .classObject false ∧ m.facet = .classObject true := by
  rw [interfaceOf_eq_ok_iff (idle_inquiry history)] at hi hj
  rw [test_iff (idle_inquiry history) (asking_inquiry history)] at htest
  have hinherits := inherits_of_assignable hself akin htest
  obtain ⟨facet, p⟩ := n
  obtain ⟨facet', q⟩ := m
  intro name hname
  cases akin with
  | instances => exact .inl (mem_keys_instances_of_inherits hi hj hinherits hname)
  | classObjects =>
    refine (mem_keys_of_inherits hrooted hi rfl hinherits hj hname).imp_right ?_
    rintro ⟨rfl, rfl, rfl⟩
    exact ⟨rfl, rfl, rfl⟩

/-- A class that can be constructed and has a method of its own, and a class below it. -/
def constructing : World where
  decls := (Declarations.empty.addAll
    [.constant ⟨⟨["BasicObject"], true⟩, [], [], .nowhere, .cls none⟩,
     .constant ⟨⟨["Object"], true⟩, [], [], .nowhere, .cls (some ⟨⟨["BasicObject"], true⟩, []⟩)⟩,
     .constant ⟨⟨["Class"], true⟩, [], [], .nowhere, .cls none⟩,
     .constant ⟨⟨["Upper"], true⟩, [],
      [.method ⟨"initialize", .instances, [], []⟩, .method ⟨"make", .object, [], []⟩], .nowhere,
      .cls none⟩,
     .constant ⟨⟨["Lower"], true⟩, [], [], .nowhere, .cls (some ⟨⟨["Upper"], false⟩, []⟩)⟩]).1
  roots := .standard

theorem selfType?_constructing : ∀ c ∈ constructing.decls.constants, c.selfType? = none := by
  decide +kernel

/-- The class object below and all that is needed for it. -/
def constructed : List Nominal :=
  ["Lower", "Upper", "Object", "BasicObject"].map (fun s => ⟨.classObject true, ⟨[s], true⟩⟩)
    ++ ["Class", "Object", "BasicObject"].map (fun s => ⟨.instances, ⟨[s], true⟩⟩)

theorem rooted_constructing : constructing.Rooted ⟨.classObject true, ⟨["Lower"], true⟩⟩ := by
  have hclosed : ∀ k ∈ constructed, ∀ p ∈ (constructing.plan k).toOption, ∀ r ∈ p.requests,
      r ∈ constructed := by
    decide +kernel
  exact rooted_of_closed (by decide) hclosed (by decide)

/-- The class object below has what the one above has, `new` included, as both can construct. -/
theorem methods_of_test_constructing :
    ∃ i j, (constructing.interfaceOf none ⟨.classObject true, ⟨["Lower"], true⟩⟩
        (.empty constructing)).1 = .ok i ∧
      (constructing.interfaceOf none ⟨.classObject true, ⟨["Upper"], true⟩⟩
        (.empty constructing)).1 = .ok j ∧
      j.methods.keys = ["new", "make"] ∧ ∀ name ∈ j.methods.keys, name ∈ i.methods.keys := by
  obtain ⟨i, hi, -, -⟩ := exists_built_of_map_eq (w := constructing)
    (n := ⟨.classObject true, ⟨["Lower"], true⟩⟩) (f := Interface.supers) (a := []) (by decide +kernel)
  obtain ⟨j, hj, -, hkeys⟩ := exists_built_of_map_eq (w := constructing)
    (n := ⟨.classObject true, ⟨["Upper"], true⟩⟩) (f := fun j => j.methods.keys) (a := ["new", "make"])
    (by decide +kernel)
  have htest : (constructing.test (.named ⟨.classObject true, ⟨["Lower"], true⟩⟩ [])
      (.named ⟨.classObject true, ⟨["Upper"], true⟩⟩ []) (constructing.inquiry [])).1 = true := by
    rw [test_iff (idle_inquiry []) (asking_inquiry [])]
    exact .ancestor .classObjects (by decide) (by decide +kernel)
  have hmethods := methods_of_test constructing [] ⟨.classObject true, ⟨["Lower"], true⟩⟩ _ [] [] i j
    selfType?_constructing .classObjects rooted_constructing hi hj htest
  refine ⟨i, j, hi, hj, hkeys, fun name hname => (hmethods name hname).resolve_right ?_⟩
  rintro ⟨-, hfacet, -⟩
  cases hfacet

/-- The object of a class that cannot construct may be used for the one that can, and has no `new`. -/
theorem not_methods_of_test_constructing :
    (∀ c ∈ constructing.decls.constants, c.selfType? = none) ∧
      ¬ ∀ n m i j, n.facet.Akin m.facet →
        (constructing.interfaceOf none n (.empty constructing)).1 = .ok i →
        (constructing.interfaceOf none m (.empty constructing)).1 = .ok j →
        (constructing.test (.named n []) (.named m []) (.start (.empty constructing))).1 = true →
        ∀ name ∈ j.methods.keys, name ∈ i.methods.keys := by
  refine ⟨selfType?_constructing, fun h => ?_⟩
  obtain ⟨i, hi, hbuilt, -⟩ := exists_built_of_map_eq (w := constructing)
    (n := ⟨.classObject false, ⟨["Upper"], true⟩⟩) (f := Interface.supers) (a := []) (by decide +kernel)
  obtain ⟨j, hj, -, hkeys⟩ := exists_built_of_map_eq (w := constructing)
    (n := ⟨.classObject true, ⟨["Upper"], true⟩⟩) (f := fun j => j.methods.keys) (a := ["new", "make"])
    (by decide +kernel)
  have htest : (constructing.test (.named ⟨.classObject false, ⟨["Upper"], true⟩⟩ [])
      (.named ⟨.classObject true, ⟨["Upper"], true⟩⟩ []) (constructing.inquiry [])).1 = true := by
    rw [test_iff (idle_inquiry []) (asking_inquiry [])]
    exact .sameDeclaration .classObjects rfl rfl (List.forall_mem_nil _) (List.forall_mem_nil _)
  have hnew := h _ _ i j .classObjects hi hj htest "new" (hkeys ▸ List.mem_cons_self ..)
  exact new_not_mem_keys hbuilt hnew

end MixinTypes.World
