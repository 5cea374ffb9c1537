import MixinTypes.Proofs.Merging.Chains

/-!
# Class and module objects along the ancestors

The object of a class is built over the object of its superclass, and the object of a class or module over
those of the modules that it includes: the same declarations that its instances build on. So whatever the
object of an ancestor has is there as well, but for `new`, which only a class object that can construct
keeps.

1. A name is in an interface when an interface that the plan requests has it or the plan defines it
   (`mem_keys_assemble_iff`), unless it is the one that the plan forgets.
2. Whether a class object can construct matters for `new` alone (`mem_keys_classObject`), by induction
   on how it was built.
3. The object of a parent is requested, if its name is resolved to it (`exists_object_of_mem_parents`), so
   an object has what the objects of all its ancestors have (`exists_object_of_inherits`).
-/

namespace MixinTypes

/-- The facets of class and module objects. -/
inductive Facet.Object : Facet → Prop where
  | classObject {k : Bool} : Object (.classObject k)
  | moduleObject : Object .moduleObject

theorem Facet.Object.ne_instances {f : Facet} (h : f.Object) : f ≠ .instances := by
  cases h <;> exact Facet.noConfusion

namespace World

variable {w : World} {n r : Nominal} {p q : Path} {c d : Constant} {name : String} {k k' : Bool}
  {plan : Plan} {found : Nominal → Interface} {i j : Interface}

/-! ## Names in interfaces -/

/-- Names come from the interfaces that a plan requests and from its definitions. -/
theorem mem_keys_assemble_iff (hp : w.plan n = .ok plan)
    (hname : name ≠ "new" ∨ n.facet ≠ .classObject false) :
    name ∈ (plan.assemble found).methods.keys ↔
      (∃ r ∈ plan.requests, name ∈ (found r).methods.keys) ∨ ∃ s ∈ plan.steps, s.Defines name := by
  rw [Plan.requests, ← Step.exists_offers_iff_defines]
  exact (Step.mem_keys_foldl_apply (ne_drop_of_mem hp hname)).trans (or_iff_left List.not_mem_nil)

/-- A name in an interface that is requested is there, but for the one that is forgotten. -/
theorem mem_keys_of_dependsOn (hi : Built w n i) (hr : w.DependsOn n r) (hj : Built w r j)
    (hname : name ≠ "new" ∨ n.facet ≠ .classObject false) (h : name ∈ j.methods.keys) :
    name ∈ i.methods.keys := by
  obtain ⟨plan, hplan, hmem⟩ := hr.exists_request
  cases hi with
  | intro found hp hb =>
    obtain rfl := Except.ok.inj (hplan.symm.trans hp)
    obtain rfl := hj.unique (hb r hmem)
    exact (mem_keys_assemble_iff hp hname).mpr (.inl ⟨r, hmem, h⟩)

/-- A class object that cannot construct has no `new`. -/
theorem new_not_mem_keys (hi : Built w ⟨.classObject false, p⟩ i) : "new" ∉ i.methods.keys := by
  cases hi with
  | intro found hp hb =>
    obtain ⟨c, -, rfl⟩ := exists_of_map_eq_ok hp
    change "new" ∉ (((w.classPlan false c).steps).foldl (Step.apply found) .empty).methods.keys
    rw [classPlan, List.foldl_append]
    change "new" ∉ (Table.erase _ "new").keys
    simp [Table.keys_erase]

/-! ## With and without construction -/

theorem absoluteName_classObject (scope : Option Path) (p : Path) (k k' : Bool) :
    w.absoluteName scope ⟨.classObject k', p⟩ =
      ⟨.classObject k', (w.absoluteName scope ⟨.classObject k, p⟩).path⟩ := by
  cases scope with
  | none => rfl
  | some s =>
    have hlocate : w.locate s ⟨.classObject k', p⟩ = w.locate s ⟨.classObject k, p⟩ := rfl
    simp only [absoluteName, hlocate]
    split <;> rfl

/-- What a class object defines, apart from `new`. -/
theorem exists_defines_classPlan_iff (hname : name ≠ "new") :
    (∃ s ∈ (w.classPlan k c).steps, s.Defines name) ↔
      ∃ m ∈ c.methods, m.onObject = true ∧ name = m.name := by
  constructor
  · have note : ∀ u, (Step.note u).Defines name → ∃ m ∈ c.methods, m.onObject = true ∧ name = m.name :=
      fun _ => False.elim
    have mix : ∀ r args, (Step.mix r args).Defines name →
        ∃ m ∈ c.methods, m.onObject = true ∧ name = m.name := fun _ _ => False.elim
    have hall : ∀ s ∈ (w.classPlan k c).steps, s.Defines name →
        ∃ m ∈ c.methods, m.onObject = true ∧ name = m.name := by
      simp only [classPlan, List.forall_mem_append]
      refine ⟨⟨⟨⟨?_, ?_⟩, ?_⟩, ?_⟩, ?_⟩
      · exact List.forall_mem_singleton.mpr False.elim
      · exact forall_mem_superclassObjectSteps note mix k
      · exact forall_mem_objectMixinSteps note mix
      · exact List.forall_mem_flatMap.mpr fun m hm => forall_mem_classMethodSteps note
          (fun hside heq => ⟨m, hm, hside, heq⟩) hname.elim
      · cases k with
        | false => exact List.forall_mem_singleton.mpr False.elim
        | true => exact List.forall_mem_nil _
    rintro ⟨s, hs, hdefines⟩
    exact hall s hs hdefines
  · rintro ⟨m, hm, hside, rfl⟩
    refine ⟨.define (w.definition (some c.path) ⟨.classObject k, c.path⟩ m), ?_, rfl⟩
    have hmem : .define (w.definition (some c.path) ⟨.classObject k, c.path⟩ m) ∈
        w.classMethodSteps c k m := by
      rw [classMethodSteps, if_pos hside]
      exact List.mem_append_right _ (List.mem_singleton_self _)
    exact List.mem_append_left _ (List.mem_append_right _ (List.mem_flatMap.mpr ⟨m, hm, hmem⟩))

/-- The object of the superclass can construct when the class object can; everything else is the same for
both. -/
theorem DependsOn.classObject (h : w.DependsOn ⟨.classObject k, p⟩ r) (k' : Bool) :
    w.DependsOn ⟨.classObject k', p⟩ r ∨
      ∃ q, r = ⟨.classObject k, q⟩ ∧ w.DependsOn ⟨.classObject k', p⟩ ⟨.classObject k', q⟩ := by
  cases h with
  | classOfClasses found => exact .inl (.classOfClasses found)
  | superclassObject found isClass notRoot =>
    refine .inr ⟨_, absoluteName_classObject _ _ k k, ?_⟩
    rw [← absoluteName_classObject]
    exact .superclassObject found isClass notRoot
  | classIncluded found member => exact .inl (.classIncluded found member)
  | classExtended found member => exact .inl (.classExtended found member)

/-- What one class object has apart from `new`, the other has as well. -/
theorem mem_keys_classObject (hi : Built w ⟨.classObject k, p⟩ i) (hj : Built w ⟨.classObject k', p⟩ j)
    (hname : name ≠ "new") (h : name ∈ i.methods.keys) : name ∈ j.methods.keys := by
  generalize hn : (⟨.classObject k, p⟩ : Nominal) = n at hi
  induction hi generalizing p j with
  | @intro n plan found hp hb ih =>
    subst hn
    rcases (mem_keys_assemble_iff hp (.inl hname)).mp h with ⟨r, hr, hkey⟩ | hdefines
    · rcases (dependsOn_of_request hp hr).classObject k' with hdep | ⟨q, rfl, hdep⟩
      · exact mem_keys_of_dependsOn hj hdep (hb r hr) (.inl hname) hkey
      · obtain ⟨j', hj'⟩ := hj.of_dependsOn hdep
        exact mem_keys_of_dependsOn hj hdep hj' (.inl hname) (ih _ hr hj' hkey rfl)
    · obtain ⟨c, hc, rfl⟩ := exists_of_map_eq_ok hp
      cases hj with
      | intro found' hp' hb' =>
        obtain rfl := Except.ok.inj ((plan_classObject hc).symm.trans hp')
        rw [exists_defines_classPlan_iff hname] at hdefines
        refine (mem_keys_assemble_iff hp' (.inl hname)).mpr (.inr ?_)
        rwa [exists_defines_classPlan_iff hname]

/-! ## The objects of ancestors -/

/-- In a scope where its path denotes a constant, a name of an object that is declared and has become
absolute is that of the constant. -/
theorem absoluteName_object {facet : Facet} {scope a : Path} (hobject : facet.Object)
    (hres : w.decls.resolve? (some scope) a = some d)
    (habs : (w.absoluteName (some scope) ⟨facet, a⟩).path.absolute = true)
    (hd : w.Declared (w.absoluteName (some scope) ⟨facet, a⟩)) :
    w.absoluteName (some scope) ⟨facet, a⟩ = ⟨facet, d.path⟩ := by
  -- a name that stays as it is written leads to the same constant without the scope
  have mismatch : ∀ kind, a.absolute = true → d.body.kind ≠ kind →
      ¬ ∃ c, w.decls.findKind kind none a = .ok c := by
    rintro kind ha hkind ⟨c, hc⟩
    have hroot : w.decls.resolve? none a = some d := by
      rw [Declarations.resolve?_of_absolute ha] at hres ⊢
      exact hres
    rw [Declarations.findKind_of_resolve? hroot, if_neg hkind] at hc
    cases hc
  have hlocate := Declarations.findKind_of_resolve? hres
  cases hobject with
  | classObject =>
    by_cases hkind : d.body.kind = .cls
    · simp only [absoluteName, locate, hlocate, if_pos hkind]
      rfl
    · simp only [absoluteName, locate, hlocate, if_neg hkind] at habs hd
      exact absurd hd (mismatch .cls habs hkind)
  | moduleObject =>
    by_cases hkind : d.body.kind = .mod
    · simp only [absoluteName, locate, hlocate, if_pos hkind]
      rfl
    · simp only [absoluteName, locate, hlocate, if_neg hkind] at habs hd
      exact absurd hd (mismatch .mod habs hkind)

/-- No name of an object that is needed for `n` stays relative, as one does for which its scope has a
constant of the wrong kind. -/
def Rooted (w : World) (n : Nominal) : Prop :=
  ∀ r, w.Reaches n r → r.facet ≠ .instances → r.path.absolute = true

theorem Rooted.of_dependsOn (h : w.Rooted n) (hr : w.DependsOn n r) : w.Rooted r :=
  fun _ hreaches => h _ (.head hr hreaches)

/-- To see that no name of an object stays relative it is enough to look at names that are closed under
what their plans request. -/
theorem rooted_of_closed {names : List Nominal} (hn : n ∈ names)
    (hclosed : ∀ k ∈ names, ∀ p ∈ (w.plan k).toOption, ∀ r ∈ p.requests, r ∈ names)
    (habs : ∀ k ∈ names, k.facet ≠ .instances → k.path.absolute = true) : w.Rooted n := by
  intro r hr
  refine habs r ?_
  induction hr with
  | refl => exact hn
  | tail _ hdep ih =>
    obtain ⟨p, hp, hmem⟩ := hdep.exists_request
    exact hclosed _ ih p (by rw [hp]; rfl) _ hmem

/-- The object of a parent is needed for the object. -/
theorem exists_object_of_mem_parents (hobject : n.facet.Object) (hrooted : w.Rooted n)
    (hi : Built w n i) (hq : q ∈ w.parents n.path.toAbsolute) :
    ∃ f : Facet, w.DependsOn n ⟨f, q⟩ ∧ (f = n.facet ∨ f = .moduleObject) := by
  have resolved : ∀ {scope a : Path} {d : Constant} {f : Facet}, f.Object →
      w.decls.resolve? (some scope) a = some d →
      w.DependsOn n (w.absoluteName (some scope) ⟨f, a⟩) → w.DependsOn n ⟨f, d.path⟩ := by
    intro scope a d f hf hres hdep
    obtain ⟨j, hj⟩ := hi.of_dependsOn hdep
    have hne : (w.absoluteName (some scope) ⟨f, a⟩).facet ≠ .instances := by
      rw [absoluteName_facet]
      exact hf.ne_instances
    have habs := hrooted _ (.single hdep) hne
    rwa [absoluteName_object hf hres habs hj.declared] at hdep
  obtain ⟨facet, p⟩ := n
  have hdeclared := hi.declared
  cases hobject with
  | @classObject k =>
    obtain ⟨c, hc⟩ := hdeclared
    have hfind := (Declarations.find_of_findKind hc).1
    obtain ⟨a, ha, d, hres, rfl⟩ := (mem_parents_iff (Declarations.find_eq_ok_iff.mp hfind)).mp hq
    rcases List.mem_append.mp ha with ha | ha
    · have hmem := List.mem_map_of_mem
        (f := fun a : Applied => w.absoluteName (some c.path) ⟨.classObject k, a.path⟩) ha
      obtain ⟨s, hbody, hroot, heq⟩ := (mem_map_base?
        (f := fun p => w.absoluteName (some c.path) ⟨.classObject k, p⟩)).mp hmem
      have hdep : w.DependsOn ⟨.classObject k, p⟩
          (w.absoluteName (some c.path) ⟨.classObject k, a.path⟩) :=
        heq ▸ .superclassObject hc hbody hroot
      exact ⟨.classObject k, resolved .classObject hres hdep, .inl rfl⟩
    · have hdep := DependsOn.classIncluded (k := k) hc (Constant.mem_includes.mp ha)
      exact ⟨.moduleObject, resolved .moduleObject hres hdep, .inr rfl⟩
  | moduleObject =>
    obtain ⟨c, hc⟩ := hdeclared
    obtain ⟨hfind, hkind⟩ := Declarations.find_of_findKind hc
    obtain ⟨a, ha, d, hres, rfl⟩ := (mem_parents_iff (Declarations.find_eq_ok_iff.mp hfind)).mp hq
    have hbase : w.base? c = none := by
      unfold base?
      split
      · rfl
      · next hbody => rw [hbody] at hkind; cases hkind
    rw [hbase, Option.toList_none, List.nil_append] at ha
    have hdep := DependsOn.moduleIncluded hc (Constant.mem_includes.mp ha)
    exact ⟨.moduleObject, resolved .moduleObject hres hdep, .inr rfl⟩

/-- What the object of an ancestor has, the object has, but for `new` where it is forgotten. -/
theorem exists_object_of_inherits {facet : Facet} (hobject : facet.Object)
    (hrooted : w.Rooted ⟨facet, p⟩) (hi : Built w ⟨facet, p⟩ i) (hp : p.absolute = true)
    (h : w.Inherits p q) :
    ∃ f j, Built w ⟨f, q⟩ j ∧ (f = facet ∨ f = .moduleObject) ∧
      ∀ name, name ≠ "new" ∨ facet ≠ .classObject false → name ∈ j.methods.keys →
        name ∈ i.methods.keys := by
  induction h using Relation.ReflTransGen.head_induction_on generalizing facet i with
  | refl => exact ⟨facet, i, hi, .inl rfl, fun _ _ h => h⟩
  | @head p q' hparent _ ih =>
    have hq' : q' ∈ w.parents p.toAbsolute := by rwa [Path.toAbsolute_eq_self hp]
    obtain ⟨f', hdep, hf'⟩ := exists_object_of_mem_parents hobject hrooted hi hq'
    have hobject' : f'.Object := by
      rcases hf' with rfl | rfl
      · exact hobject
      · exact .moduleObject
    obtain ⟨i', hi'⟩ := hi.of_dependsOn hdep
    obtain ⟨f, j, hj, hf, hkeys⟩ :=
      ih hobject' (hrooted.of_dependsOn hdep) hi' (absolute_of_mem_parents hparent)
    refine ⟨f, j, hj, ?_, fun name hname hkey => ?_⟩
    · rcases hf with rfl | rfl
      · exact hf'
      · exact .inr rfl
    · refine mem_keys_of_dependsOn hi hdep hi' hname (hkeys name ?_ hkey)
      refine hname.imp_right fun hne heq => ?_
      rcases hf' with rfl | rfl
      · exact hne heq
      · cases heq

/-- A class object has what the object of a class among its ancestors has; only `new` may be missing, when
it cannot construct and the other can. -/
theorem mem_keys_of_inherits (hrooted : w.Rooted ⟨.classObject k, p⟩)
    (hi : Built w ⟨.classObject k, p⟩ i) (hp : p.absolute = true) (h : w.Inherits p q)
    (hj : Built w ⟨.classObject k', q⟩ j) (hname : name ∈ j.methods.keys) :
    name ∈ i.methods.keys ∨ name = "new" ∧ k = false ∧ k' = true := by
  obtain ⟨f, j', hj', hf, hkeys⟩ := exists_object_of_inherits .classObject hrooted hi hp h
  obtain ⟨c, hc⟩ := hj.declared
  -- what is a class is no module
  have hf : f = .classObject k := by
    refine hf.resolve_right ?_
    rintro rfl
    obtain ⟨c', hc'⟩ := hj'.declared
    obtain ⟨hfind, hkind⟩ := Declarations.find_of_findKind hc
    obtain ⟨hfind', hkind'⟩ := Declarations.find_of_findKind hc'
    obtain rfl := Except.ok.inj (hfind.symm.trans hfind')
    cases hkind.symm.trans hkind'
  subst hf
  by_cases hnew : name = "new"
  · subst hnew
    cases k' with
    | false => exact absurd hname (new_not_mem_keys hj)
    | true =>
      cases k with
      | false => exact .inr ⟨rfl, rfl, rfl⟩
      | true =>
        obtain rfl := hj.unique hj'
        exact .inl (hkeys _ (.inr (by decide)) hname)
  · exact .inl (hkeys name (.inl hnew) (mem_keys_classObject hj hj' hnew hname))

end World

end MixinTypes
