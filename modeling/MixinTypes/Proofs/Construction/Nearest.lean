import MixinTypes.Proofs.Ancestry.Objects
import MixinTypes.Proofs.Linking.Outcome

/-!
# Where `new` comes from

The object of a class gets `new` from the last `initialize` of the class. A class without one takes what
the object of its superclass has, and in the end there is the `new` of any class, which class objects
have as instances of the class of classes. So it is the nearest class with an `initialize` that counts,
however far up it is.

1. Steps that do not offer a name leave what is there under it (`Step.get?_foldl_apply_of_not_offers`), so
   of the steps towards a class object only its initializers and the superclass bear on `new`
   (`get?_new_classPlan`, `get?_new_superclassObjectSteps`).
2. What the superclass has is put over what any class has: the definition of an initializer is owned by
   a class object and thus not covered, and the `new` of any class covers itself (`FromNearest.derived`).
3. By induction on how the interface was built, over the chain of superclasses, the nearest initializer
   is what `new` comes from (`new_from_nearest`).
-/

namespace MixinTypes

/-! ## Steps that leave a name alone -/

namespace Step

variable {found : Nominal → Interface} {g : Gathered} {key : String}

theorem get?_apply_of_not_offers {s : Step} (hs : ¬ s.Offers found key) (hdrop : s ≠ .drop key) :
    (s.apply found g).methods.get? key = g.methods.get? key := by
  have silent : ∀ (i : Interface) (args : List Ty), key ∉ i.methods.keys →
      (g.merge i args).methods.get? key = g.methods.get? key := by
    intro i args hkey
    have hnone : i.methods.get? key = none := Table.valueIn?_eq_none_iff.mpr hkey
    rw [Gathered.get?_merge]
    have hnone : (i.instantiate args .id).methods.get? key = none :=
      (Table.get?_map ..).trans (congrArg _ hnone)
    rw [hnone]
  cases s with
  | note | constrain => rfl
  | seed source args | mix source args => exact silent _ args hs
  | define d => exact (MethodTable.get?_override ..).trans (if_neg (Ne.symm hs))
  | put d => exact (Table.get?_insert ..).trans (if_neg (Ne.symm hs))
  | drop name => exact (Table.get?_erase ..).trans (if_neg fun h : name = key => hdrop (h ▸ rfl))

theorem get?_foldl_apply_of_not_offers {ss : List Step}
    (hs : ∀ s ∈ ss, ¬ s.Offers found key ∧ s ≠ .drop key) :
    (ss.foldl (apply found) g).methods.get? key = g.methods.get? key := by
  induction ss generalizing g with
  | nil => rfl
  | cons s ss ih =>
    obtain ⟨hoffers, hdrop⟩ := hs s (List.mem_cons_self ..)
    rw [List.foldl_cons, ih fun t ht => hs t (List.mem_cons_of_mem s ht),
      get?_apply_of_not_offers hoffers hdrop]

/-- A step after notes. -/
theorem foldl_apply_noted (us : List Unresolved) (s : Step) (g : Gathered) :
    (us.map note ++ [s]).foldl (apply found) g = s.apply found g := by
  rw [List.foldl_append, foldl_apply_note]
  rfl

end Step

/-! ## Initializers and superclasses -/

/-- The method tells how instances are made: it is called `initialize`, and only the instances have
it. -/
def MethodDecl.Initializes (m : MethodDecl) : Prop := m.side = .instances ∧ m.name = "initialize"

instance (m : MethodDecl) : Decidable m.Initializes := inferInstanceAs (Decidable (_ ∧ _))

/-- The last method of the class that tells how instances are made. -/
def Constant.initializer? (c : Constant) : Option MethodDecl :=
  (c.methods.filter fun m => m.Initializes).getLast?

namespace World

/-- The definition of `new` that an initializer of the class gives to the object of the class. -/
def construction (w : World) (c : Constant) (m : MethodDecl) : Definition :=
  ⟨⟨.classObject true, c.path⟩, "new", m.signatures.map (w.overload (some c.path) (some .inst)), []⟩

/-- A class and its superclasses, nearest first, as the names of their objects are resolved. -/
inductive Lineage (w : World) : Constant → List Constant → Prop where
  | root {c : Constant} (top : w.base? c = none) : Lineage w c [c]
  | derived {c d : Constant} {base : Applied} {chain : List Constant} (superclass : w.base? c = some base)
      (found : w.decls.findKind .cls none
        (w.absoluteName (some c.path) ⟨.classObject true, base.path⟩).path = .ok d)
      (above : Lineage w d chain) : Lineage w c (c :: chain)

/-- The class neither declares `new` for its object nor takes it from a mixin. -/
structure LeavesNew (w : World) (c : Constant) : Prop where
  declared : ∀ m ∈ c.methods, m.onObject = true → m.name ≠ "new"
  included : ∀ a, .included a ∈ c.members → ∀ i,
    Built w (w.absoluteName (some c.path) ⟨.moduleObject, a.path⟩) i → "new" ∉ i.methods.keys
  extended : ∀ a, .extended a ∈ c.members → ∀ i,
    Built w (w.absoluteName (some c.path) ⟨.instances, a.path⟩) i → "new" ∉ i.methods.keys

/-- What is there under `new` comes from the first class of the chain that has an initializer, or, if
there is none, from the instances of the class of classes, whose interface is `k`. -/
def FromNearest (w : World) (k : Interface) (chain : List Constant) (new? : Option Method) : Prop :=
  match chain.findSome? fun c => c.initializer?.map (c, ·) with
  | some (c, m) => ∃ f, new? = some f ∧ f.own = w.construction c m
  | none => new? = (k.instantiate [.inst] .id).methods.get? "new"

variable {w : World} {c d : Constant} {base : Applied} {chain chain' : List Constant}
  {found : Nominal → Interface} {g : Gathered} {i k : Interface}

/-- A class has one chain of superclasses. -/
theorem Lineage.unique (h : w.Lineage c chain) (h' : w.Lineage c chain') : chain = chain' := by
  induction h generalizing chain' with
  | root top =>
    cases h' with
    | root => rfl
    | derived superclass => cases top.symm.trans superclass
  | derived superclass hfound _ ih =>
    cases h' with
    | root top => cases top.symm.trans superclass
    | derived superclass' hfound' above' =>
      obtain rfl := Option.some.inj (superclass.symm.trans superclass')
      obtain rfl := Except.ok.inj (hfound.symm.trans hfound')
      rw [ih above']

/-! ## The steps towards a class object -/

theorem get?_new_objectMixinSteps (hc : w.LeavesNew c)
    (hb : ∀ r ∈ (w.objectMixinSteps c).filterMap Step.request?, Built w r (found r)) :
    ((w.objectMixinSteps c).foldl (Step.apply found) g).methods.get? "new" = g.methods.get? "new" := by
  have own : ∀ s ∈ w.objectMixinSteps c, ¬ s.Defines "new" ∧ s ≠ .drop "new" :=
    forall_mem_objectMixinSteps (fun _ => ⟨id, Step.noConfusion⟩) fun _ _ => ⟨id, Step.noConfusion⟩
  refine Step.get?_foldl_apply_of_not_offers fun s hs => ⟨fun hoffers => ?_, (own s hs).2⟩
  rcases Step.offers_iff.mp hoffers with hdefines | ⟨r, hr, hkey⟩
  · exact (own s hs).1 hdefines
  · have hmem : r ∈ (w.objectMixinSteps c).filterMap Step.request? :=
      List.mem_filterMap.mpr ⟨s, hs, hr⟩
    have hbuilt := hb r hmem
    rcases mem_requests_objectMixinSteps.mp hmem with ⟨a, ha, rfl⟩ | ⟨a, ha, rfl⟩
    · exact hc.included a ha _ hbuilt hkey
    · exact hc.extended a ha _ hbuilt hkey

/-- A method of the class replaces `new` if it is an initializer. -/
theorem get?_new_classMethodSteps {m : MethodDecl} (hm : m.onObject = true → m.name ≠ "new") :
    ((w.classMethodSteps c true m).foldl (Step.apply found) g).methods.get? "new" =
      if m.Initializes then some (.ofDefinition (w.construction c m)) else g.methods.get? "new" := by
  unfold classMethodSteps
  split
  · next hside =>
    have hside' : m.side ≠ .instances := of_decide_eq_true hside
    rw [defineSteps, noteSignatures, Step.foldl_apply_noted, if_neg fun h => hside' h.1]
    exact (MethodTable.get?_override ..).trans (if_neg (hm hside))
  · next hside =>
    have hside : m.side = .instances := by simpa [MethodDecl.onObject] using hside
    split
    · next hname =>
      have hname : m.name = "initialize" := by simpa using hname
      rw [noteSignatures, Step.foldl_apply_noted, if_pos ⟨hside, hname⟩]
      exact (Table.get?_insert ..).trans (if_pos rfl)
    · next hname =>
      have hname : ¬ m.name = "initialize" := by simpa using hname
      rw [if_neg fun h => hname h.2]
      rfl

/-- The last initializer replaces `new`. -/
theorem get?_new_methods {ms : List MethodDecl} (hms : ∀ m ∈ ms, m.onObject = true → m.name ≠ "new") :
    ((ms.flatMap (w.classMethodSteps c true)).foldl (Step.apply found) g).methods.get? "new" =
      ((ms.filter fun m => m.Initializes).getLast?.map fun m => .ofDefinition (w.construction c m)).or
        (g.methods.get? "new") := by
  induction ms generalizing g with
  | nil => rfl
  | cons m ms ih =>
    rw [List.flatMap_cons, List.foldl_append, ih fun m' hm' => hms m' (List.mem_cons_of_mem m hm'),
      get?_new_classMethodSteps (hms m (List.mem_cons_self ..))]
    by_cases h : m.Initializes
    · rw [if_pos h, List.filter_cons_of_pos (by simpa using h), List.getLast?_cons]
      cases (ms.filter fun m => m.Initializes).getLast? <;> rfl
    · rw [if_neg h, List.filter_cons_of_neg (by simpa using h)]

/-- What bears on `new`: the initializer of the class, and else what the superclass brings. -/
theorem get?_new_classPlan (hc : w.LeavesNew c)
    (hb : ∀ r ∈ (w.classPlan true c).requests, Built w r (found r)) :
    ((w.classPlan true c).assemble found).methods.get? "new" =
      (c.initializer?.map fun m => .ofDefinition (w.construction c m)).or
        (((w.superclassObjectSteps c true).foldl (Step.apply found)
          ((Step.seed ⟨.instances, w.roots.classClass.toAbsolute⟩ [.inst]).apply found .empty)).methods.get?
            "new") := by
  have hmixins : ∀ r ∈ (w.objectMixinSteps c).filterMap Step.request?, Built w r (found r) :=
    fun r hr => hb r (mem_requests_classPlan.mpr (.inr (.inr hr)))
  change (((w.classPlan true c).steps).foldl (Step.apply found) .empty).methods.get? "new" = _
  rw [classPlan, if_pos rfl, List.append_nil, List.foldl_append, get?_new_methods hc.declared,
    List.foldl_append, get?_new_objectMixinSteps hc hmixins, List.foldl_append]
  rfl

theorem get?_new_seed (r : Nominal) (args : List Ty) :
    ((Step.seed r args).apply found .empty).methods.get? "new" =
      ((found r).instantiate args .id).methods.get? "new" :=
  congrArg (Table.get? · "new") (Gathered.methods_merge_empty (found r) args)

/-- What the object of the superclass has under `new` is put over what is there. -/
theorem get?_new_superclassObjectSteps (h : w.base? c = some base) :
    ((w.superclassObjectSteps c true).foldl (Step.apply found) g).methods.get? "new" =
      (((found (w.absoluteName (some c.path) ⟨.classObject true, base.path⟩)).methods.get? "new").map
        (·.atop (g.methods.get? "new"))).or (g.methods.get? "new") := by
  have hsteps : w.superclassObjectSteps c true =
      (w.unresolved? (some c.path) ⟨.classObject true, base.path⟩).toList.map .note ++
        [.mix (w.absoluteName (some c.path) ⟨.classObject true, base.path⟩) []] := by
    unfold superclassObjectSteps
    rw [h]
    rfl
  rw [hsteps, Step.foldl_apply_noted]
  refine (Gathered.get?_merge ..).trans ?_
  rw [Interface.instantiate_nil]
  split
  · next hnone => rw [hnone]; rfl
  · next hsome => rw [hsome]; rfl

/-! ## Up the chain -/

/-- The class at the top starts from the `new` of any class. -/
theorem fromNearest_root (w : World) (k : Interface) (c : Constant) :
    w.FromNearest k [c] ((c.initializer?.map fun m => .ofDefinition (w.construction c m)).or
      ((k.instantiate [.inst] .id).methods.get? "new")) := by
  unfold FromNearest
  rw [List.findSome?_singleton]
  cases c.initializer? with
  | none => rfl
  | some m => exact ⟨_, rfl, rfl⟩

/-- Every other class puts what its superclass has over the `new` of any class, which makes no
difference. -/
theorem FromNearest.derived {new? : Option Method} (h : w.FromNearest k chain new?)
    (hk : k.methods.Owned fun o => o.facet = .instances) (c : Constant) :
    w.FromNearest k (c :: chain) ((c.initializer?.map fun m => .ofDefinition (w.construction c m)).or
      ((new?.map (·.atop ((k.instantiate [.inst] .id).methods.get? "new"))).or
        ((k.instantiate [.inst] .id).methods.get? "new"))) := by
  unfold FromNearest at h ⊢
  rw [List.findSome?_cons]
  cases c.initializer? with
  | some m => exact ⟨_, rfl, rfl⟩
  | none =>
    simp only [Option.map_none, Option.none_or]
    cases hfirst : chain.findSome? fun c => c.initializer?.map (c, ·) with
    | some first =>
      rw [hfirst] at h
      obtain ⟨f, rfl, hf⟩ := h
      refine ⟨_, rfl, (Method.own_atop fun base hbase => ?_).trans hf⟩
      -- what any class has is owned by instances, and what an initializer defines by a class object
      rw [Bool.eq_false_iff]
      intro hcovers
      obtain ⟨d', hd', heq⟩ := Method.covers_iff.mp hcovers
      have hinstances : d'.owner.facet = .instances := hk.subst _ "new" base hbase d' hd'
      rw [Definition.owner_eq_of_beq heq, hf] at hinstances
      cases hinstances
    | none =>
      rw [hfirst] at h
      subst h
      cases (k.instantiate [.inst] .id).methods.get? "new" with
      | none => rfl
      | some base => exact congrArg some base.atop_self

/-- By induction on how the object of a class was built: it has a chain of superclasses, and unless they
take `new` from elsewhere, it comes from the nearest initializer. -/
theorem exists_lineage_of_built {p : Path} (h : Built w ⟨.classObject true, p⟩ i) :
    ∃ c chain, w.decls.findKind .cls none p = .ok c ∧ w.Lineage c chain ∧
      ((∀ d ∈ chain, w.LeavesNew d) → ∀ k, Built w ⟨.instances, w.roots.classClass.toAbsolute⟩ k →
        w.FromNearest k chain (i.methods.get? "new")) := by
  generalize hn : (⟨.classObject true, p⟩ : Nominal) = n at h
  induction h generalizing p with
  | @intro n plan found hp hb ih =>
    subst hn
    obtain ⟨c, hc, rfl⟩ := exists_of_map_eq_ok hp
    have hseed : ∀ {k}, Built w ⟨.instances, w.roots.classClass.toAbsolute⟩ k →
        found ⟨.instances, w.roots.classClass.toAbsolute⟩ = k := fun hk =>
      (hb _ (mem_requests_classPlan.mpr (.inl rfl))).unique hk
    cases hbase : w.base? c with
    | none =>
      refine ⟨c, [c], hc, .root hbase, fun hleaves k hk => ?_⟩
      have hroot : w.superclassObjectSteps c true = [] := by
        unfold superclassObjectSteps
        rw [hbase]
      rw [get?_new_classPlan (hleaves c (List.mem_singleton_self c)) hb, hroot, List.foldl_nil,
        get?_new_seed, hseed hk]
      exact fromNearest_root w k c
    | some base =>
      have hr : w.absoluteName (some c.path) ⟨.classObject true, base.path⟩ ∈
          (w.classPlan true c).requests := by
        rw [requests_classPlan, hbase]
        exact List.mem_cons_of_mem _ (List.mem_append_left _ (List.mem_singleton_self _))
      obtain ⟨d, chain, hd, hlineage, hnew⟩ :=
        ih _ hr (absoluteName_classObject (some c.path) base.path true true).symm
      refine ⟨c, c :: chain, hc, .derived hbase hd hlineage, fun hleaves k hk => ?_⟩
      obtain ⟨hhere, habove⟩ := List.forall_mem_cons.mp hleaves
      have howned : k.methods.Owned fun o => o.facet = .instances := by
        refine (surveys_of_built hk rfl).owners.imp ?_
        rintro o ⟨a, -, rfl⟩
        rfl
      rw [get?_new_classPlan hhere hb, get?_new_superclassObjectSteps hbase, get?_new_seed, hseed hk]
      exact (hnew habove k hk).derived howned c

/-- When the object of a class that can construct is obtained, the class has a chain of superclasses.
Unless one of them declares `new` for its object or takes it from a mixin, the definition of `new` is
the one that the nearest class with an initializer gives; if there is no such class, the object has the
`new` of the instances of the class of classes, or none. -/
theorem new_from_nearest (w : World) (history : List Operation) (scope : Option Path) (p : Path)
    (i : Interface) (hi : (w.interfaceOf scope ⟨.classObject true, p⟩ (w.after history)).1 = .ok i) :
    ∃ c chain k,
      w.decls.findKind .cls none (w.absoluteName scope ⟨.classObject true, p⟩).path = .ok c ∧
      w.Lineage c chain ∧ Built w ⟨.instances, w.roots.classClass.toAbsolute⟩ k ∧
      ((∀ d ∈ chain, w.LeavesNew d) → w.FromNearest k chain (i.methods.get? "new")) := by
  have hbuilt := (interfaceOf_eq_ok_iff (isOpen_after history)).mp hi
  rw [absoluteName_classObject scope p true true] at hbuilt
  obtain ⟨c, chain, hc, hlineage, hnew⟩ := exists_lineage_of_built hbuilt
  obtain ⟨k, hk⟩ := hbuilt.of_dependsOn (.classOfClasses hc)
  exact ⟨c, chain, k, hc, hlineage, hk, fun hleaves => hnew hleaves k hk⟩

/-- A class at the top level. -/
def topClass (name : String) (superclass : Option String) (members : List Member) : Constant :=
  ⟨⟨[name], true⟩, [], members, .nowhere, .cls (superclass.map fun s => ⟨⟨[s], false⟩, []⟩)⟩

/-- A class, its superclass, which has an `initialize` for both sides, and the superclass of that, which
has two for the instances. -/
def descent : List Constant :=
  [topClass "Lower" (some "Middle") [],
   topClass "Middle" (some "Upper") [.method ⟨"initialize", .both, [], []⟩],
   topClass "Upper" none
    [.method ⟨"initialize", .instances, [], []⟩,
     .method ⟨"initialize", .instances, [⟨[], [.required .self], none, .any, .nowhere⟩], []⟩],
   topClass "Object" (some "BasicObject") [],
   topClass "BasicObject" none []]

/-- These classes and a class of classes with a `new` of its own. -/
def remote : World where
  decls := (Declarations.empty.addAll
    ((topClass "Class" none [.method ⟨"new", .instances, [⟨[], [], none, .any, .nowhere⟩], []⟩] ::
      descent).map .constant)).1
  roots := .standard

theorem lineage_remote : remote.Lineage (topClass "Lower" (some "Middle") []) descent :=
  .derived rfl rfl (.derived rfl rfl (.derived rfl rfl (.derived rfl rfl (.root rfl))))

/-- None of them takes `new` from elsewhere. -/
theorem leavesNew_remote : ∀ c ∈ descent, remote.LeavesNew c := by
  intro c hc
  have declared : ∀ c ∈ descent, ∀ m ∈ c.methods, m.onObject = true → m.name ≠ "new" := by decide
  have methods : ∀ c ∈ descent, ∀ x ∈ c.members, x.method?.isSome = true := by
    simp [descent, topClass, Member.method?]
  refine ⟨declared c hc, fun a ha => ?_, fun a ha => ?_⟩
  · exact nomatch methods c hc _ ha
  · exact nomatch methods c hc _ ha

/-- The lowest class has the `new` of the second `initialize`, two classes further up. -/
theorem new_from_nearest_remote :
    ∃ i f, (remote.interfaceOf none ⟨.classObject true, ⟨["Lower"], true⟩⟩ (.empty remote)).1 = .ok i ∧
      i.methods.get? "new" = some f ∧
      f.own = ⟨⟨.classObject true, ⟨["Upper"], true⟩⟩, "new",
        [⟨[], .ofParams [.required .self], .inst, none, .nowhere⟩], []⟩ := by
  have hsome : ((remote.interfaceOf none ⟨.classObject true, ⟨["Lower"], true⟩⟩
      (.empty remote)).1.toOption.map fun _ => ()) = some () := by
    decide +kernel
  obtain ⟨i, hi, -⟩ := exists_built_of_map_eq hsome
  obtain ⟨c, chain, k, hc, hchain, -, hnew⟩ := new_from_nearest remote [] none ⟨["Lower"], true⟩ i hi
  obtain rfl : topClass "Lower" (some "Middle") [] = c := Except.ok.inj hc
  obtain rfl := lineage_remote.unique hchain
  obtain ⟨f, hf, hown⟩ := hnew leavesNew_remote
  exact ⟨i, f, hi, hf, hown⟩

end World

end MixinTypes
