import MixinTypes.Proofs.Ancestry.Methods
import MixinTypes.Proofs.Linking.Extension

/-!
# What merging keeps of a chain

Merging an interface puts each of its methods over the one gathered so far. The definition of the
method itself is then there, but of what it overrides only that is left which comes with the name for
the first time, or which the method below has as well.

1. A step keeps every chain, as the end of the chain after it, under the names that it spares
   (`keepsChain_apply`, `keepsChain_foldl`).
2. A plan merges first and defines afterwards (`exists_gathers_settles`), and apart from `new` no name
   of a class or module is replaced or forgotten (`spares_of_mem`).
3. So in the finished interface a merged method is covered, and so is all that it overrides unless the
   name was there before (`covers_of_merges`).
-/

namespace MixinTypes

/-! ## Chains under one name -/

/-- The chain of the name in the first table is the end of its chain in the second. -/
def MethodTable.KeepsChain (name : String) (t t' : MethodTable) : Prop :=
  ∀ base, t.get? name = some base → ∃ m, t'.get? name = some m ∧ base.chain <:+ m.chain

namespace MethodTable.KeepsChain

variable {name : String} {t t' t'' : MethodTable}

theorem refl (name : String) (t : MethodTable) : KeepsChain name t t :=
  fun base h => ⟨base, h, List.suffix_refl _⟩

theorem trans (h : KeepsChain name t t') (h' : KeepsChain name t' t'') : KeepsChain name t t'' := by
  intro base hbase
  obtain ⟨m, hm, hsuffix⟩ := h base hbase
  obtain ⟨m', hm', hsuffix'⟩ := h' m hm
  exact ⟨m', hm', hsuffix.trans hsuffix'⟩

theorem of_get?_eq (h : t'.get? name = t.get? name) : KeepsChain name t t' :=
  fun base hbase => ⟨base, h.trans hbase, List.suffix_refl _⟩

/-- A method put over what is there keeps the chain that is there. -/
theorem of_get?_atop {m : Method} (h : t'.get? name = some (m.atop (t.get? name))) :
    KeepsChain name t t' := by
  intro base hbase
  rw [hbase] at h
  exact ⟨_, h, m.chain_suffix_atop base⟩

end MethodTable.KeepsChain

/-! ## Steps -/

namespace Step

variable {found : Nominal → Interface} {g : Gathered} {name : String} {s : Step} {ss : List Step}

/-- The interface that a step takes methods from, and the arguments that it is applied to. -/
def source? : Step → Option (Nominal × List Ty)
  | .seed source args | .mix source args => some (source, args)
  | _ => none

/-- The step neither replaces nor forgets what is there under the name. -/
def Spares (name : String) : Step → Prop
  | .put d => d.name ≠ name
  | .drop dropped => dropped ≠ name
  | _ => True

theorem keepsChain_apply (hs : s.Spares name) :
    g.methods.KeepsChain name (s.apply found g).methods := by
  cases s with
  | note | constrain => exact .refl name _
  | seed source args | mix source args =>
    have hget : (g.merge (found source) args).methods.get? name = _ := Gathered.get?_merge ..
    split at hget
    · exact .of_get?_eq hget
    · exact .of_get?_atop hget
  | define d =>
    have hget := g.methods.get?_override d.name name (.ofDefinition d)
    split at hget
    · next h =>
      subst h
      exact .of_get?_atop hget
    · exact .of_get?_eq hget
  | put d => exact .of_get?_eq ((Table.get?_insert ..).trans (if_neg hs))
  | drop dropped => exact .of_get?_eq ((Table.get?_erase ..).trans (if_neg hs))

theorem keepsChain_foldl (hs : ∀ s ∈ ss, s.Spares name) :
    g.methods.KeepsChain name (ss.foldl (apply found) g).methods := by
  induction ss generalizing g with
  | nil => exact .refl name _
  | cons s ss ih =>
    rw [List.foldl_cons]
    exact (keepsChain_apply (hs s (List.mem_cons_self ..))).trans
      (ih fun t ht => hs t (List.mem_cons_of_mem s ht))

/-- A step that takes methods from an interface puts each of them over what is there. -/
theorem get?_apply_of_source? {r : Nominal} {args : List Ty} {m : Method}
    (hs : s.source? = some (r, args))
    (hm : ((found r).instantiate args .id).methods.get? name = some m) :
    (s.apply found g).methods.get? name = some (m.atop (g.methods.get? name)) := by
  have hget : (g.merge (found r) args).methods.get? name = _ := Gathered.get?_merge ..
  rw [hm] at hget
  cases s with
  | seed | mix => cases hs; exact hget
  | _ => cases hs

/-- Every name that has been gathered was offered by a step, or was there at the start. -/
theorem offers_of_mem_keys_foldl (h : name ∈ (ss.foldl (apply found) g).methods.keys) :
    (∃ s ∈ ss, s.Offers found name) ∨ name ∈ g.methods.keys := by
  induction ss generalizing g with
  | nil => exact .inr h
  | cons s ss ih =>
    rcases ih h with ⟨t, ht, hoffers⟩ | hkeys
    · exact .inl ⟨t, List.mem_cons_of_mem s ht, hoffers⟩
    · by_cases hdrop : s = .drop name
      · subst hdrop
        change name ∈ (g.methods.erase name).keys at hkeys
        simp [Table.keys_erase] at hkeys
      · exact ((mem_keys_apply hdrop).mp hkeys).imp_left fun ho => ⟨s, List.mem_cons_self .., ho⟩

end Step

/-! ## Plans -/

namespace World

variable {w : World} {n : Nominal} {p : Plan} {name : String}

/-- A step of the first part of a plan: it leaves definitions to the interfaces that it merges. -/
def Gathers : Step → Prop
  | .note _ | .seed _ _ | .mix _ _ | .constrain _ => True
  | .define _ | .put _ | .drop _ => False

/-- A step of the second part of a plan for this facet: it merges nothing, and it replaces or forgets
`new` only, save that the definitions of a protocol replace each other. Only a class object that cannot
construct forgets it. -/
def Settles (facet : Facet) : Step → Prop
  | .note _ | .define _ => True
  | .put d => d.name = "new" ∨ facet = .protocol
  | .drop name => name = "new" ∧ facet = .classObject false
  | .seed _ _ | .mix _ _ | .constrain _ => False

theorem Gathers.spares {s : Step} (h : Gathers s) (name : String) : s.Spares name := by
  cases s with
  | define | put | drop => exact h.elim
  | _ => trivial

theorem Settles.spares {facet : Facet} {s : Step} (h : Settles facet s) (hfacet : facet ≠ .protocol)
    (hname : name ≠ "new") : s.Spares name := by
  cases s with
  | put d => exact fun heq => hname (heq.symm.trans (h.resolve_right hfacet))
  | drop dropped => exact fun heq => hname (heq.symm.trans h.1)
  | _ => trivial

theorem Settles.source? {facet : Facet} {s : Step} (h : Settles facet s) : s.source? = none := by
  cases s with
  | seed | mix => exact h.elim
  | _ => rfl

/-- A plan gathers first and settles afterwards. -/
theorem exists_gathers_settles (hp : w.plan n = .ok p) :
    ∃ merging own, p.steps = merging ++ own ∧ (∀ s ∈ merging, Gathers s) ∧
      ∀ s ∈ own, Settles n.facet s :=
  exists_parts (fun _ => trivial) hp (fun _ => trivial) (fun _ _ => trivial) (fun _ _ => trivial)
    (fun _ _ _ _ => trivial) (fun _ _ => trivial) (fun _ _ => id) fun hfacet => ⟨rfl, hfacet⟩

/-- A class object that cannot construct forgets `new`; nothing else is ever forgotten. -/
theorem ne_drop_of_mem (hp : w.plan n = .ok p) (hname : name ≠ "new" ∨ n.facet ≠ .classObject false) :
    ∀ s ∈ p.steps, s ≠ .drop name := by
  obtain ⟨merging, own, hsteps, hmerging, hown⟩ := exists_gathers_settles hp
  rw [hsteps]
  refine List.forall_mem_append.mpr ⟨?_, ?_⟩
  · rintro s hs rfl
    exact hmerging _ hs
  · rintro s hs rfl
    obtain ⟨rfl, hfacet⟩ := hown _ hs
    exact hname.elim (fun h => h rfl) (fun h => h hfacet)

/-- Only `new` is ever replaced or forgotten in the interface of a class or module. -/
theorem spares_of_mem (hp : w.plan n = .ok p) (hn : n.facet ≠ .protocol) (hname : name ≠ "new") :
    ∀ s ∈ p.steps, s.Spares name := by
  obtain ⟨merging, own, hsteps, hmerging, hown⟩ := exists_gathers_settles hp
  rw [hsteps]
  exact List.forall_mem_append.mpr
    ⟨fun s hs => (hmerging s hs).spares name, fun s hs => (hown s hs).spares hn hname⟩

/-- Before a plan merges an interface it has only merged others. -/
theorem gathers_before {before after : List Step} {s : Step} {source : Nominal × List Ty}
    (hp : w.plan n = .ok p) (hsplit : p.steps = before ++ s :: after)
    (hs : s.source? = some source) : ∀ s' ∈ before, Gathers s' := by
  obtain ⟨merging, own, hsteps, hmerging, hown⟩ := exists_gathers_settles hp
  rcases List.append_eq_append_iff.mp (hsplit.symm.trans hsteps) with ⟨rest, rfl, -⟩ | ⟨rest, -, rfl⟩
  · exact fun s' hs' => hmerging s' (List.mem_append_left _ hs')
  · have hsettles := hown s (List.mem_append_right _ (List.mem_cons_self ..))
    rw [hsettles.source?] at hs
    cases hs

end World

/-! ## The finished interface -/

/-- Once the steps `before` are carried out, the plan merges the interface of `r`, applied to `args`. -/
def Plan.Merges (p : Plan) (before : List Step) (r : Nominal) (args : List Ty) : Prop :=
  ∃ s after, p.steps = before ++ s :: after ∧ s.source? = some (r, args)

namespace World

variable {w : World} {n r : Nominal} {p : Plan} {before : List Step} {args : List Ty}
  {found : Nominal → Interface} {name : String} {m : Method}

theorem facet_ne_protocol_of_merges (hp : w.plan n = .ok p) (hmerges : p.Merges before r args) :
    n.facet ≠ .protocol := by
  obtain ⟨s, after, hsplit, hs⟩ := hmerges
  obtain ⟨facet, path⟩ := n
  rintro rfl
  obtain ⟨q, -, rfl⟩ := exists_of_map_eq_ok hp
  have hmem : s ∈ (w.protocolPlan q).steps := hsplit ▸ List.mem_append_right _ (List.mem_cons_self ..)
  obtain ⟨d, -, rfl⟩ := List.mem_map.mp hmem
  cases hs

theorem mem_requests_of_source? {s : Step} (hmem : s ∈ p.steps) (hs : s.source? = some (r, args)) :
    r ∈ p.requests := by
  refine List.mem_filterMap.mpr ⟨s, hmem, ?_⟩
  cases s with
  | seed | mix => cases hs; rfl
  | _ => cases hs

/-- The method of a merged interface is put over what was gathered before, and what comes of it is the
end of a chain in the finished interface. -/
theorem exists_suffix_of_merges (hp : w.plan n = .ok p) (hmerges : p.Merges before r args)
    (hname : name ≠ "new") (hm : ((found r).instantiate args .id).methods.get? name = some m) :
    ∃ f, (p.assemble found).methods.get? name = some f ∧
      (m.atop ((before.foldl (Step.apply found) .empty).methods.get? name)).chain <:+ f.chain := by
  have hfacet := facet_ne_protocol_of_merges hp hmerges
  obtain ⟨s, after, hsplit, hs⟩ := hmerges
  have hafter : ∀ t ∈ after, t.Spares name := fun t ht => spares_of_mem hp hfacet hname t
    (hsplit ▸ List.mem_append_right _ (List.mem_cons_of_mem s ht))
  have hget := Step.get?_apply_of_source? (g := before.foldl (Step.apply found) .empty) hs hm
  have hkeeps : ∀ g : Gathered,
      g.methods.KeepsChain name (after.foldl (Step.apply found) g).methods := fun _ =>
    Step.keepsChain_foldl hafter
  have hchain := hkeeps _ _ hget
  rw [← List.foldl_cons, ← List.foldl_append, ← hsplit] at hchain
  exact hchain

/-- A name that has been gathered before an interface is merged came with one merged earlier. -/
theorem exists_source_of_mem_keys (hp : w.plan n = .ok p) (hmerges : p.Merges before r args)
    (hkey : name ∈ (before.foldl (Step.apply found) .empty).methods.keys) :
    ∃ s ∈ before, ∃ r' args', s.source? = some (r', args') ∧ name ∈ (found r').methods.keys := by
  obtain ⟨s, after, hsplit, hs⟩ := hmerges
  obtain ⟨t, ht, hoffers⟩ := (Step.offers_of_mem_keys_foldl hkey).resolve_right List.not_mem_nil
  have hgathers := gathers_before hp hsplit hs t ht
  cases t with
  | seed source args' | mix source args' => exact ⟨_, ht, source, args', rfl, hoffers⟩
  | define | put | drop => exact hgathers.elim
  | note | constrain => exact hoffers.elim

/-- In a finished interface every method of every interface that was merged, other than `new`, is covered
under its name; so is each definition that it overrides, unless an interface merged earlier brought a
method of that name. -/
theorem covers_of_merges (w : World) (history : List Operation) (scope : Option Path) (n : Nominal)
    (i : Interface) (p : Plan) (before : List Step) (r : Nominal) (args : List Ty)
    (hi : (w.interfaceOf scope n (w.after history)).1 = .ok i)
    (hp : w.plan (w.absoluteName scope n) = .ok p) (hmerges : p.Merges before r args) :
    ∃ k, Built w r k ∧ ∀ name m, name ≠ "new" → (k.instantiate args .id).methods.get? name = some m →
      ∃ f, i.methods.get? name = some f ∧ f.covers m.own = true ∧
        ∀ d ∈ m.overridden, f.covers d = true ∨
          ∃ s ∈ before, ∃ r' args' k', s.source? = some (r', args') ∧ Built w r' k' ∧
            name ∈ k'.methods.keys := by
  rw [fst_interfaceOf] at hi
  obtain ⟨⟨_, hbuilt⟩, -, rfl⟩ := exists_of_map_eq_ok hi
  cases hbuilt with
  | @intro _ q found hq hb =>
    obtain rfl := Except.ok.inj (hp.symm.trans hq)
    have hsource : ∀ s ∈ p.steps, ∀ r args, s.source? = some (r, args) → Built w r (found r) :=
      fun s hs r args h => hb r (mem_requests_of_source? hs h)
    obtain ⟨s, after, hsplit, hs⟩ := id hmerges
    have hmem : s ∈ p.steps := hsplit ▸ List.mem_append_right _ (List.mem_cons_self ..)
    refine ⟨found r, hsource s hmem r args hs, fun name m hname hm => ?_⟩
    obtain ⟨f, hf, hsuffix⟩ := exists_suffix_of_merges hp hmerges hname hm
    refine ⟨f, hf, Method.covers_mono hsuffix (m.covers_atop _), fun d hd => ?_⟩
    rcases hbase : (before.foldl (Step.apply found) .empty).methods.get? name with _ | base
    · rw [hbase] at hsuffix
      exact .inl (Method.covers_of_mem (hsuffix.mem (List.mem_cons_of_mem m.own hd)))
    · have hkey := Table.mem_keys_iff.mpr ⟨base, hbase⟩
      obtain ⟨t, ht, r', args', hsource', hkey'⟩ := exists_source_of_mem_keys hp hmerges hkey
      have htmem : t ∈ p.steps := hsplit ▸ List.mem_append_left _ ht
      exact .inr ⟨t, ht, r', args', found r', hsource', hsource t htmem r' args' hsource', hkey'⟩

/-- A class with a method of its superclass, and a module between them whose method of the same name
overrides that of another module. -/
def overlapping : World where
  decls := (Declarations.empty.addAll
    [.constant ⟨⟨["BasicObject"], true⟩, [], [], .nowhere, .cls none⟩,
     .constant ⟨⟨["Object"], true⟩, [], [], .nowhere, .cls (some ⟨⟨["BasicObject"], true⟩, []⟩)⟩,
     .constant ⟨⟨["Inner"], true⟩, [], [.method ⟨"call", .instances, [], []⟩], .nowhere, .mod none⟩,
     .constant ⟨⟨["Outer"], true⟩, [],
      [.included ⟨⟨["Inner"], false⟩, []⟩, .method ⟨"call", .instances, [], []⟩], .nowhere,
      .mod none⟩,
     .constant ⟨⟨["Upper"], true⟩, [], [.method ⟨"call", .instances, [], []⟩], .nowhere, .cls none⟩,
     .constant ⟨⟨["Lower"], true⟩, [], [.included ⟨⟨["Outer"], false⟩, []⟩], .nowhere,
      .cls (some ⟨⟨["Upper"], false⟩, []⟩)⟩]).1
  roots := .standard

/-- After its superclass the class merges the outer module. -/
theorem exists_merges_overlapping :
    ∃ p before, overlapping.plan ⟨.instances, ⟨["Lower"], true⟩⟩ = .ok p ∧
      p.Merges before ⟨.instances, ⟨["Outer"], true⟩⟩ [] := by
  have hsources : (overlapping.plan ⟨.instances, ⟨["Lower"], true⟩⟩).toOption.map
      (fun p => p.steps.map Step.source?) =
        some [some (⟨.instances, ⟨["Upper"], true⟩⟩, []),
          some (⟨.instances, ⟨["Outer"], true⟩⟩, [])] := by
    decide +kernel
  obtain ⟨p, hp, hsteps⟩ := Option.map_eq_some_iff.mp hsources
  obtain ⟨upper, rest, hsplit, -, hrest⟩ := List.map_eq_cons_iff.mp hsteps
  obtain ⟨outer, after, rfl, houter, -⟩ := List.map_eq_cons_iff.mp hrest
  exact ⟨p, [upper], eq_ok_of_toOption_eq_some hp, outer, after, hsplit, houter⟩

/-- The interfaces of the class and of the outer module, and their methods: the one of the class covers
nothing that the one of the module overrides. -/
theorem exists_uncovered_overlapping :
    ∃ i k f m d,
      (overlapping.interfaceOf none ⟨.instances, ⟨["Lower"], true⟩⟩ (.empty overlapping)).1 = .ok i ∧
      Built overlapping ⟨.instances, ⟨["Outer"], true⟩⟩ k ∧ i.methods.get? "call" = some f ∧
      (k.instantiate [] .id).methods.get? "call" = some m ∧ m.overridden = [d] ∧
      f.covers d = false := by
  have huncovered :
      ((overlapping.interfaceOf none ⟨.instances, ⟨["Lower"], true⟩⟩
        (.empty overlapping)).1.toOption.bind fun i =>
      (overlapping.interfaceOf none ⟨.instances, ⟨["Outer"], true⟩⟩
        (.empty overlapping)).1.toOption.bind fun k =>
      (i.methods.get? "call").bind fun f =>
      ((k.instantiate [] .id).methods.get? "call").map fun m => m.overridden.map f.covers) =
        some [false] := by
    decide +kernel
  obtain ⟨i, hi, huncovered⟩ := Option.bind_eq_some_iff.mp huncovered
  obtain ⟨k, hk, huncovered⟩ := Option.bind_eq_some_iff.mp huncovered
  obtain ⟨f, hf, huncovered⟩ := Option.bind_eq_some_iff.mp huncovered
  obtain ⟨m, hm, huncovered⟩ := Option.map_eq_some_iff.mp huncovered
  obtain ⟨d, rest, hd, hcovers, hrest⟩ := List.map_eq_cons_iff.mp huncovered
  obtain rfl := List.map_eq_nil_iff.mp hrest
  obtain ⟨⟨_, hbuilt⟩, -, rfl⟩ := exists_of_map_eq_ok (eq_ok_of_toOption_eq_some hk)
  exact ⟨i, _, f, m, d, eq_ok_of_toOption_eq_some hi, hbuilt, hf, hm, hd, hcovers⟩

/-- What the outer module brings is covered, and what it overrides was in the way of the superclass. -/
theorem covers_of_merges_overlapping :
    ∃ i p before,
      (overlapping.interfaceOf none ⟨.instances, ⟨["Lower"], true⟩⟩ (.empty overlapping)).1 = .ok i ∧
      overlapping.plan ⟨.instances, ⟨["Lower"], true⟩⟩ = .ok p ∧
      p.Merges before ⟨.instances, ⟨["Outer"], true⟩⟩ [] ∧
      ∃ k, Built overlapping ⟨.instances, ⟨["Outer"], true⟩⟩ k ∧ ∃ m f,
        (k.instantiate [] .id).methods.get? "call" = some m ∧ i.methods.get? "call" = some f ∧
        f.covers m.own = true := by
  obtain ⟨i, k, f, m, d, hi, hk, -, hm, -, -⟩ := exists_uncovered_overlapping
  obtain ⟨p, before, hp, hmerges⟩ := exists_merges_overlapping
  obtain ⟨k', hk', hcovers⟩ := covers_of_merges overlapping [] none _ i p before _ [] hi hp hmerges
  obtain rfl := hk'.unique hk
  obtain ⟨f', hf', hown, -⟩ := hcovers "call" m (by decide) hm
  exact ⟨i, p, before, hi, hp, hmerges, k', hk, m, f', hm, hf', hown⟩

/-- Not everything that a merged method overrides is covered. -/
theorem not_covers_overridden_overlapping :
    ¬ ∀ i p before r args k name m d,
      (overlapping.interfaceOf none ⟨.instances, ⟨["Lower"], true⟩⟩ (.empty overlapping)).1 = .ok i →
      overlapping.plan ⟨.instances, ⟨["Lower"], true⟩⟩ = .ok p → p.Merges before r args →
      Built overlapping r k → name ≠ "new" →
      (k.instantiate args .id).methods.get? name = some m → d ∈ m.chain →
      ∃ f, i.methods.get? name = some f ∧ f.covers d = true := by
  intro h
  obtain ⟨i, k, f, m, d, hi, hk, hf, hm, hd, huncovered⟩ := exists_uncovered_overlapping
  obtain ⟨p, before, hp, hmerges⟩ := exists_merges_overlapping
  have hmem : d ∈ m.chain := List.mem_cons_of_mem m.own (hd ▸ List.mem_singleton_self d)
  obtain ⟨f', hf', hcovers⟩ :=
    h i p before _ [] k "call" m d hi hp hmerges hk (by decide) hm hmem
  rw [hf] at hf'
  obtain rfl := Option.some.inj hf'
  rw [huncovered] at hcovers
  cases hcovers

end World

end MixinTypes
