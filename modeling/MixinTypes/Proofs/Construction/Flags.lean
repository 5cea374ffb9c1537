import MixinTypes.Proofs.Ancestry.Methods

/-!
# The flag of class objects

The name of a class object says whether the object can construct, and so do the owners of its methods.
Here this flag is left out, together with `new`, which is all that it should matter for. What remains of
a table of methods, of an interface or of a step is its core.

1. Among names with one flag no two become the same without it (`Nominal.Flagged.eq_of_plain_eq`), so
   leaving it out changes nothing about which definition covers which (`Method.covers_plain`).
2. Hence the core of a table that is written to, or merged into, is the core of the table with the same
   done to it (`MethodTable.core_override`, `Gathered.core_merge`).
3. The same goes for the steps of a plan, so the core of a plan leads to the core of the interface
   (`Step.core_foldl_apply`, `Plan.core_assemble`).
-/

namespace MixinTypes

/-! ## Names -/

/-- The facet with `k` for whether a class object can construct. -/
def Facet.withFlag (k : Bool) : Facet → Facet
  | .classObject _ => .classObject k
  | f => f

namespace Nominal

/-- The name with `k` for whether a class object can construct. -/
def withFlag (k : Bool) (n : Nominal) : Nominal := ⟨n.facet.withFlag k, n.path⟩

/-- The name without saying that a class object can construct. -/
def plain (n : Nominal) : Nominal := n.withFlag false

/-- The name says `k` about construction, or nothing. -/
def Flagged (k : Bool) (n : Nominal) : Prop := n.withFlag k = n

variable {n a b : Nominal} {k : Bool}

theorem withFlag_withFlag (n : Nominal) (k k' : Bool) : (n.withFlag k).withFlag k' = n.withFlag k' := by
  obtain ⟨facet, path⟩ := n
  cases facet <;> rfl

theorem plain_withFlag (n : Nominal) (k : Bool) : (n.withFlag k).plain = n.plain :=
  n.withFlag_withFlag k false

theorem withFlag_plain (n : Nominal) (k : Bool) : n.plain.withFlag k = n.withFlag k :=
  n.withFlag_withFlag false k

theorem flagged_withFlag (n : Nominal) (k : Bool) : (n.withFlag k).Flagged k :=
  n.withFlag_withFlag k k

theorem exists_flagged (n : Nominal) : ∃ k, n.Flagged k := by
  obtain ⟨facet, path⟩ := n
  cases facet with
  | classObject k => exact ⟨k, rfl⟩
  | instances | moduleObject | protocol => exact ⟨false, rfl⟩

/-- The flag is all that sets a name apart from its plain form. -/
theorem Flagged.withFlag_plain (h : n.Flagged k) : n.plain.withFlag k = n :=
  (n.withFlag_plain k).trans h

theorem Flagged.toAbsolute (h : n.Flagged k) : n.toAbsolute.Flagged k :=
  congrArg Nominal.toAbsolute h

theorem Flagged.eq_of_plain_eq (ha : a.Flagged k) (hb : b.Flagged k) (h : a.plain = b.plain) : a = b := by
  rw [← ha.withFlag_plain, h, hb.withFlag_plain]

end Nominal

/-! ## Methods -/

/-- The definition without the flag of its owner. -/
def Definition.plain (d : Definition) : Definition := { d with owner := d.owner.plain }

theorem Definition.beq_plain {k : Bool} {d d' : Definition} (h : d.owner.Flagged k)
    (h' : d'.owner.Flagged k) : (d.plain == d'.plain) = (d == d') := by
  have owners : (d.owner.plain == d'.owner.plain) = (d.owner == d'.owner) := by
    rw [Bool.eq_iff_iff, beq_iff_eq, beq_iff_eq]
    exact ⟨h.eq_of_plain_eq h', congrArg Nominal.plain⟩
  change (d.owner.plain == d'.owner.plain && _) = (d.owner == d'.owner && _)
  rw [owners]

namespace Method

/-- The method without the flags of the owners. -/
def plain (m : Method) : Method := ⟨m.own.plain, m.overridden.map Definition.plain⟩

theorem plain_subst (σ : Subst) (m : Method) : (m.subst σ).plain = m.plain.subst σ := by
  have overridden : (m.overridden.map (Definition.subst σ)).map Definition.plain =
      (m.overridden.map Definition.plain).map (Definition.subst σ) := by
    rw [List.map_map, List.map_map]
    rfl
  exact congrArg (Method.mk _) overridden

/-- Where all owners have one flag, it has no say in what a method covers. -/
theorem covers_plain {k : Bool} {m : Method} {d : Definition} (hm : ∀ d' ∈ m.chain, d'.owner.Flagged k)
    (hd : d.owner.Flagged k) : m.plain.covers d.plain = m.covers d := by
  have same : ∀ d' ∈ m.chain, (d'.plain == d.plain) = (d' == d) := fun d' hd' =>
    Definition.beq_plain (hm d' hd') hd
  change (m.chain.map Definition.plain).any _ = m.chain.any _
  rw [List.any_map, Bool.eq_iff_iff, List.any_eq_true, List.any_eq_true]
  exact exists_congr fun d' => and_congr_right fun hd' => by rw [Function.comp_apply, same d' hd']

end Method

/-! ## Tables -/

namespace MethodTable

variable {t : MethodTable} {m : Method} {name : String} {k : Bool}

/-- The methods other than `new`, without the flags of their owners. -/
def core (t : MethodTable) : MethodTable := (t.erase "new").map Method.plain

theorem get?_core (h : name ≠ "new") (t : MethodTable) :
    t.core.get? name = (t.get? name).map Method.plain := by
  rw [core, Table.get?_map, Table.get?_erase, if_neg h.symm]

theorem core_insert (t : MethodTable) (name : String) (m : Method) :
    core (t.insert name m) = if name = "new" then t.core else t.core.insert name m.plain := by
  split
  · next h =>
    subst h
    exact congrArg (Table.map Method.plain) (t.erase_insert_self "new" m)
  · next h => rw [core, Table.erase_insert_of_ne h, Table.map_insert, core]

theorem core_erase (t : MethodTable) (name : String) :
    core (t.erase name) = if name = "new" then t.core else t.core.erase name := by
  split
  · next h =>
    subst h
    rw [core, Table.erase_of_not_mem (by simp [Table.keys_erase]), core]
  · rw [core, Table.erase_comm, Table.map_erase, core]

/-- Overriding compares owners, but without their flag it comes to the same. -/
theorem core_override (ht : Owned (Nominal.Flagged k) t) (hm : m.own.owner.Flagged k) (name : String) :
    core (t.override name m) = if name = "new" then t.core else t.core.override name m.plain := by
  by_cases h : name = "new"
  · rw [if_pos h]
    rcases t.override_eq_or name m with ⟨hsame, -⟩ | hinsert
    · rw [hsame]
    · rw [hinsert, core_insert, if_pos h]
  · rw [if_neg h, override, override, get?_core h]
    cases hbase : t.get? name with
    | none => exact (core_insert ..).trans (if_neg h)
    | some base =>
      change core (if _ then t else _) = if base.plain.covers m.own.plain then t.core else _
      rw [Method.covers_plain (ht name base hbase) hm]
      split
      · rfl
      · exact (core_insert ..).trans (if_neg h)

theorem core_foldl_override {es : List (String × Method)} (ht : Owned (Nominal.Flagged k) t)
    (hes : ∀ e ∈ es, ∀ d ∈ e.2.chain, d.owner.Flagged k) :
    core (es.foldl (fun t e => t.override e.1 e.2) t) =
      ((es.filter fun e => e.1 ≠ "new").map fun e => (e.1, e.2.plain)).foldl
        (fun t e => t.override e.1 e.2) t.core := by
  induction es generalizing t with
  | nil => rfl
  | cons e es ih =>
    have he := hes e (List.mem_cons_self ..)
    have hown : e.2.own.owner.Flagged k := he e.2.own (List.mem_cons_self ..)
    rw [List.foldl_cons, ih (ht.override he e.1) fun e' he' => hes e' (List.mem_cons_of_mem e he'),
      core_override ht hown]
    by_cases h : e.1 = "new"
    · rw [if_pos h, List.filter_cons_of_neg (by simpa using h)]
    · rw [if_neg h, List.filter_cons_of_pos (by simpa using h)]
      rfl

theorem core_map_subst (σ : Subst) (t : MethodTable) :
    core (t.map (Method.subst σ)) = t.core.map (Method.subst σ) := by
  rw [core, core, ← Table.map_erase, Table.map_map, Table.map_map]
  exact congrArg (fun f => Table.map f (t.erase "new")) (funext (Method.plain_subst σ))

end MethodTable

/-! ## Interfaces -/

/-- The interface without flags and without `new`. -/
def Interface.core (i : Interface) : Interface := ⟨i.name.plain, i.params, i.methods.core, i.supers⟩

/-- What has been gathered, without flags and without `new`. -/
def Gathered.core (g : Gathered) : Gathered := ⟨g.methods.core, g.supers⟩

/-- Merging a core into a core. -/
theorem Gathered.core_merge {k : Bool} {g : Gathered} {i : Interface}
    (hg : MethodTable.Owned (Nominal.Flagged k) g.methods)
    (hi : MethodTable.Owned (Nominal.Flagged k) i.methods) (args : List Ty) :
    (g.merge i args).core = g.core.merge i.core args := by
  have methods : (g.merge i args).methods.core = (g.core.merge i.core args).methods := by
    change MethodTable.core (List.foldl _ g.methods _) =
      (i.methods.core.map (Method.subst _)).entries.foldl _ g.methods.core
    rw [← MethodTable.core_map_subst]
    exact MethodTable.core_foldl_override hg (hi.subst _).of_mem_entries
  exact congrArg (Gathered.mk · _) methods

/-! ## Steps -/

namespace Step

variable {found found' : Nominal → Interface} {g : Gathered} {k : Bool}

/-- What a step does besides notes and apart from `new`, without flags. -/
def core? : Step → Option Step
  | .note _ => none
  | .seed source args => some (.seed source.plain args)
  | .mix source args => some (.mix source.plain args)
  | .constrain t => some (.constrain t)
  | .define d => if d.name = "new" then none else some (.define d.plain)
  | .put d => if d.name = "new" then none else some (.put d.plain)
  | .drop name => if name = "new" then none else some (.drop name)

/-- A step on a core. -/
theorem core_apply {s : Step} (hg : MethodTable.Owned (Nominal.Flagged k) g.methods)
    (hs : s.OwnedBy found (Nominal.Flagged k))
    (hfound : ∀ r, s.request? = some r → found' r.plain = (found r).core) :
    (s.apply found g).core = s.core?.elim g.core fun s => s.apply found' g.core := by
  cases s with
  | note | constrain => rfl
  | seed source args =>
    have merged : (g.merge (found source) args).core = g.core.merge (found' source.plain) args := by
      rw [hfound source rfl]
      exact Gathered.core_merge hg hs args
    exact congrArg (fun g' : Gathered => (⟨g'.methods, g.supers⟩ : Gathered)) merged
  | mix source args =>
    change (g.merge (found source) args).core = g.core.merge (found' source.plain) args
    rw [hfound source rfl]
    exact Gathered.core_merge hg hs args
  | define d =>
    have methods := MethodTable.core_override (m := .ofDefinition d) hg hs d.name
    have hcore : ((Step.define d).apply found g).core = _ := congrArg (Gathered.mk · g.supers) methods
    rw [hcore, core?]
    split <;> rfl
  | put d =>
    have methods := g.methods.core_insert d.name (.ofDefinition d)
    have hcore : ((Step.put d).apply found g).core = _ := congrArg (Gathered.mk · g.supers) methods
    rw [hcore, core?]
    split <;> rfl
  | drop name =>
    have methods := g.methods.core_erase name
    have hcore : ((Step.drop name).apply found g).core = _ := congrArg (Gathered.mk · g.supers) methods
    rw [hcore, core?]
    split <;> rfl

theorem core_foldl_apply {ss : List Step} (hg : MethodTable.Owned (Nominal.Flagged k) g.methods)
    (hs : ∀ s ∈ ss, s.OwnedBy found (Nominal.Flagged k))
    (hfound : ∀ r ∈ ss.filterMap request?, found' r.plain = (found r).core) :
    (ss.foldl (apply found) g).core = (ss.filterMap core?).foldl (apply found') g.core := by
  induction ss generalizing g with
  | nil => rfl
  | cons s ss ih =>
    have hhead := hs s (List.mem_cons_self ..)
    have hrest : ∀ r ∈ ss.filterMap request?, found' r.plain = (found r).core := fun r hr => by
      obtain ⟨s', hs', hr⟩ := List.mem_filterMap.mp hr
      exact hfound r (List.mem_filterMap.mpr ⟨s', List.mem_cons_of_mem s hs', hr⟩)
    rw [List.foldl_cons, ih (owned_apply hg hhead) (fun t ht => hs t (List.mem_cons_of_mem s ht)) hrest,
      core_apply hg hhead fun r hr => hfound r (List.mem_filterMap.mpr ⟨s, List.mem_cons_self .., hr⟩),
      List.filterMap_cons]
    cases s.core? <;> rfl

end Step

/-- The plan without flags, and without what it does to `new`. -/
def Plan.core (p : Plan) : Plan := ⟨p.name.plain, p.params, p.steps.filterMap Step.core?⟩

/-- The core of an interface follows from the cores of what its plan requests. -/
theorem Plan.core_assemble {found found' : Nominal → Interface} {k : Bool} {p : Plan}
    (hs : ∀ s ∈ p.steps, s.OwnedBy found (Nominal.Flagged k))
    (hfound : ∀ r ∈ p.requests, found' r.plain = (found r).core) :
    (p.assemble found).core = p.core.assemble found' := by
  have gathered : (p.gathered found).core = p.core.gathered found' :=
    Step.core_foldl_apply (MethodTable.owned_empty _) hs hfound
  exact congrArg (fun g : Gathered => (⟨p.name.plain, p.params, g.methods, g.supers⟩ : Interface)) gathered

end MixinTypes
