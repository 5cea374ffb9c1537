import MixinTypes.Proofs.Ancestry.Supers
import MixinTypes.Proofs.Assignability.Decision
import MixinTypes.Ty.Vars

/-!
# The self-type of a module

The self-type of a module is a further type of its instances. A test comes to further types last, after
the rules for unions, intersections and protocols and after the comparison of names, and it takes them as
they are in the interface, with the parameters of the module in them.

1. For a nominal source the rules take the type that is expected apart, and enough of its parts must be
   served (`assignable_named_iff`): a protocol by methods, instances of the same declaration by arguments,
   other instances by an ancestor or by a further type.
2. So a self-type serves those of its conjuncts that name instances of other declarations and that the
   arguments of the module do not change (`Kept.met`). Where it has parameters in it, or is a protocol or a
   union, it is in general of no help (`test_selfType_iff`).
-/

namespace MixinTypes

variable {w : World} {p q : Path} {args bs : List Ty} {i : Interface} {s t u v : Ty} {σ : Subst}

/-! ## Taking types apart -/

namespace Ty

/-- Enough parts of the type have the property: one member of a union, all members of an intersection,
and otherwise the type itself. -/
inductive Met (P : Ty → Prop) : Ty → Prop where
  | part {t : Ty} (notUnion : ¬ t.IsUnion) (notInter : ¬ t.IsInter) (holds : P t) : Met P t
  | union {t : Ty} {ts : List Ty} (mem : t ∈ ts) (one : Met P t) : Met P (.union ts)
  | inter {ts : List Ty} (each : ∀ t ∈ ts, Met P t) : Met P (.inter ts)

/-- The first type is the second or, at any depth, a member of an intersection that the second is. -/
inductive Conjunct (u : Ty) : Ty → Prop where
  | refl : Conjunct u u
  | inter {t : Ty} {ts : List Ty} (mem : t ∈ ts) (below : Conjunct u t) : Conjunct u (.inter ts)

theorem Conjunct.trans (h : s.Conjunct t) (h' : t.Conjunct u) : s.Conjunct u := by
  induction h' with
  | refl => exact h
  | inter mem _ ih => exact .inter mem ih

theorem Met.mono {P Q : Ty → Prop} (h : t.Met P)
    (hPQ : ∀ t : Ty, ¬ t.IsUnion → ¬ t.IsInter → P t → Q t) : t.Met Q := by
  induction h with
  | part notUnion notInter holds => exact .part notUnion notInter (hPQ _ notUnion notInter holds)
  | union mem _ ih => exact .union mem ih
  | inter _ ih => exact .inter ih

theorem met_named_iff {P : Ty → Prop} {n : Nominal} {ts : List Ty} :
    (Ty.named n ts).Met P ↔ P (.named n ts) := by
  constructor
  · intro h
    cases h with
    | part _ _ holds => exact holds
  · exact .part (fun h => h) (fun h => h)

theorem met_union_iff {P : Ty → Prop} {ts : List Ty} :
    (Ty.union ts).Met P ↔ ∃ t ∈ ts, t.Met P := by
  constructor
  · intro h
    cases h with
    | part notUnion => exact absurd trivial notUnion
    | union mem one => exact ⟨_, mem, one⟩
  · rintro ⟨t, mem, one⟩
    exact .union mem one

end Ty

/-- What one conjunct does, the intersection does. -/
theorem Assignable.of_conjunct (h : u.Conjunct t) (hv : ¬ v.IsUnion) (hv' : ¬ v.IsInter)
    (hu : Assignable w u v) : Assignable w t v := by
  induction h with
  | refl => exact hu
  | inter mem _ ih => exact .interSource hv hv' mem ih

/-- Values of a nominal type may be used where enough parts of the type expect them. -/
theorem assignable_named_iff_met {n : Nominal} :
    Assignable w (.named n args) t ↔ t.Met (Assignable w (.named n args)) := by
  have notUnion : ¬ (Ty.named n args).IsUnion := fun h => h
  constructor
  · intro h
    induction t using Ty.induction with
    | union ts ih =>
      cases h with
      | unionDest _ mem one => exact .union mem (ih _ mem one)
    | inter ts ih =>
      cases h with
      | interDest _ each => exact .inter fun t ht => ih t ht (each t ht)
    | _ => exact .part (fun h => h) (fun h => h) h
  · intro h
    induction h with
    | part _ _ holds => exact holds
    | union mem _ ih => exact .unionDest notUnion mem ih
    | inter _ ih => exact .interDest notUnion ih

/-! ## Instances of a declaration as a source -/

theorem mem_zip_map {f : α → β} {xs : List α} {e : α × β} :
    e ∈ xs.zip (xs.map f) ↔ ∃ x ∈ xs, (x, f x) = e := by
  have h : (xs.map id).zip (xs.map f) = xs.map fun x => (x, f x) := List.zip_map'
  rw [List.map_id] at h
  rw [h, List.mem_map]

/-- Instances of the declaration at `p`, applied to `args` and with the interface `i`, may be used where
the type is expected, which is neither a union nor an intersection. -/
inductive Serves (w : World) (p : Path) (args : List Ty) (i : Interface) : Ty → Prop where
  | any : Serves w p args i .any
  | same {q : Path} {bs : List Ty} (same : p.toAbsolute = q.toAbsolute)
      (length : args.length = bs.length) (forth : ∀ e ∈ args.zip bs, Assignable w e.1 e.2)
      (back : ∀ e ∈ args.zip bs, Assignable w e.2 e.1) : Serves w p args i (.ofPath q bs)
  | ancestor {q : Path} {bs : List Ty} (other : p.toAbsolute ≠ q.toAbsolute)
      (mem : q.toAbsolute ∈ w.ancestors p) : Serves w p args i (.ofPath q bs)
  | furtherType {q : Path} {bs : List Ty} {t : Ty} (other : p.toAbsolute ≠ q.toAbsolute)
      (mem : t ∈ i.supers) (one : Assignable w t (.ofPath q bs)) : Serves w p args i (.ofPath q bs)
  | protocol {q : Path} {bs : List Ty} {j : Interface} (built : Built w ⟨.protocol, q.toAbsolute⟩ j)
      (methods : ∀ name ∈ j.methods.keys, name ∈ i.methods.keys) :
      Serves w p args i (.named ⟨.protocol, q⟩ bs)

theorem serves_of_assignable (hi : Built w ⟨.instances, p.toAbsolute⟩ i)
    (hu : ¬ u.IsUnion) (hu' : ¬ u.IsInter) (h : Assignable w (.ofPath p args) u) :
    Serves w p args i u := by
  cases h with
  | anyDest => exact .any
  | refl =>
    have each : ∀ e ∈ args.zip args, e.1 = e.2 := by
      intro e he
      obtain ⟨a, -, rfl⟩ := mem_zip_map.mp ((List.map_id args).symm ▸ he : e ∈ args.zip (args.map id))
      rfl
    exact .same rfl rfl (fun e he => each e he ▸ .refl) (fun e he => each e he ▸ .refl)
  | unionDest => exact absurd trivial hu
  | interDest => exact absurd trivial hu'
  | @sameDeclaration _ m _ _ akin same length forth back =>
    obtain ⟨facet, q⟩ := m
    cases akin
    exact .same same length forth back
  | @ancestor _ m _ _ akin other mem =>
    obtain ⟨facet, q⟩ := m
    cases akin
    exact .ancestor other mem
  | @furtherType _ m _ _ j _ akin other foreign built mem proper one =>
    obtain ⟨facet, q⟩ := m
    cases akin
    obtain rfl := hi.unique built
    exact .furtherType other mem one
  | @protocol _ m _ _ required provided target builtRequired builtProvided methods =>
    obtain ⟨facet, q⟩ := m
    cases target
    obtain rfl := hi.unique builtProvided
    exact .protocol builtRequired methods
  | moduleObject source => cases source

theorem Serves.assignable (hi : Built w ⟨.instances, p.toAbsolute⟩ i) (h : Serves w p args i u) :
    Assignable w (.ofPath p args) u := by
  cases h with
  | any => exact .anyDest
  | same same length forth back => exact .sameDeclaration .instances same length forth back
  | ancestor other mem => exact .ancestor .instances other mem
  | @furtherType q bs t other mem one =>
    by_cases hancestor : q.toAbsolute ∈ w.ancestors p
    · exact .ancestor .instances other hancestor
    · by_cases hself : t = .ofPath p args
      · exact hself ▸ one
      · exact .furtherType .instances other hancestor hi mem hself one
  | protocol built methods => exact .protocol rfl built hi methods

/-- Without a fitting ancestor or further type, instances of another declaration are not served. -/
theorem not_serves (other : p.toAbsolute ≠ q.toAbsolute) (foreign : q.toAbsolute ∉ w.ancestors p)
    (h : ∀ t ∈ i.supers, ¬ Assignable w t (.ofPath q bs)) : ¬ Serves w p args i (.ofPath q bs) := by
  intro hserves
  cases hserves with
  | same same => exact other same
  | ancestor _ mem => exact foreign mem
  | furtherType _ mem one => exact h _ mem one

/-- Instances may be used where a type is expected exactly when they serve enough parts of it. -/
theorem assignable_named_iff (hi : Built w ⟨.instances, p.toAbsolute⟩ i) :
    Assignable w (.ofPath p args) t ↔ t.Met (Serves w p args i) := by
  rw [assignable_named_iff_met]
  constructor
  · exact fun h => h.mono fun u hu hu' => serves_of_assignable hi hu hu'
  · exact fun h => h.mono fun u _ _ => Serves.assignable hi

/-- Instances of a declaration without further types may be used only for those that it inherits from. -/
theorem not_assignable_of_foreign
    (h : (w.interfaceOf none ⟨.instances, p⟩ (.empty w)).1.toOption.map Interface.supers = some [])
    (other : p.toAbsolute ≠ q.toAbsolute) (foreign : q.toAbsolute ∉ w.ancestors p) :
    ¬ Assignable w (.ofPath p args) (.ofPath q bs) := by
  obtain ⟨i, -, hi, hsupers⟩ := World.exists_built_of_map_eq h
  rw [assignable_named_iff hi, Ty.met_named_iff]
  exact not_serves other foreign (by simp [hsupers])

/-! ## Self-types -/

/-- Parts of a self-type that instances serve for its sake or for their methods: instances of another
declaration, whose arguments are as good without `σ` as with it, and protocols whose methods they have. -/
inductive Kept (w : World) (p : Path) (σ : Subst) (i : Interface) : Ty → Prop where
  | any : Kept w p σ i .any
  | instances {q : Path} {bs : List Ty} (other : p.toAbsolute ≠ q.toAbsolute)
      (same : ∀ b ∈ bs, Assignable w b (b.subst σ) ∧ Assignable w (b.subst σ) b) :
      Kept w p σ i (.ofPath q bs)
  | protocol {q : Path} {bs : List Ty} {j : Interface} (built : Built w ⟨.protocol, q.toAbsolute⟩ j)
      (methods : ∀ name ∈ j.methods.keys, name ∈ i.methods.keys) :
      Kept w p σ i (.named ⟨.protocol, q⟩ bs)

/-- A further type serves what one of its conjuncts names. -/
theorem Kept.met (ht : t ∈ i.supers) (hu : u.Conjunct t) (h : Kept w p σ i u) :
    (u.subst σ).Met (Serves w p args i) := by
  cases h with
  | any => exact .part (fun h => h) (fun h => h) .any
  | @instances q bs other same =>
    have hsame : Assignable w (.ofPath q bs) ((Ty.ofPath q bs).subst σ) := by
      simp only [Ty.subst, Ty.substList_eq]
      refine .sameDeclaration .instances rfl (List.length_map _).symm ?_ ?_
      · intro e he
        obtain ⟨b, hb, rfl⟩ := mem_zip_map.mp he
        exact (same b hb).1
      · intro e he
        obtain ⟨b, hb, rfl⟩ := mem_zip_map.mp he
        exact (same b hb).2
    exact .part (fun h => h) (fun h => h)
      (.furtherType other ht (.of_conjunct hu (fun h => h) (fun h => h) hsame))
  | protocol built methods => exact .part (fun h => h) (fun h => h) (.protocol built methods)

/-- When all conjuncts are kept, enough parts of the type are served. -/
theorem met_of_kept (ht : t ∈ i.supers)
    (h : ∀ u, u.Conjunct t → ¬ u.IsInter → Kept w p σ i u) :
    (t.subst σ).Met (Serves w p args i) := by
  have below : ∀ s : Ty, s.Conjunct t → (s.subst σ).Met (Serves w p args i) := by
    intro s hs
    induction s using Ty.induction with
    | inter ts ih =>
      simp only [Ty.subst, Ty.substList_eq]
      refine .inter fun v hv => ?_
      obtain ⟨s, hmem, rfl⟩ := List.mem_map.mp hv
      exact ih s hmem ((Ty.Conjunct.inter hmem .refl).trans hs)
    | _ => exact (h _ hs (fun h => h)).met ht hs
  exact below t .refl

namespace World

/-- What users of the module `c`, applied to `args`, must have when `s` is its self-type as written. -/
def demand (w : World) (c : Constant) (s : Ty) (args : List Ty) : Ty :=
  (w.absoluteTy (some c.path) s).subst (Subst.id.bind c.params args)

/-- At any time in a session, the instances of a module with a self-type are tested to be of this type
exactly when they serve enough parts of it, whatever its shape; and that is so when all its conjuncts are
instances of other declarations, with arguments that are as good without those of the module as with them,
or protocols whose methods the instances have. -/
theorem test_selfType_iff (w : World) (history : List Query) (c : Constant) (s : Ty) (args : List Ty)
    (i : Interface) (hc : w.decls.constantAt? c.path = some c) (hs : c.selfType? = some s)
    (hi : (w.interfaceOf none ⟨.instances, c.path⟩ (w.inquiry history).memo).1 = .ok i) :
    ((w.test (.ofPath c.path args) (w.demand c s args) (w.inquiry history)).1 = true ↔
        (w.demand c s args).Met (Serves w c.path args i)) ∧
      ((∀ u : Ty, u.Conjunct (w.absoluteTy (some c.path) s) → ¬ u.IsInter →
          Kept w c.path (Subst.id.bind c.params args) i u) →
        (w.test (.ofPath c.path args) (w.demand c s args) (w.inquiry history)).1 = true) := by
  have habs := w.decls.constants_absolute c (Declarations.mem_of_constantAt? hc)
  have hbuilt := (interfaceOf_constant_iff (idle_inquiry history) hc).mp hi
  have hsupers := selfType_mem_supers hc hs hbuilt
  have hserved : (w.test (.ofPath c.path args) (w.demand c s args) (w.inquiry history)).1 = true ↔
      (w.demand c s args).Met (Serves w c.path args i) := by
    rw [test_iff (idle_inquiry history) (asking_inquiry history)]
    exact assignable_named_iff (by rwa [Path.toAbsolute_eq_self habs])
  exact ⟨hserved, fun h => hserved.mpr (met_of_kept hsupers h)⟩

/-- A module with a self-type and methods of these names. -/
def selfTyped (name : String) (params methods : List String) (s : Ty) : Constant where
  path := ⟨[name], true⟩
  params := params
  members := methods.map fun m => .method ⟨m, .instances, [], []⟩
  extent := .nowhere
  body := .mod (some s)

/-- Its self-type applies a class to the parameter of the module. -/
def boxed : Constant := selfTyped "Boxed" ["a"] [] (.ofPath ⟨["Box"], false⟩ [.var "a"])

/-- Its self-type is a protocol. -/
def walker : Constant := selfTyped "Walker" [] [] (.named ⟨.protocol, ⟨["_Each"], false⟩⟩ [])

/-- Its self-type is a union of classes. -/
def either : Constant :=
  selfTyped "Either" [] [] (.union
    [.ofPath ⟨["Box"], false⟩ [.ofPath ⟨["Object"], false⟩ []], .ofPath ⟨["Bag"], false⟩ []])

/-- Its self-type is the intersection of a class applied to another class, and the protocol. -/
def both : Constant :=
  selfTyped "Both" ["a"] ["each"] (.inter [.ofPath ⟨["Box"], false⟩ [.ofPath ⟨["Bag"], false⟩ []],
    .named ⟨.protocol, ⟨["_Each"], false⟩⟩ []])

/-- The modules with the classes and the protocol. -/
def demanding : World where
  decls := (Declarations.empty.addAll
    [.constant ⟨⟨["BasicObject"], true⟩, [], [], .nowhere, .cls none⟩,
     .constant ⟨⟨["Object"], true⟩, [], [], .nowhere, .cls (some ⟨⟨["BasicObject"], true⟩, []⟩)⟩,
     .constant ⟨⟨["Box"], true⟩, ["a"], [], .nowhere, .cls none⟩,
     .constant ⟨⟨["Bag"], true⟩, [], [], .nowhere, .cls none⟩,
     .protocol ⟨⟨["_Each"], true⟩, [], [⟨"each", .instances, [], []⟩], .nowhere⟩,
     .constant boxed, .constant walker, .constant either, .constant both]).1
  roots := .standard

theorem exists_protocol_demanding :
    ∃ j, Built demanding ⟨.protocol, ⟨["_Each"], true⟩⟩ j ∧ j.methods.keys = ["each"] := by
  obtain ⟨j, -, hj, hkeys⟩ := exists_built_of_map_eq (w := demanding)
    (n := ⟨.protocol, ⟨["_Each"], true⟩⟩) (f := fun j => j.methods.keys) (a := ["each"])
    (by decide +kernel)
  exact ⟨j, hj, hkeys⟩

/-- The intersection is served: its class by the self-type, its protocol by the method. -/
theorem test_selfType_both :
    ∃ s i, both.selfType? = some s ∧
      (demanding.interfaceOf none ⟨.instances, both.path⟩ (.empty demanding)).1 = .ok i ∧
      (demanding.test (.ofPath both.path [.ofPath ⟨["Object"], true⟩ []])
        (demanding.demand both s [.ofPath ⟨["Object"], true⟩ []]) (.start (.empty demanding))).1 =
          true := by
  obtain ⟨i, hi, -, hkeys⟩ := exists_built_of_map_eq (w := demanding) (n := ⟨.instances, both.path⟩)
    (f := fun i => i.methods.keys) (a := ["each"]) (by decide +kernel)
  obtain ⟨j, hj, hrequired⟩ := exists_protocol_demanding
  refine ⟨_, i, rfl, hi, (test_selfType_iff demanding [] both _ _ i rfl rfl hi).2 fun u hu hinter => ?_⟩
  have hwritten : demanding.absoluteTy (some both.path) (.inter
      [.ofPath ⟨["Box"], false⟩ [.ofPath ⟨["Bag"], false⟩ []],
        .named ⟨.protocol, ⟨["_Each"], false⟩⟩ []]) =
      .inter [.ofPath ⟨["Box"], true⟩ [.ofPath ⟨["Bag"], true⟩ []],
        .named ⟨.protocol, ⟨["_Each"], true⟩⟩ []] := rfl
  rw [hwritten] at hu
  cases hu with
  | refl => exact absurd trivial hinter
  | inter mem below =>
    rcases List.mem_cons.mp mem with rfl | mem
    · cases below
      refine .instances (by decide) fun b hb => ?_
      obtain rfl := List.mem_singleton.mp hb
      exact ⟨.refl, .refl⟩
    · obtain rfl := List.mem_singleton.mp mem
      cases below
      exact .protocol hj (by rw [hrequired, hkeys]; exact fun _ h => h)

/-- The instances of a module, applied to as many absolute arguments as it has different parameters, have
an interface, and a test turns them down where its self-type is expected. -/
structure TurnsDown (w : World) (c : Constant) (args : List Ty) : Prop where
  declared : w.decls.constantAt? c.path = some c
  params : c.params.Nodup
  length : args.length = c.params.length
  absolute : ∀ a ∈ args, ∀ n ∈ a.names, n.path.absolute = true
  refused : ∃ s i, c.selfType? = some s ∧
    (w.interfaceOf none ⟨.instances, c.path⟩ (.empty w)).1 = .ok i ∧
    (w.test (.ofPath c.path args) (w.demand c s args) (.start (.empty w))).1 = false

/-- What is not served is turned down. -/
theorem test_eq_false (hi : Built w ⟨.instances, p.toAbsolute⟩ i)
    (h : ¬ t.Met (Serves w p args i)) : (w.test (.ofPath p args) t (.start (.empty w))).1 = false := by
  have hidle : (Inquiry.start (.empty w)).memo.Idle := Memo.isOpen_empty
  rw [← Bool.not_eq_true, test_iff hidle rfl, assignable_named_iff hi]
  exact h

/-- Arguments are compared as they stand: a parameter is not the class that it stands for. -/
theorem not_assignable_var {x : String} :
    ¬ Assignable w (.ofPath p [.var x]) (.ofPath p [.ofPath q bs]) := by
  intro h
  cases h with
  | sameDeclaration _ _ _ forth _ =>
    have hvar := forth (.var x, .ofPath q bs) (List.mem_singleton_self _)
    cases hvar
  | ancestor _ other => exact other rfl
  | furtherType _ other => exact other rfl
  | protocol target => cases target
  | moduleObject source => cases source

/-- The two classes are not assignable to each other. -/
theorem not_assignable_demanding {args bs : List Ty} :
    ¬ Assignable demanding (.ofPath ⟨["Bag"], true⟩ args) (.ofPath ⟨["Box"], true⟩ bs) ∧
      ¬ Assignable demanding (.ofPath ⟨["Box"], true⟩ args) (.ofPath ⟨["Bag"], true⟩ bs) :=
  ⟨not_assignable_of_foreign (by decide +kernel) (by decide) (by decide +kernel),
    not_assignable_of_foreign (by decide +kernel) (by decide) (by decide +kernel)⟩

theorem turnsDown_boxed : demanding.TurnsDown boxed [.ofPath ⟨["Object"], true⟩ []] := by
  obtain ⟨i, hi, hbuilt, hsupers⟩ := exists_built_of_map_eq (w := demanding)
    (n := ⟨.instances, boxed.path⟩) (f := Interface.supers)
    (a := [.ofPath ⟨["Box"], true⟩ [.var "a"]]) (by decide +kernel)
  refine ⟨rfl, by decide, rfl, by decide, _, i, rfl, hi, test_eq_false hbuilt ?_⟩
  change ¬ (Ty.ofPath ⟨["Box"], true⟩ [.ofPath ⟨["Object"], true⟩ []]).Met _
  rw [Ty.met_named_iff]
  refine not_serves (by decide) (by decide +kernel) ?_
  rw [hsupers, List.forall_mem_singleton]
  exact not_assignable_var

theorem turnsDown_walker : demanding.TurnsDown walker [] := by
  obtain ⟨i, hi, hbuilt, hkeys⟩ := exists_built_of_map_eq (w := demanding)
    (n := ⟨.instances, walker.path⟩) (f := fun i => i.methods.keys) (a := []) (by decide +kernel)
  obtain ⟨j, hj, hrequired⟩ := exists_protocol_demanding
  refine ⟨rfl, by decide, rfl, by decide, _, i, rfl, hi, test_eq_false hbuilt ?_⟩
  change ¬ (Ty.named ⟨.protocol, ⟨["_Each"], true⟩⟩ []).Met _
  rw [Ty.met_named_iff]
  intro h
  cases h with
  | protocol built methods =>
    obtain rfl := built.unique hj
    rw [hrequired, hkeys] at methods
    exact absurd (methods "each" (List.mem_singleton_self _)) List.not_mem_nil

theorem turnsDown_either : demanding.TurnsDown either [] := by
  obtain ⟨i, hi, hbuilt, hsupers⟩ := exists_built_of_map_eq (w := demanding)
    (n := ⟨.instances, either.path⟩) (f := Interface.supers)
    (a := [.union [.ofPath ⟨["Box"], true⟩ [.ofPath ⟨["Object"], true⟩ []],
      .ofPath ⟨["Bag"], true⟩ []]]) (by decide +kernel)
  refine ⟨rfl, by decide, rfl, by decide, _, i, rfl, hi, test_eq_false hbuilt ?_⟩
  change ¬ (Ty.union [.ofPath ⟨["Box"], true⟩ [.ofPath ⟨["Object"], true⟩ []],
    .ofPath ⟨["Bag"], true⟩ []]).Met _
  rw [Ty.met_union_iff]
  rintro ⟨t, ht, hmet⟩
  -- the whole union would have to be assignable to one of its members
  rcases List.mem_cons.mp ht with rfl | ht
  · refine not_serves (by decide) (by decide +kernel) ?_ (Ty.met_named_iff.mp hmet)
    rw [hsupers, List.forall_mem_singleton]
    intro h
    cases h with
    | unionSource each =>
      have hbag := each _ (List.mem_cons_of_mem _ (List.mem_singleton_self _))
      exact not_assignable_demanding.1 hbag
  · obtain rfl := List.mem_singleton.mp ht
    refine not_serves (by decide) (by decide +kernel) ?_ (Ty.met_named_iff.mp hmet)
    rw [hsupers, List.forall_mem_singleton]
    intro h
    cases h with
    | unionSource each =>
      have hbox := each _ (List.mem_cons_self ..)
      exact not_assignable_demanding.2 hbox

/-- Not every module's instances are of its self-type: not when it applies a class to a parameter, not
when it is a protocol, and not when it is a union. -/
theorem turnsDown_demanding :
    demanding.TurnsDown boxed [.ofPath ⟨["Object"], true⟩ []] ∧ demanding.TurnsDown walker [] ∧
      demanding.TurnsDown either [] :=
  ⟨turnsDown_boxed, turnsDown_walker, turnsDown_either⟩

end World

end MixinTypes
