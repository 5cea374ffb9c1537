import MixinTypes.Proofs.Linking.Dependency
import MixinTypes.Proofs.Linking.Extension

/-!
# The names under which interfaces are kept

An interface is kept under the name that was asked for, made absolute in its scope. A name that could
not be made absolute stays as it is written, and its plan is looked for at the root all the same, where
a constant may be found that the scope hides.

1. Whatever is requested starts at the root, or its failure has been noted before it is requested
   (`Announced`, one lemma for each group of steps).
2. So everything that linking keeps is kept under such a name (`grounded_link`), by induction on
   linking.
3. A name that nothing in its scope or around it bears is not at the root either. What remains is a
   name for which the scope has a constant of the wrong kind (`entries_after`).
-/

namespace MixinTypes

namespace World

variable {w : World} {us vs : List Unresolved} {n : Nominal}

/-- The name starts at the root, or it could not be resolved in some scope, as has been noted. -/
def Grounded (w : World) (us : List Unresolved) (n : Nominal) : Prop :=
  n.path.absolute = true ∨
    ∃ scope cause, w.locate scope n = .error cause ∧ ⟨n, scope, cause⟩ ∈ us

theorem Grounded.mono (h : w.Grounded us n) (hsub : us ⊆ vs) : w.Grounded vs n :=
  h.imp_right fun ⟨scope, cause, hl, hmem⟩ => ⟨scope, cause, hl, hsub hmem⟩

theorem grounded_toAbsolute (w : World) (us : List Unresolved) (n : Nominal) :
    w.Grounded us n.toAbsolute :=
  .inl rfl

/-- A name is resolved, or its failure is what is noted for it. -/
theorem grounded_absoluteName (w : World) (scope : Option Path) (n : Nominal) :
    w.Grounded (w.unresolved? scope n).toList (w.absoluteName scope n) := by
  cases h : w.unresolved? scope n with
  | none => exact .inl (absolute_absoluteName h)
  | some u =>
    rw [absoluteName_of_unresolved? h]
    obtain ⟨-, rfl, hl⟩ := locate_of_unresolved? h
    exact .inr ⟨u.scope, u.cause, hl, List.mem_singleton_self u⟩

end World

/-! ## Steps announce what they request -/

/-- Whatever the steps request starts at the root or has been noted, among `us` or by an earlier
step. -/
def Announced (w : World) (us : List Unresolved) : List Step → Prop
  | [] => True
  | s :: ss => (∀ r, s.request? = some r → w.Grounded us r) ∧ Announced w (us ++ s.noted) ss

namespace Announced

variable {w : World} {us vs : List Unresolved} {ss ts : List Step} {n : Nominal}

theorem mono (h : Announced w us ss) (hsub : us ⊆ vs) : Announced w vs ss := by
  induction ss generalizing us vs with
  | nil => trivial
  | cons s ss ih =>
    refine ⟨fun r hr => (h.1 r hr).mono hsub, ih h.2 ?_⟩
    exact List.append_subset.mpr
      ⟨fun u hu => List.mem_append_left _ (hsub hu), List.subset_append_right _ _⟩

theorem append (h : Announced w us ss) (h' : Announced w us ts) : Announced w us (ss ++ ts) := by
  induction ss generalizing us with
  | nil => exact h'
  | cons s ss ih => exact ⟨h.1, ih h.2 (h'.mono (List.subset_append_left _ _))⟩

theorem flatMap {f : α → List Step} {xs : List α} (h : ∀ x ∈ xs, Announced w us (f x)) :
    Announced w us (xs.flatMap f) := by
  induction xs with
  | nil => trivial
  | cons x xs ih =>
    rw [List.flatMap_cons]
    exact (h x (List.mem_cons_self ..)).append (ih fun y hy => h y (List.mem_cons_of_mem x hy))

/-- Steps that request nothing. -/
theorem of_silent (h : ss.filterMap Step.request? = []) : Announced w us ss := by
  induction ss generalizing us with
  | nil => trivial
  | cons s ss ih =>
    cases hs : s.request? with
    | some r =>
      rw [List.filterMap_cons_some hs] at h
      cases h
    | none =>
      rw [List.filterMap_cons_none hs] at h
      exact ⟨fun r hr => (nomatch hs.symm.trans hr), ih h⟩

/-- A name is noted before its interface is requested. -/
theorem request (w : World) (us : List Unresolved) (scope : Option Path) (n : Nominal)
    (args : List Ty) :
    Announced w us (w.noteName scope n ++ [.mix (w.absoluteName scope n) args]) := by
  have h := World.grounded_absoluteName w scope n
  unfold World.noteName
  cases hu : w.unresolved? scope n with
  | none =>
    rw [hu] at h
    refine ⟨fun r hr => ?_, trivial⟩
    obtain rfl := Option.some.inj hr
    exact h.mono (List.nil_subset us)
  | some u =>
    rw [hu] at h
    refine ⟨fun r hr => (nomatch hr), fun r hr => ?_, trivial⟩
    obtain rfl := Option.some.inj hr
    exact h.mono (List.subset_append_right us [u])

theorem mixinSteps (w : World) (us : List Unresolved) (scope : Path) (facet : Facet) (a : Applied) :
    Announced w us (w.mixinSteps scope facet a) := by
  unfold World.mixinSteps
  rw [List.append_assoc]
  exact (of_silent (World.filterMap_note (fun _ => rfl) _)).append (request ..)

theorem objectMixinSteps (w : World) (us : List Unresolved) (c : Constant) :
    Announced w us (w.objectMixinSteps c) := by
  refine flatMap fun member _ => ?_
  cases member with
  | method m => trivial
  | included a => exact mixinSteps ..
  | extended a => exact mixinSteps ..

theorem superclassSteps (w : World) (us : List Unresolved) (c : Constant) :
    Announced w us (w.superclassSteps c) := by
  unfold World.superclassSteps
  split
  · trivial
  · exact (request ..).append (of_silent (World.filterMap_note (fun _ => rfl) _))

theorem superclassObjectSteps (w : World) (us : List Unresolved) (c : Constant) (k : Bool) :
    Announced w us (w.superclassObjectSteps c k) := by
  unfold World.superclassObjectSteps
  split
  · trivial
  · exact request ..

theorem seed (w : World) (us : List Unresolved) (n : Nominal) (args : List Ty) :
    Announced w us [.seed n.toAbsolute args] := by
  refine ⟨fun r hr => ?_, trivial⟩
  obtain rfl := Option.some.inj hr
  exact World.grounded_toAbsolute w us n

/-- The steps of every plan announce what they request. -/
theorem of_plan {p : Plan} (h : w.plan n = .ok p) (us : List Unresolved) :
    Announced w us p.steps := by
  have define : ∀ scope owner (ms : List MethodDecl),
      Announced w us (ms.flatMap (w.defineSteps scope owner)) := fun scope owner ms =>
    flatMap fun m _ => of_silent (World.requests_defineSteps scope owner m)
  obtain ⟨facet, path⟩ := n
  cases facet with
  | instances =>
    obtain ⟨c, -, rfl⟩ := World.exists_of_map_eq_ok h
    refine ((((superclassSteps w us c).append ?_).append ?_).append (define ..)).append (define ..)
    · exact of_silent (World.requests_selfTypeSteps c)
    · exact flatMap fun a _ => mixinSteps ..
  | moduleObject =>
    obtain ⟨c, -, rfl⟩ := World.exists_of_map_eq_ok h
    refine ((Announced.append ?_ (seed w us ⟨.instances, w.roots.moduleClass⟩ _)).append
      (objectMixinSteps ..)).append (define ..)
    exact of_silent (World.requests_selfTypeSteps c)
  | classObject k =>
    obtain ⟨c, -, rfl⟩ := World.exists_of_map_eq_ok h
    refine ((((seed w us ⟨.instances, w.roots.classClass⟩ _).append
      (superclassObjectSteps ..)).append (objectMixinSteps ..)).append ?_).append ?_
    · exact flatMap fun m _ => of_silent (World.requests_classMethodSteps c k m)
    · cases k <;> exact of_silent rfl
  | protocol =>
    obtain ⟨q, -, rfl⟩ := World.exists_of_map_eq_ok h
    exact of_silent (World.requests_protocolPlan q)

end Announced

/-! ## What linking keeps -/

namespace Memo

variable {w : World} {n : Nominal} {m m' : Memo w}

/-- Every interface is kept under a name that starts at the root or whose failure has been noted. -/
def Grounded (m : Memo w) : Prop :=
  ∀ k i, m.entries.get? k = some (.done i) → w.Grounded m.unresolved k

theorem Grounded.note (h : m.Grounded) (us : List Unresolved) : (m.note us).Grounded :=
  fun k i hk => (h k i hk).mono (List.subset_append_left _ us)

theorem Grounded.enter (h : m.Grounded) (n : Nominal) : (m.enter n).Grounded := by
  intro k i hk
  rw [get?_enter] at hk
  split at hk
  · cases hk
  · exact h k i hk

theorem Grounded.leave (h : m.Grounded) (n : Nominal) : (m.leave n).Grounded := by
  intro k i hk
  rw [get?_leave] at hk
  split at hk
  · cases hk
  · exact h k i hk

theorem Grounded.store (h : m.Grounded) (hn : w.Grounded m.unresolved n)
    (i : { i // Built w n i }) : (m.store i).Grounded := by
  intro k j hk
  rw [get?_store] at hk
  split at hk
  · next heq =>
    subst heq
    exact hn
  · exact h k j hk

end Memo

namespace World

variable {w : World} {n : Nominal}

/-- Gathering keeps interfaces under such names only when it requests such names only. -/
theorem grounded_gather {entered m : Memo w} {ss : List Step}
    (hlink : ∀ r m', entered.Keeps m' → w.Grounded m'.unresolved r → m'.Grounded →
      (w.link r m').2.Grounded)
    (hkeeps : entered.Keeps m) (hm : m.Grounded) (hss : Announced w m.unresolved ss) :
    (gather Memo.note w.link ss m).2.Grounded := by
  induction ss generalizing m with
  | nil => exact hm
  | cons s ss ih =>
    unfold gather
    split
    · have h : (gather Memo.note w.link ss (m.note s.noted)).2.Grounded :=
        ih hkeeps (hm.note _) hss.2
      split <;> next hg => rwa [hg] at h
    · next r hr =>
      have hnoted := Step.noted_of_request? hr
      have hx := extends_link r m
      have hr : (w.link r m).2.Grounded := hlink r m hkeeps (hss.1 r hr) hm
      have hrest := hss.2
      rw [hnoted, List.append_nil] at hrest
      have h : (gather Memo.note w.link ss (w.link r m).2).2.Grounded :=
        ih (hkeeps.trans hx.keeps) hr (hrest.mono hx.unresolved.subset)
      split
      · next hl => rwa [hl] at hr
      · next hl =>
        rw [hl] at h
        split <;> next hg => rwa [hg] at h

theorem grounded_link {m : Memo w} (hn : w.Grounded m.unresolved n) (hm : m.Grounded) :
    (w.link n m).2.Grounded := by
  induction n, m using link_induction with
  | done n m i h => rw [link_of_done h]; exact hm
  | inProgress n m h => rw [link_of_inProgress h]; exact hm
  | unknown n m cause h hp => rw [link_of_unknown h hp]; exact (hm.enter n).leave n
  | plan n m p h hp ih =>
    have hg : (gather Memo.note w.link p.steps (m.enter n)).2.Grounded :=
      grounded_gather ih (.refl _) (hm.enter n) (.of_plan hp _)
    have hx := extends_gather p.steps (m.enter n)
    rw [link_of_plan h hp]
    split
    · next hgather =>
      rw [hgather] at hg
      exact hg.leave n
    · next hgather =>
      rw [hgather] at hg hx
      exact hg.store (hn.mono hx.unresolved.subset) _

/-! ## Sessions -/

theorem grounded_interfaceOf {m : Memo w} (hm : m.Grounded) (scope : Option Path) (n : Nominal) :
    (w.interfaceOf scope n m).2.Grounded :=
  grounded_link ((grounded_absoluteName w scope n).mono (List.subset_append_right _ _))
    (hm.note (w.unresolved? scope n).toList)

theorem grounded_after (history : List Operation) : (w.after history).Grounded := by
  induction history using List.reverseRecOn with
  | nil => exact fun k i hk => nomatch hk
  | append_singleton history op ih =>
    rw [after_concat]
    cases op with
    | interface scope n => exact grounded_interfaceOf ih scope n
    | mixin scope n => exact grounded_interfaceOf ih (some scope) n
    | name | type | params | signature | method => exact ih.note _

/-- An interface carries the absolute form of the name that it was built for. -/
theorem name_of_built {i : Interface} (h : Built w n i) : i.name = n.toAbsolute := by
  cases h with
  | @intro _ p found hp _ =>
    obtain ⟨facet, path⟩ := n
    change p.name = _
    cases facet with
    | instances =>
      obtain ⟨c, hc, rfl⟩ := exists_of_map_eq_ok hp
      exact congrArg (Nominal.mk _) (Declarations.path_of_find_none hc)
    | moduleObject =>
      obtain ⟨c, hc, rfl⟩ := exists_of_map_eq_ok hp
      have hc := (Declarations.find_of_findKind hc).1
      exact congrArg (Nominal.mk _) (Declarations.path_of_find_none hc)
    | classObject k =>
      obtain ⟨c, hc, rfl⟩ := exists_of_map_eq_ok hp
      have hc := (Declarations.find_of_findKind hc).1
      exact congrArg (Nominal.mk _) (Declarations.path_of_find_none hc)
    | protocol =>
      obtain ⟨q, hq, rfl⟩ := exists_of_map_eq_ok hp
      have hq := Declarations.protocolAt?_of_findProtocol hq
      exact congrArg (Nominal.mk _) (Declarations.path_of_protocolAt? hq)

/-- When look-up in a scope fails for a name that has a plan, it has found a constant of the wrong
kind. -/
theorem kindMismatch_of_plan {scope : Path} {cause : LookupError} {p : Plan}
    (hl : w.locate scope n = .error cause) (hp : w.plan n = .ok p) :
    ∃ path kind, cause = .kindMismatch path kind := by
  have notFound : ∀ {e}, w.decls.find (some scope) n.path = .error e →
      ∀ c, w.decls.find none n.path ≠ .ok c := by
    intro e he c hc
    rw [Declarations.find_none_of_find_eq_error he] at hc
    cases hc
  have ofKind : ∀ {kind c}, w.decls.findKind kind (some scope) n.path = .error cause →
      w.decls.findKind kind none n.path = .ok c → ∃ path kind, cause = .kindMismatch path kind := by
    intro kind c he hc
    rcases Declarations.find_or_kindMismatch_of_findKind he with he | ⟨path, rfl⟩
    · exact absurd (Declarations.find_of_findKind hc).1 (notFound he c)
    · exact ⟨path, kind, rfl⟩
  obtain ⟨facet, path⟩ := n
  cases facet with
  | instances =>
    obtain ⟨c, hc, -⟩ := exists_of_map_eq_ok hp
    exact absurd hc (notFound (eq_error_of_map_eq_error hl) c)
  | moduleObject =>
    obtain ⟨c, hc, -⟩ := exists_of_map_eq_ok hp
    exact ofKind (eq_error_of_map_eq_error hl) hc
  | classObject k =>
    obtain ⟨c, hc, -⟩ := exists_of_map_eq_ok hp
    exact ofKind (eq_error_of_map_eq_error hl) hc
  | protocol => cases hl

/-- At any time in a session, an interface is kept under the name that it carries, save when that name
was written relative to a scope in which it stands for a constant of the wrong kind: then the interface
is kept under the name as written, and the failure has been noted. -/
theorem entries_after (w : World) (history : List Operation) (n : Nominal) (i : Interface)
    (h : (w.after history).entries.get? n = some (.done i)) :
    i.name = n.toAbsolute ∧ (n = i.name ∨ ∃ scope path kind,
      w.locate scope n = .error (.kindMismatch path kind) ∧
        ⟨n, scope, .kindMismatch path kind⟩ ∈ (w.after history).unresolved) := by
  have hbuilt := (w.after history).sound h
  refine ⟨name_of_built hbuilt, ?_⟩
  rcases grounded_after history n i h with habs | ⟨scope, cause, hl, hmem⟩
  · refine .inl ?_
    rw [name_of_built hbuilt, Nominal.toAbsolute, Path.toAbsolute_eq_self habs, Nominal.withPath_self]
  · cases hbuilt with
    | intro _ hp _ =>
      obtain ⟨path, kind, rfl⟩ := kindMismatch_of_plan hl hp
      exact .inr ⟨scope, path, kind, hl, hmem⟩

/-- A module at the top level, and a class that has a class of the same simple name inside. -/
def shadowed : World where
  decls := (Declarations.empty.addAll
    [.constant ⟨⟨["BasicObject"], true⟩, [], [], .nowhere, .cls none⟩,
     .constant ⟨⟨["Object"], true⟩, [], [], .nowhere, .cls (some ⟨⟨["BasicObject"], true⟩, []⟩)⟩,
     .constant ⟨⟨["Module"], true⟩, [], [], .nowhere, .cls none⟩,
     .constant ⟨⟨["M"], true⟩, [], [], .nowhere, .mod none⟩,
     .constant ⟨⟨["A"], true⟩, [], [], .nowhere, .cls none⟩,
     .constant ⟨⟨["A", "M"], true⟩, [], [], .nowhere, .cls none⟩]).1
  roots := .standard

/-- The module object is requested at the root and from within the class. -/
def shadowing : List Operation :=
  [.interface none ⟨.moduleObject, ⟨["M"], true⟩⟩,
   .interface (some ⟨["A"], true⟩) ⟨.moduleObject, ⟨["M"], false⟩⟩]

theorem exists_entry_shadowed (absolute : Bool) :
    ∃ i, (shadowed.after shadowing).entries.get? ⟨.moduleObject, ⟨["M"], absolute⟩⟩ =
      some (.done i) := by
  have hentry : ((shadowed.after shadowing).entries.get?
      ⟨.moduleObject, ⟨["M"], absolute⟩⟩).isSome = true := by
    revert absolute
    decide +kernel
  obtain ⟨entry, h⟩ := Option.isSome_iff_exists.mp hentry
  cases entry with
  | done i => exact ⟨i, h⟩
  | inProgress =>
    have hopen := Memo.isOpen_iff.mpr h
    rw [isOpen_after] at hopen
    cases hopen

/-- One and the same module object is kept under two names. -/
theorem entries_after_shadowing :
    ∃ i j, (shadowed.after shadowing).entries.get? ⟨.moduleObject, ⟨["M"], true⟩⟩ = some (.done i) ∧
      (shadowed.after shadowing).entries.get? ⟨.moduleObject, ⟨["M"], false⟩⟩ = some (.done j) ∧
      i.name = ⟨.moduleObject, ⟨["M"], true⟩⟩ ∧ j.name = ⟨.moduleObject, ⟨["M"], true⟩⟩ := by
  obtain ⟨i, hi⟩ := exists_entry_shadowed true
  obtain ⟨j, hj⟩ := exists_entry_shadowed false
  exact ⟨i, j, hi, hj, (entries_after shadowed shadowing _ i hi).1,
    (entries_after shadowed shadowing _ j hj).1⟩

/-- Not every interface is kept under an absolute name, nor under the name that it carries. -/
theorem not_absolute_shadowing :
    ¬ ∀ n i, (shadowed.after shadowing).entries.get? n = some (.done i) →
      n.path.absolute = true ∧ n = i.name := by
  intro h
  obtain ⟨i, hi⟩ := exists_entry_shadowed false
  exact absurd (h _ i hi).1 Bool.false_ne_true

end World

end MixinTypes
