import MixinTypes.Proofs.Linking.Dependency

/-!
# Where further types come from

An interface is declared to have further types by the self-type of a module, and takes over those of the
interfaces that are merged into it, with the arguments of the merge put in.

1. Carrying out steps adds to the further types what each step adds (`supers_foldl_apply`).
2. Only the self-type of a module constrains its instances (`constrain_mem_steps_iff`). So it is a further type
   of theirs (`selfType_mem_supers`), and where no module has a self-type there are no further types at all
   (`supers_eq_nil`), by induction on how the interface was built.
-/

namespace MixinTypes

/-! ## What steps add -/

namespace Step

variable {found : Nominal → Interface} {g : Gathered}

/-- The further type that the step itself gives. -/
def constraint? : Step → Option Ty
  | .constrain t => some t
  | _ => none

theorem mem_filterMap_constraint?_iff {ss : List Step} {t : Ty} :
    t ∈ ss.filterMap constraint? ↔ .constrain t ∈ ss := by
  rw [List.mem_filterMap]
  constructor
  · rintro ⟨s, hs, ht⟩
    cases s with
    | constrain t' => exact Option.some.inj ht ▸ hs
    | _ => cases ht
  · exact fun h => ⟨_, h, rfl⟩

/-- The further types that the step adds. -/
def supers (found : Nominal → Interface) : Step → List Ty
  | .mix source args => ((found source).instantiate args .id).supers
  | .constrain t => [t]
  | .note _ | .seed _ _ | .define _ | .put _ | .drop _ => []

theorem supers_apply (s : Step) : (s.apply found g).supers = g.supers ++ s.supers found := by
  cases s with
  | mix | constrain => rfl
  | note | seed | define | put | drop => exact (List.append_nil _).symm

theorem supers_foldl_apply (ss : List Step) :
    (ss.foldl (apply found) g).supers = g.supers ++ ss.flatMap (supers found) := by
  induction ss generalizing g with
  | nil => exact (List.append_nil _).symm
  | cons s ss ih => rw [List.foldl_cons, ih, supers_apply, List.flatMap_cons, List.append_assoc]

end Step

theorem Plan.supers_assemble (p : Plan) (found : Nominal → Interface) :
    (p.assemble found).supers = p.steps.flatMap (Step.supers found) :=
  Step.supers_foldl_apply p.steps

/-! ## Further types of built interfaces -/

namespace World

variable {w : World} {c : Constant} {n : Nominal} {p : Plan} {i : Interface} {t : Ty}

theorem constraints_instancePlan (c : Constant) :
    (w.instancePlan c).steps.filterMap Step.constraint? =
      c.selfType?.toList.map (w.absoluteTy (some c.path)) := by
  have note : ∀ u, Step.constraint? (.note u) = none := fun _ => rfl
  have superclass : (w.superclassSteps c).filterMap Step.constraint? = [] := by
    rw [filterMap_superclassSteps note]
    exact List.filterMap_eq_nil_iff.mpr fun _ _ => rfl
  have self : (w.selfTypeSteps c).filterMap Step.constraint? =
      c.selfType?.toList.map (w.absoluteTy (some c.path)) := by
    rw [selfTypeSteps, noteTypes, List.filterMap_append, filterMap_note note, List.nil_append,
      List.filterMap_map]
    exact congrFun List.filterMap_eq_map _
  simp [instancePlan, superclass, self, List.filterMap_flatMap, filterMap_mixinSteps note,
    filterMap_defineSteps note, Step.constraint?]

/-- Instances are constrained by the self-type of their declaration alone. -/
theorem constrain_mem_steps_iff : .constrain t ∈ (w.instancePlan c).steps ↔
    ∃ s, c.selfType? = some s ∧ w.absoluteTy (some c.path) s = t := by
  rw [← Step.mem_filterMap_constraint?_iff, constraints_instancePlan]
  simp only [List.mem_map, Option.mem_toList]

/-- Instances of a module are declared to have its self-type. -/
theorem selfType_mem_supers (hc : w.decls.constantAt? c.path = some c) (ht : c.selfType? = some t)
    (hi : Built w ⟨.instances, c.path⟩ i) : w.absoluteTy (some c.path) t ∈ i.supers := by
  obtain ⟨found, -, rfl⟩ := exists_assemble_of_built hc hi
  rw [Plan.supers_assemble]
  exact List.mem_flatMap.mpr ⟨_, constrain_mem_steps_iff.mpr ⟨t, ht, rfl⟩, List.mem_singleton_self _⟩

/-- Only self-types constrain. -/
theorem ne_constrain_of_mem (hself : ∀ c ∈ w.decls.constants, c.selfType? = none)
    (hp : w.plan n = .ok p) : ∀ s ∈ p.steps, ∀ t, s ≠ .constrain t := by
  have constrain : ∀ c ∈ w.decls.constants, ∀ s, c.selfType? = some s →
      ∀ t, Step.constrain (w.absoluteTy (some c.path) s) ≠ .constrain t := by
    intro c hc s hs
    rw [hself c hc] at hs
    cases hs
  obtain ⟨merging, own, hsteps, hmerging, hown⟩ :=
    exists_parts (P := fun s => ∀ t, s ≠ .constrain t) (Q := fun s => ∀ t, s ≠ .constrain t)
      (fun _ _ => Step.noConfusion) hp (fun _ _ => Step.noConfusion) (fun _ _ _ => Step.noConfusion)
      (fun _ _ _ => Step.noConfusion) constrain (fun _ _ _ => Step.noConfusion)
      (fun _ _ _ _ => Step.noConfusion) fun _ _ => Step.noConfusion
  rw [hsteps]
  exact List.forall_mem_append.mpr ⟨hmerging, hown⟩

/-- Without self-types no interface has further types. -/
theorem supers_eq_nil (hself : ∀ c ∈ w.decls.constants, c.selfType? = none) (hi : Built w n i) :
    i.supers = [] := by
  induction hi with
  | @intro n p found hp hb ih =>
    rw [Plan.supers_assemble, List.flatMap_eq_nil_iff]
    intro s hs
    cases s with
    | mix r args =>
      have hr : (found r).supers = [] := ih r (List.mem_filterMap.mpr ⟨_, hs, rfl⟩)
      exact (congrArg (List.map _) hr).trans List.map_nil
    | constrain t => exact absurd rfl (ne_constrain_of_mem hself hp _ hs t)
    | note | seed | define | put | drop => rfl

end World

end MixinTypes
