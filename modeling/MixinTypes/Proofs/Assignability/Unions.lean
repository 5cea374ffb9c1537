import MixinTypes.Proofs.Assignability.Decision

/-!
# Members of unions

The rule for a union that is expected comes only after the one for a union that is given, and a type that
equals the union needs neither, so adding or removing a member can change which rule applies.

1. A union may be used where each of its members may (`assignable_union_iff`), whichever rule it was that
   allowed the union.
2. What may be used for a member may be used for the union (`Assignable.union_of_mem`), also when it is a
   union itself: then this is so of its members, by induction.
3. So a type keeps fitting a union that is given more members, and a union that loses members keeps fitting
   (`test_union_mono`).
-/

namespace MixinTypes

variable {w : World} {s t : Ty} {ts us : List Ty}

/-- What is no union itself may be used for a union only for the sake of one of its members. -/
theorem Assignable.exists_mem (h : Assignable w s (.union ts)) (hs : ¬ s.IsUnion) :
    s = .any ∨ ∃ t ∈ ts, Assignable w s t := by
  cases h with
  | anySource => exact .inl rfl
  | refl => exact absurd trivial hs
  | unionSource => exact absurd trivial hs
  | unionDest _ mem one => exact .inr ⟨_, mem, one⟩
  | interSource notUnion => exact absurd trivial notUnion

/-- What may be used for a member of a union may be used for the union. -/
theorem Assignable.union_of_mem (h : Assignable w s t) (ht : t ∈ ts) : Assignable w s (.union ts) := by
  induction s using Ty.induction generalizing t ts with
  | union ss ih =>
    refine .unionSource fun u hu => ?_
    cases h with
    | anyDest => exact ih u hu .anyDest ht
    | refl =>
      -- the source is the member, so its own members come first
      have member : Assignable w u (.union ss) := ih u hu .refl hu
      exact ih u hu member ht
    | unionSource each => exact ih u hu (each u hu) ht
    | unionDest source => exact absurd trivial source
    | interDest source => exact absurd trivial source
  | _ => exact .unionDest (fun h => h) ht h

/-- A union may be used exactly where each of its members may. -/
theorem assignable_union_iff : Assignable w (.union us) t ↔ ∀ u ∈ us, Assignable w u t := by
  constructor
  · intro h u hu
    cases h with
    | anyDest => exact .anyDest
    | refl => exact .union_of_mem .refl hu
    | unionSource each => exact each u hu
    | unionDest source => exact absurd trivial source
    | interDest source => exact absurd trivial source
  · exact .unionSource

/-- A union that loses members may be used where it could. -/
theorem Assignable.of_subset (h : Assignable w (.union us) t) (hsub : ts ⊆ us) :
    Assignable w (.union ts) t :=
  assignable_union_iff.mpr fun u hu => assignable_union_iff.mp h u (hsub hu)

/-- What may be used for a union may be used for one with more members. -/
theorem Assignable.union_mono (h : Assignable w s (.union ts)) (hsub : ts ⊆ us) :
    Assignable w s (.union us) := by
  induction s using Ty.induction with
  | union ss ih =>
    rw [assignable_union_iff] at h ⊢
    exact fun u hu => ih u hu (h u hu)
  | _ =>
    rcases h.exists_mem (fun h => h) with hany | ⟨t, ht, one⟩
    · rw [hany]
      exact .anySource
    · exact one.union_of_mem (hsub ht)

namespace World

/-- At any times in sessions, for all types: a type that is assignable to a union is assignable to every union
with its members and more, and every union of some of its members is assignable to what a union is assignable
to. So only the members count, not their order nor how often they are there, and every member of a union is
assignable to it. -/
theorem test_union_mono (w : World) (before after : List Query) :
    (∀ src ts us, ts ⊆ us → (w.test src (.union ts) (w.inquiry before)).1 = true →
        (w.test src (.union us) (w.inquiry after)).1 = true) ∧
      (∀ ts us dest, ts ⊆ us → (w.test (.union us) dest (w.inquiry before)).1 = true →
        (w.test (.union ts) dest (w.inquiry after)).1 = true) ∧
      (∀ src ts us, (∀ t, t ∈ ts ↔ t ∈ us) →
        (w.test src (.union ts) (w.inquiry before)).1 = (w.test src (.union us) (w.inquiry after)).1) ∧
      (∀ ts us dest, (∀ t, t ∈ ts ↔ t ∈ us) →
        (w.test (.union ts) dest (w.inquiry before)).1 = (w.test (.union us) dest (w.inquiry after)).1) ∧
      ∀ ts, ∀ t ∈ ts, (w.test t (.union ts) (w.inquiry before)).1 = true := by
  have holds : ∀ history src dest, (w.test src dest (w.inquiry history)).1 = true ↔ Assignable w src dest :=
    fun history _ _ => test_iff (idle_inquiry history) (asking_inquiry history)
  simp only [Bool.eq_iff_iff, holds]
  refine ⟨fun src ts us hsub h => h.union_mono hsub, fun ts us dest hsub h => h.of_subset hsub,
    fun src ts us hsame => ?_, fun ts us dest hsame => ?_, fun ts t ht => .union_of_mem .refl ht⟩
  · have hts : ts ⊆ us := fun t ht => (hsame t).mp ht
    have hus : us ⊆ ts := fun t ht => (hsame t).mpr ht
    exact ⟨fun h => h.union_mono hts, fun h => h.union_mono hus⟩
  · have hts : ts ⊆ us := fun t ht => (hsame t).mp ht
    have hus : us ⊆ ts := fun t ht => (hsame t).mpr ht
    exact ⟨fun h => h.of_subset hus, fun h => h.of_subset hts⟩

end World

end MixinTypes
