import MixinTypes.Proofs.Assignability.SelfType
import MixinTypes.Proofs.Assignability.Unions

/-!
# Members of intersections

What is expected is taken apart before the intersection that is given. An intersection that is expected does no
harm: its conjuncts are looked at one by one, and each is among those of the intersection. But for a union that
is expected a single one of its members has to do, and then no member of the intersection is compared with the
union as a whole.

So an intersection is assignable to one of its members when no conjunct of that member is a union, and in
general exactly when for each such union it is assignable to one member of it (`test_inter_member_iff`).
-/

namespace MixinTypes

variable {w : World} {p : Path} {s t u : Ty} {ts us args : List Ty}

namespace Ty

theorem Conjunct.sizeOf_le (h : u.Conjunct t) : sizeOf u ≤ sizeOf t := by
  induction h with
  | refl => exact Nat.le_refl _
  | @inter t ts mem _ ih =>
    have hlt : sizeOf t < sizeOf ts := List.sizeOf_lt_of_mem mem
    rw [inter.sizeOf_spec]
    omega

/-- An intersection is not inside one of its members. -/
theorem not_conjunct_of_mem (ht : t ∈ ts) : ¬ (Ty.inter ts).Conjunct t := by
  intro h
  have hle := h.sizeOf_le
  have hlt := List.sizeOf_lt_of_mem ht
  rw [inter.sizeOf_spec] at hle
  omega

end Ty

/-- What may be used for a type may be used for its conjuncts, unless it is the type itself that is taken
apart. -/
theorem Assignable.conjunct (h : Assignable w s t) (hs : ¬ s.IsUnion) (hst : ¬ s.Conjunct t)
    (hu : u.Conjunct t) : Assignable w s u := by
  induction hu with
  | refl => exact h
  | @inter t ts mem _ ih =>
    cases h with
    | anySource => exact .anySource
    | refl => exact absurd .refl hst
    | unionSource => exact absurd trivial hs
    | interDest _ each => exact ih (each t mem) fun hst' => hst (.inter mem hst')
    | interSource _ notInter => exact absurd trivial notInter

/-- An intersection may be used for instances of a declaration only for the sake of one of its members. -/
theorem Assignable.exists_mem_inter (h : Assignable w (.inter ts) (.ofPath p args)) :
    ∃ t ∈ ts, Assignable w t (.ofPath p args) := by
  cases h with
  | interSource _ _ mem one => exact ⟨_, mem, one⟩

/-- An intersection may be used for the conjuncts of its members, as far as the unions among them allow. -/
theorem assignable_inter_of_conjunct (ht : t ∈ ts)
    (hunions : ∀ us, (Ty.union us).Conjunct t → ∃ u ∈ us, Assignable w (.inter ts) u)
    (hu : u.Conjunct t) : Assignable w (.inter ts) u := by
  induction u using Ty.induction with
  | union us =>
    obtain ⟨v, hv, one⟩ := hunions us hu
    exact .unionDest (fun h => h) hv one
  | inter us ih =>
    exact .interDest (fun h => h) fun v hv => ih v hv ((Ty.Conjunct.inter hv .refl).trans hu)
  | _ => exact .of_conjunct (.inter ht hu) (fun h => h) (fun h => h) .refl

namespace World

/-- At any time in a session, an intersection is tested to be assignable to one of its members exactly when, for
each union that the member is or has among its conjuncts, it is assignable to a member of that union. So it is
assignable to every member that has no union among its conjuncts, whatever else the member is. -/
theorem test_inter_member_iff (w : World) (history : List Query) (ts : List Ty) (t : Ty) (ht : t ∈ ts) :
    (w.test (.inter ts) t (w.inquiry history)).1 = true ↔
      ∀ us, (Ty.union us).Conjunct t →
        ∃ u ∈ us, (w.test (.inter ts) u (w.inquiry history)).1 = true := by
  simp only [test_iff (idle_inquiry history) (asking_inquiry history)]
  have notUnion : ¬ (Ty.inter ts).IsUnion := fun h => h
  constructor
  · intro h us hus
    have hunion := h.conjunct notUnion (Ty.not_conjunct_of_mem ht) hus
    exact (hunion.exists_mem notUnion).resolve_left fun h => nomatch h
  · exact fun hunions => assignable_inter_of_conjunct ht hunions .refl

/-- Three classes that have nothing to do with each other. -/
def apart : World where
  decls := (Declarations.empty.addAll
    [.constant ⟨⟨["BasicObject"], true⟩, [], [], .nowhere, .cls none⟩,
     .constant ⟨⟨["Object"], true⟩, [], [], .nowhere, .cls (some ⟨⟨["BasicObject"], true⟩, []⟩)⟩,
     .constant ⟨⟨["Foo"], true⟩, [], [], .nowhere, .cls none⟩,
     .constant ⟨⟨["Bar"], true⟩, [], [], .nowhere, .cls none⟩,
     .constant ⟨⟨["Baz"], true⟩, [], [], .nowhere, .cls none⟩]).1
  roots := .standard

/-- An intersection of a union and one member of the union is assignable to the union. -/
theorem test_inter_member_apart :
    let foo : Ty := .ofPath ⟨["Foo"], true⟩ []
    let either : Ty := .union [foo, .ofPath ⟨["Bar"], true⟩ []]
    either ∈ [either, foo] ∧ (apart.test (.inter [either, foo]) either (apart.inquiry [])).1 = true := by
  intro foo either
  have hmem : either ∈ [either, foo] := List.mem_cons_self ..
  refine ⟨hmem, (test_inter_member_iff apart [] _ either hmem).mpr fun us hus => ?_⟩
  obtain rfl : us = [foo, .ofPath ⟨["Bar"], true⟩ []] := by
    unfold either at hus
    cases hus
    rfl
  refine ⟨foo, List.mem_cons_self .., ?_⟩
  rw [test_iff (idle_inquiry []) (asking_inquiry [])]
  exact .interSource (fun h => h) (fun h => h) (List.mem_cons_of_mem _ (List.mem_singleton_self _)) .refl

/-- None of the classes is assignable to another one. -/
theorem not_assignable_apart : ∀ p ∈ ["Foo", "Bar", "Baz"], ∀ q ∈ ["Foo", "Bar", "Baz"], p ≠ q →
    ¬ Assignable apart (.ofPath ⟨[p], true⟩ []) (.ofPath ⟨[q], true⟩ []) := by
  have supers : ∀ p ∈ ["Foo", "Bar", "Baz"],
      (apart.interfaceOf none ⟨.instances, ⟨[p], true⟩⟩ (.empty apart)).1.toOption.map Interface.supers =
        some [] := by
    decide +kernel
  have foreign : ∀ p ∈ ["Foo", "Bar", "Baz"], ∀ q ∈ ["Foo", "Bar", "Baz"], p ≠ q →
      (⟨[q], true⟩ : Path) ∉ apart.ancestors ⟨[p], true⟩ := by
    decide +kernel
  intro p hp q hq hne
  refine not_assignable_of_foreign (supers p hp) (fun h => hne ?_) (foreign p hp q hq hne)
  exact List.singleton_inj.mp (congrArg Path.segments h)

/-- The third class and a union together are assignable to no other class that is not all of the union. -/
theorem not_assignable_inter_apart {p q : String} (hp : p ∈ ["Foo", "Bar", "Baz"])
    (hq : q ∈ ["Foo", "Bar", "Baz"]) (hqp : q ≠ p) (hbaz : "Baz" ≠ p)
    (hqs : .ofPath ⟨[q], true⟩ [] ∈ us) :
    ¬ Assignable apart (.inter [.union us, .ofPath ⟨["Baz"], true⟩ []]) (.ofPath ⟨[p], true⟩ []) := by
  intro h
  obtain ⟨t, ht, one⟩ := h.exists_mem_inter
  rcases List.mem_cons.mp ht with rfl | ht
  · exact not_assignable_apart q hq p hp hqp (assignable_union_iff.mp one _ hqs)
  · obtain rfl := List.mem_singleton.mp ht
    exact not_assignable_apart "Baz" (by decide) p hp hbaz one

/-- An intersection is not assignable to each of its members: not to a union when no other member of the
intersection is assignable to one of the union. -/
theorem not_test_inter_member_apart :
    let either : Ty := .union [.ofPath ⟨["Foo"], true⟩ [], .ofPath ⟨["Bar"], true⟩ []]
    let members : List Ty := [either, .ofPath ⟨["Baz"], true⟩ []]
    either ∈ members ∧ (apart.test (.inter members) either (apart.inquiry [])).1 = false := by
  intro either members
  refine ⟨List.mem_cons_self .., ?_⟩
  rw [← Bool.not_eq_true, test_iff (idle_inquiry []) (asking_inquiry [])]
  intro h
  obtain ⟨u, hu, h⟩ := (h.exists_mem fun h => h).resolve_left fun h => nomatch h
  -- for either class of the union, the other one and the third are in the way
  rcases List.mem_cons.mp hu with rfl | hu
  · exact not_assignable_inter_apart (q := "Bar") (by decide) (by decide) (by decide) (by decide)
      (List.mem_cons_of_mem _ (List.mem_singleton_self _)) h
  · obtain rfl := List.mem_singleton.mp hu
    exact not_assignable_inter_apart (q := "Foo") (by decide) (by decide) (by decide) (by decide)
      (List.mem_cons_self ..) h

end World

end MixinTypes
