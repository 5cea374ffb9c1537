import MixinTypes.Assignable.Relation

/-!
# Derivations

A question is derivable when what it comes down to is, by finitely many steps. `Derivable w cut g`
allows only derivations in which no question of `cut` comes up: the search cuts those off that are in
progress.

1. The question at the end of a derivation need not come up above itself: a derivation of `g` holds a
   last use of `g`, and what stands above that one has none (`derivable_iff_cons`). This is why the
   search loses nothing when it takes a question that comes up below itself to fail.
2. Without anything cut, the derivable questions are those for which the relation `Assignable` holds
   (`derivable_nil_iff`): each of its rules is the rule that applies, and the other way around.
-/

namespace MixinTypes

/-- What a reduced question `g` needs in order to hold, when `P` says which questions do. -/
def Reduction.Holds (w : World) (P : Goal → Prop) (g : Goal) : Reduction → Prop
  | .decided holds => holds = true
  | .all goals => ∀ h ∈ goals, P h
  | .any goals => ∃ h ∈ goals, P h
  | .supers n => ∃ i, Built w n.toAbsolute i ∧ ∃ t ∈ i.supers, t ≠ g.1 ∧ P (t, g.2)
  | .methods required provided =>
    ∃ i j, Built w required.toAbsolute i ∧ Built w provided.toAbsolute j ∧
      ∀ name ∈ i.methods.keys, name ∈ j.methods.keys

namespace World

/-- The question holds by the rule that applies to it, when `P` says which questions hold. -/
def Follows (w : World) (P : Goal → Prop) (g : Goal) : Prop := (w.reduce g.1 g.2).Holds w P g

theorem Follows.mono {w : World} {P Q : Goal → Prop} {g : Goal} (h : w.Follows P g)
    (hPQ : ∀ k, P k → Q k) : w.Follows Q g := by
  unfold Follows at h ⊢
  cases hr : w.reduce g.1 g.2 with
  | decided holds => rw [hr] at h; exact h
  | all goals => rw [hr] at h; exact fun k hk => hPQ k (h k hk)
  | any goals =>
    rw [hr] at h
    obtain ⟨k, hk, hP⟩ := h
    exact ⟨k, hk, hPQ k hP⟩
  | supers n =>
    rw [hr] at h
    obtain ⟨i, hi, t, ht, hne, hP⟩ := h
    exact ⟨i, hi, t, ht, hne, hPQ _ hP⟩
  | methods required provided => rw [hr] at h; exact h

end World

/-- There is a derivation of the question in which no question of `cut` comes up. -/
inductive Derivable (w : World) (cut : List Goal) : Goal → Prop where
  | intro {g : Goal} (P : Goal → Prop) (above : ∀ k, P k → Derivable w cut k) (fresh : g ∉ cut)
      (follows : w.Follows P g) : Derivable w cut g

namespace Derivable

variable {w : World} {cut : List Goal} {g k : Goal}

theorem mono {cut' : List Goal} (h : Derivable w cut k) (hsub : ∀ x ∈ cut', x ∈ cut) :
    Derivable w cut' k := by
  induction h with
  | intro P _ fresh follows ih => exact .intro P ih (fun hk => fresh (hsub _ hk)) follows

/-- Either `g` does not come up in the derivation of another question, or there is a derivation of `g`
in which it does not come up again. -/
theorem cons_or_follows (h : Derivable w cut k) (g : Goal) :
    Derivable w (g :: cut) k ∨ w.Follows (Derivable w (g :: cut)) g := by
  induction h with
  | @intro k P above fresh follows ih =>
    by_cases hg : w.Follows (Derivable w (g :: cut)) g
    · exact .inr hg
    · have hP : ∀ x, P x → Derivable w (g :: cut) x := fun x hx => (ih x hx).resolve_right hg
      by_cases hk : k = g
      · subst hk
        exact .inr (follows.mono hP)
      · refine .inl (.intro P hP ?_ follows)
        intro hmem
        rcases List.mem_cons.mp hmem with rfl | hmem
        · exact hk rfl
        · exact fresh hmem

end Derivable

section Cut

variable {w : World} {cut : List Goal} {g : Goal}

/-- A derivable question is derivable without coming up above itself. -/
theorem derivable_iff_cons :
    Derivable w cut g ↔ g ∉ cut ∧ w.Follows (Derivable w (g :: cut)) g := by
  constructor
  · intro h
    have fresh : g ∉ cut := by
      cases h with
      | intro _ _ fresh _ => exact fresh
    rcases h.cons_or_follows g with h | h
    · cases h with
      | intro _ _ again _ => exact absurd (List.mem_cons_self ..) again
    · exact ⟨fresh, h⟩
  · rintro ⟨fresh, h⟩
    exact .intro _ (fun k hk => hk.mono fun x hx => List.mem_cons_of_mem _ hx) fresh h

end Cut

/-! ## The rules of the relation -/

section Rules

variable {w : World} {src dest : Ty}

theorem Assignable.of_trivial (h : src = .any ∨ dest = .any ∨ src = dest) :
    Assignable w src dest := by
  rcases h with rfl | rfl | rfl
  · exact .anySource
  · exact .anyDest
  · exact .refl

/-- Two names that are akin are compared by one of the three rules for them. -/
theorem Assignable.of_holds_reduceKin {n m : Nominal} {args params : List Ty}
    (akin : n.facet.Akin m.facet)
    (h : (w.reduceKin n args m params).Holds w (fun g => Assignable w g.1 g.2)
      (.named n args, .named m params)) :
    Assignable w (.named n args) (.named m params) := by
  unfold World.reduceKin at h
  split at h
  · next same =>
    split at h
    · next length =>
      refine .sameDeclaration akin same length (fun p hp => ?_) (fun p hp => ?_)
      · exact h (p.1, p.2) (List.mem_flatMap.mpr ⟨p, hp, by simp⟩)
      · exact h (p.2, p.1) (List.mem_flatMap.mpr ⟨p, hp, by simp⟩)
    · cases h
  · next other =>
    split at h
    · next mem => exact .ancestor akin other mem
    · next foreign =>
      obtain ⟨i, built, t, mem, proper, one⟩ := h
      exact .furtherType akin other foreign built mem proper one

theorem Assignable.of_holds_reduceNamed {n m : Nominal} {args params : List Ty}
    (h : (w.reduceNamed n args m params).Holds w (fun g => Assignable w g.1 g.2)
      (.named n args, .named m params)) :
    Assignable w (.named n args) (.named m params) := by
  obtain ⟨f, p⟩ := n
  obtain ⟨f', q⟩ := m
  unfold World.reduceNamed at h
  split at h
  · next target =>
    obtain ⟨i, j, builtRequired, builtProvided, methods⟩ := h
    exact .protocol target builtRequired builtProvided methods
  · next source target => exact .moduleObject source target (of_decide_eq_true h)
  · next source target =>
    obtain rfl : f = .instances := source
    obtain rfl : f' = .instances := target
    exact .of_holds_reduceKin .instances h
  · next source target =>
    obtain rfl := source
    obtain rfl := target
    exact .of_holds_reduceKin .classObjects h
  · cases h

/-- The rule that applies is one of the rules of the relation. -/
theorem Assignable.of_follows (h : w.Follows (fun g => Assignable w g.1 g.2) (src, dest)) :
    Assignable w src dest := by
  by_cases ht : src = .any ∨ dest = .any ∨ src = dest
  · exact .of_trivial ht
  · unfold World.Follows World.reduce at h
    rw [if_neg ht] at h
    dsimp only at h
    split at h
    · next ts => exact .unionSource fun t hmem => h (t, dest) (List.mem_map_of_mem hmem)
    · next ts hs =>
      obtain ⟨g, hg, one⟩ := h
      obtain ⟨t, mem, rfl⟩ := List.mem_map.mp hg
      exact .unionDest (Ty.not_isUnion hs) mem one
    · next ts hs =>
      exact .interDest (Ty.not_isUnion hs) fun t hmem => h (src, t) (List.mem_map_of_mem hmem)
    · next ts hu hi =>
      obtain ⟨g, hg, one⟩ := h
      obtain ⟨t, mem, rfl⟩ := List.mem_map.mp hg
      exact .interSource (Ty.not_isUnion hu) (Ty.not_isInter hi) mem one
    · exact .of_holds_reduceNamed h
    · cases h

/-- Every rule of the relation is the rule that applies, unless the question is trivial. -/
theorem Assignable.derivable (h : Assignable w src dest) : Derivable w [] (src, dest) := by
  have of_holds : ∀ {s t : Ty}, (¬ (s = .any ∨ t = .any ∨ s = t) →
      (w.reduce s t).Holds w (Derivable w []) (s, t)) → Derivable w [] (s, t) := by
    intro s t h
    refine .intro (Derivable w []) (fun _ hk => hk) List.not_mem_nil ?_
    by_cases ht : s = .any ∨ t = .any ∨ s = t
    · show (w.reduce s t).Holds w _ _
      rw [World.reduce_of_trivial ht]
      rfl
    · exact h ht
  induction h with
  | anySource => exact of_holds fun ht => absurd (.inl rfl) ht
  | anyDest => exact of_holds fun ht => absurd (.inr (.inl rfl)) ht
  | refl => exact of_holds fun ht => absurd (.inr (.inr rfl)) ht
  | unionSource _ ih =>
    refine of_holds fun ht => ?_
    rw [World.reduce_unionSource ht]
    exact List.forall_mem_map.mpr ih
  | unionDest source mem _ ih =>
    refine of_holds fun ht => ?_
    rw [World.reduce_unionDest ht source]
    exact ⟨_, List.mem_map_of_mem mem, ih⟩
  | interDest source _ ih =>
    refine of_holds fun ht => ?_
    rw [World.reduce_interDest ht source]
    exact List.forall_mem_map.mpr ih
  | interSource notUnion notInter mem _ ih =>
    refine of_holds fun ht => ?_
    rw [World.reduce_interSource ht notUnion notInter]
    exact ⟨_, List.mem_map_of_mem mem, ih⟩
  | sameDeclaration akin same length _ _ ihForth ihBack =>
    refine of_holds fun ht => ?_
    rw [World.reduce_named ht, World.reduceNamed_of_akin akin, World.reduceKin, if_pos same,
      if_pos length]
    intro g hg
    obtain ⟨p, hp, hg⟩ := List.mem_flatMap.mp hg
    rcases List.mem_cons.mp hg with rfl | hg
    · exact ihForth p hp
    · obtain rfl := List.mem_singleton.mp hg
      exact ihBack p hp
  | ancestor akin other mem =>
    refine of_holds fun ht => ?_
    rw [World.reduce_named ht, World.reduceNamed_of_akin akin, World.reduceKin, if_neg other,
      if_pos mem]
    rfl
  | furtherType akin other foreign built mem proper _ ih =>
    refine of_holds fun ht => ?_
    rw [World.reduce_named ht, World.reduceNamed_of_akin akin, World.reduceKin, if_neg other,
      if_neg foreign]
    exact ⟨_, built, _, mem, proper, ih⟩
  | protocol target builtRequired builtProvided methods =>
    refine of_holds fun ht => ?_
    rw [World.reduce_named ht, World.reduceNamed_of_protocol target]
    exact ⟨_, _, builtRequired, builtProvided, methods⟩
  | @moduleObject n m args params source target same =>
    refine of_holds fun ht => ?_
    rw [World.reduce_named ht, World.reduceNamed_of_moduleObject source target]
    exact decide_eq_true same

theorem derivable_nil_iff : Derivable w [] (src, dest) ↔ Assignable w src dest := by
  constructor
  · intro h
    generalize hg : (src, dest) = g at h
    induction h generalizing src dest with
    | intro P _ _ follows ih =>
      subst hg
      exact .of_follows (follows.mono fun k hk => ih k hk rfl)
  · exact Assignable.derivable

end Rules

end MixinTypes
