import Mathlib.Logic.Relation
import MixinTypes.World.Ancestry

/-!
# What the ancestors are

The ancestors of a declaration are the declarations reached from it by going from a declaration to its
parents any number of times (`mem_ancestors_iff`), whatever diamonds and cycles there are on the way.
`Explores` is the invariant of the search: what has been met was reached, and the parents of what has
been visited are visited or wait on the stack.
-/

namespace MixinTypes.World

/-- `q` is `p` or is reached from it through parents. -/
abbrev Inherits (w : World) : Path → Path → Prop :=
  Relation.ReflTransGen fun p q => q ∈ w.parents p

/-- A search from `p` has visited `seen` and still has `stack` to look at. -/
structure Explores (w : World) (p : Path) (seen stack : List Path) : Prop where
  reached : ∀ q, q ∈ seen ∨ q ∈ stack → w.Inherits p q
  start : p ∈ seen ∨ p ∈ stack
  closed : ∀ q ∈ seen, ∀ r ∈ w.parents q, r ∈ seen ∨ r ∈ stack

namespace Explores

variable {w : World} {p q : Path} {seen stack : List Path}

theorem init (w : World) (p : Path) : w.Explores p [] [p] where
  reached q hq := by
    rcases hq with hq | hq
    · cases hq
    · rw [List.mem_singleton.mp hq]
  start := .inr (List.mem_singleton_self p)
  closed _ hq := nomatch hq

/-- A path that has been visited is taken off the stack. -/
theorem skip (h : w.Explores p seen (q :: stack)) (hq : q ∈ seen) : w.Explores p seen stack := by
  have rest : ∀ {r}, r ∈ seen ∨ r ∈ q :: stack → r ∈ seen ∨ r ∈ stack := by
    rintro r (hr | hr)
    · exact .inl hr
    · rcases List.mem_cons.mp hr with rfl | hr
      · exact .inl hq
      · exact .inr hr
  exact ⟨fun r hr => h.reached r (hr.imp_right (List.mem_cons_of_mem q)), rest h.start,
    fun r hr s hs => rest (h.closed r hr s hs)⟩

/-- Any other path is visited, and its parents are put on the stack. -/
theorem visit (h : w.Explores p seen (q :: stack)) :
    w.Explores p (seen ++ [q]) ((w.parents q).reverse ++ stack) := by
  have hq : w.Inherits p q := h.reached q (.inr (List.mem_cons_self ..))
  have rest : ∀ {r}, r ∈ seen ∨ r ∈ q :: stack →
      r ∈ seen ++ [q] ∨ r ∈ (w.parents q).reverse ++ stack := by
    rintro r (hr | hr)
    · exact .inl (List.mem_append_left _ hr)
    · rcases List.mem_cons.mp hr with rfl | hr
      · exact .inl (List.mem_append_right _ (List.mem_singleton_self r))
      · exact .inr (List.mem_append_right _ hr)
  refine ⟨?_, rest h.start, ?_⟩
  · rintro r (hr | hr)
    · rcases List.mem_append.mp hr with hr | hr
      · exact h.reached r (.inl hr)
      · rw [List.mem_singleton.mp hr]
        exact hq
    · rcases List.mem_append.mp hr with hr | hr
      · exact hq.tail (List.mem_reverse.mp hr)
      · exact h.reached r (.inr (List.mem_cons_of_mem q hr))
  · intro r hr s hs
    rcases List.mem_append.mp hr with hr | hr
    · exact rest (h.closed r hr s hs)
    · rw [List.mem_singleton.mp hr] at hs
      exact .inr (List.mem_append_left _ (List.mem_reverse.mpr hs))

/-- With an empty stack all that is reached has been visited. -/
theorem mem_seen_iff (h : w.Explores p seen []) : q ∈ seen ↔ w.Inherits p q := by
  have seen_of : ∀ {r}, r ∈ seen ∨ r ∈ ([] : List Path) → r ∈ seen :=
    fun hr => hr.resolve_right List.not_mem_nil
  constructor
  · exact fun hq => h.reached q (.inl hq)
  · intro hq
    induction hq with
    | refl => exact seen_of h.start
    | tail _ hstep ih => exact seen_of (h.closed _ ih _ hstep)

theorem mem_visit_iff (h : w.Explores p seen stack) : q ∈ w.visit seen stack ↔ w.Inherits p q := by
  induction seen, stack using visit.induct w with
  | case1 seen =>
    rw [World.visit]
    exact h.mem_seen_iff
  | case2 seen r stack hr ih =>
    rw [World.visit, if_pos hr]
    exact ih (h.skip hr)
  | case3 seen r stack hr ih =>
    rw [World.visit, if_neg hr]
    exact ih h.visit

end Explores

/-- The ancestors are what is reached through parents. -/
theorem mem_ancestors_iff {w : World} {p q : Path} :
    q ∈ w.ancestors p ↔ w.Inherits p.toAbsolute q :=
  (Explores.init w p.toAbsolute).mem_visit_iff

end MixinTypes.World
