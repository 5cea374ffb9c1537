import MixinTypes.World.Basic

/-!
# Ancestry

The declarations that a class or module builds on: itself, then everything reached through
superclasses and included modules. A parent that does not resolve is skipped, and a cycle is
walked once.
-/

namespace MixinTypes.World

/-- The declarations that the one at `p` builds on directly: its superclass, then its includes. -/
def parents (w : World) (p : Path) : List Path :=
  match w.decls.constantAt? p with
  | none => []
  | some c =>
    ((w.base? c).toList ++ c.includes).filterMap fun a =>
      (w.decls.resolve? (some c.path) a.path).map Constant.path

/-- A path that is not declared has no parents. -/
theorem parents_eq_nil {w : World} {p : Path} (h : w.decls.constantAt? p = none) : w.parents p = [] := by
  simp only [parents, h]

/-- The parents are what the superclass and the includes denote. -/
theorem mem_parents_iff {w : World} {p q : Path} {c : Constant} (hc : w.decls.constantAt? p = some c) :
    q ∈ w.parents p ↔ ∃ a ∈ (w.base? c).toList ++ c.includes, ∃ d,
      w.decls.resolve? (some c.path) a.path = some d ∧ d.path = q := by
  simp only [parents, hc, List.mem_filterMap, Option.map_eq_some_iff]

theorem exists_constantAt?_of_mem_parents {w : World} {p q : Path} (h : q ∈ w.parents p) :
    ∃ c, w.decls.constantAt? p = some c := by
  cases hc : w.decls.constantAt? p with
  | some c => exact ⟨c, rfl⟩
  | none =>
    rw [parents_eq_nil hc] at h
    cases h

theorem absolute_of_mem_parents {w : World} {p q : Path} (h : q ∈ w.parents p) :
    q.absolute = true := by
  obtain ⟨c, hc⟩ := exists_constantAt?_of_mem_parents h
  obtain ⟨a, -, d, hd, rfl⟩ := (mem_parents_iff hc).mp h
  exact w.decls.constants_absolute d (Declarations.mem_of_resolve? hd)

/-- What is still to be done for the constants of a list that are not in `seen`: one visit each, and
one for each of their parents. -/
def pending (w : World) (seen : List Path) : List Constant → Nat
  | [] => 0
  | c :: cs => (if c.path ∈ seen then 0 else (w.parents c.path).length + 1) + w.pending seen cs

theorem pending_append_le (w : World) (seen : List Path) (p : Path) (cs : List Constant) :
    w.pending (seen ++ [p]) cs ≤ w.pending seen cs := by
  induction cs with
  | nil => exact Nat.le_refl _
  | cons c cs ih =>
    simp only [pending, List.mem_append, List.mem_singleton]
    by_cases hs : c.path ∈ seen
    · simpa [hs] using ih
    · by_cases hp : c.path = p
      · simp only [hp, or_true, if_true]; omega
      · simp only [hs, hp, or_self, if_false]; omega

/-- Visiting a new path takes its share off what is to be done. -/
theorem pending_append_lt {w : World} {seen : List Path} {c : Constant} {cs : List Constant}
    (hc : c ∈ cs) (hs : c.path ∉ seen) :
    w.pending (seen ++ [c.path]) cs + (w.parents c.path).length < w.pending seen cs := by
  induction cs with
  | nil => simp at hc
  | cons d cs ih =>
    simp only [pending, List.mem_append, List.mem_singleton]
    by_cases hd : d.path = c.path
    · have := w.pending_append_le seen c.path cs
      simp only [hd, hs, or_true, if_true, if_false]
      omega
    · have hc : c ∈ cs := (List.mem_cons.mp hc).resolve_left fun e => hd (e ▸ rfl)
      have := ih hc
      simp only [hd, or_false]
      omega

/-- The same for a path that need not be declared, and then has no share. -/
theorem pending_append_visit (w : World) {seen : List Path} {p : Path} (hs : p ∉ seen) :
    w.pending (seen ++ [p]) w.decls.constants + (w.parents p).length ≤
      w.pending seen w.decls.constants := by
  cases hc : w.decls.constantAt? p with
  | none =>
    rw [parents_eq_nil hc, List.length_nil, Nat.add_zero]
    exact w.pending_append_le seen p _
  | some c =>
    obtain rfl := Declarations.path_of_constantAt? hc
    exact Nat.le_of_lt (pending_append_lt (Declarations.mem_of_constantAt? hc) hs)

/-- Visit the declarations on a stack, and all that they build on, that are not in `seen`. -/
def visit (w : World) (seen : List Path) : List Path → List Path
  | [] => seen
  | p :: stack =>
    if p ∈ seen then w.visit seen stack
    else w.visit (seen ++ [p]) ((w.parents p).reverse ++ stack)
termination_by stack => w.pending seen w.decls.constants + stack.length
decreasing_by
  · simp only [List.length_cons]; omega
  · next hs =>
    have := w.pending_append_visit hs
    simp only [List.length_append, List.length_reverse, List.length_cons]
    omega

/-- The declaration at `p` and all that it builds on, each once; later parents come before earlier
ones. -/
def ancestors (w : World) (p : Path) : List Path := w.visit [] [p.toAbsolute]

end MixinTypes.World
