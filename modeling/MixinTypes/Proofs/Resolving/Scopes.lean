import MixinTypes.Decl.Lookup

/-!
# Scopes

A relative path that is written in a scope is read in every namespace around it: after all segments of the
scope, after all but the last, and so on down to none. The deepest reading that is declared counts. What it
leads to is found whatever its kind, so a look-up that asks for another kind fails there and does not turn to
the namespaces further out.

1. A search through `n, n - 1, …, 0` stops at the largest number where there is something to find
   (`findSome?_reverse_range_eq_some_iff`).
2. The namespaces around a scope are such a search (`resolve?_of_relative`), so it finds the declaration at the
   largest depth (`find_innermost`).
-/

namespace MixinTypes

/-- Going down from `n`, the largest number with a value decides. -/
theorem findSome?_reverse_range_eq_some_iff {α : Type} {f : Nat → Option α} {n : Nat} {a : α} :
    (List.range (n + 1)).reverse.findSome? f = some a ↔
      ∃ j ≤ n, f j = some a ∧ ∀ k ≤ n, j < k → f k = none := by
  induction n with
  | zero =>
    rw [List.range_one, List.reverse_singleton, List.findSome?_singleton]
    constructor
    · exact fun h => ⟨0, Nat.le_refl 0, h, fun k hk hlt => absurd hlt (Nat.not_lt_of_le hk)⟩
    · rintro ⟨j, hj, h, -⟩
      rwa [Nat.le_zero.mp hj] at h
  | succ n ih =>
    rw [List.range_succ, List.reverse_append, List.reverse_singleton, List.singleton_append,
      List.findSome?_cons]
    cases hf : f (n + 1) with
    | some b =>
      constructor
      · rintro h
        cases h
        exact ⟨n + 1, Nat.le_refl _, hf, fun k hk hlt => absurd hlt (Nat.not_lt_of_le hk)⟩
      · rintro ⟨j, hj, h, hbeyond⟩
        rcases Nat.eq_or_lt_of_le hj with rfl | hlt
        · rw [← h, hf]
        · rw [hbeyond (n + 1) (Nat.le_refl _) hlt] at hf
          cases hf
    | none =>
      rw [ih]
      constructor
      · rintro ⟨j, hj, h, hbeyond⟩
        refine ⟨j, Nat.le_succ_of_le hj, h, fun k hk hlt => ?_⟩
        rcases Nat.eq_or_lt_of_le hk with rfl | hk
        · exact hf
        · exact hbeyond k (Nat.le_of_lt_succ hk) hlt
      · rintro ⟨j, hj, h, hbeyond⟩
        rcases Nat.eq_or_lt_of_le hj with rfl | hlt
        · rw [hf] at h
          cases h
        · exact ⟨j, Nat.le_of_lt_succ hlt, h, fun k hk => hbeyond k (Nat.le_succ_of_le hk)⟩

namespace Declarations

variable {d : Declarations} {s p : Path}

/-- The constant is declared with these segments, counted from the root. -/
def Declares (d : Declarations) (segments : List String) (c : Constant) : Prop :=
  c ∈ d.constants ∧ c.path = ⟨segments, true⟩

theorem constantAt?_eq_none_iff {segments : List String} :
    d.constantAt? ⟨segments, true⟩ = none ↔ ∀ c, ¬ d.Declares segments c := by
  rw [Option.eq_none_iff_forall_ne_some]
  exact forall_congr' fun c => not_congr constantAt?_eq_some_iff

/-- A relative path is read after ever fewer segments of its scope. -/
theorem resolve?_of_relative (hp : p.absolute = false) :
    d.resolve? (some s) p = (List.range (s.segments.length + 1)).reverse.findSome? fun j =>
      d.constantAt? ⟨s.segments.take j ++ p.segments, true⟩ := by
  have hjoin : ∀ j, (⟨s.segments.take j, true⟩ : Path).join p = ⟨s.segments.take j ++ p.segments, true⟩ :=
    fun j => Path.join_of_relative _ hp
  simp only [resolve?, hp, Path.enclosing, List.findSome?_map, Function.comp_def, Path.toAbsolute_segments,
    Path.toAbsolute_absolute, hjoin]
  rfl

theorem resolve?_of_relative_eq_none_iff (hp : p.absolute = false) :
    d.resolve? (some s) p = none ↔
      ∀ j ≤ s.segments.length, ∀ c, ¬ d.Declares (s.segments.take j ++ p.segments) c := by
  rw [resolve?_of_relative hp, List.findSome?_eq_none_iff]
  simp only [List.mem_reverse, List.mem_range, Nat.lt_succ_iff, constantAt?_eq_none_iff]

/-- A relative path in a scope leads to the constant that is declared under the most segments of the scope,
followed by its own, and is not found exactly when there is none under any number of them. An absolute path,
and any path without a scope, leads to the constant that is declared under its own segments alone. A look-up
for a kind gives this constant when it has the kind, and otherwise fails, naming it. -/
theorem find_innermost (d : Declarations) :
    (∀ s p, p.absolute = false →
      (∀ c, d.find (some s) p = .ok c ↔ ∃ j ≤ s.segments.length,
        d.Declares (s.segments.take j ++ p.segments) c ∧
          ∀ k ≤ s.segments.length, j < k → ∀ c', ¬ d.Declares (s.segments.take k ++ p.segments) c') ∧
      ∀ e, d.find (some s) p = .error e ↔ e = .notFound p ∧
        ∀ j ≤ s.segments.length, ∀ c, ¬ d.Declares (s.segments.take j ++ p.segments) c) ∧
    (∀ scope p, p.absolute = true ∨ scope = none →
      (∀ c, d.find scope p = .ok c ↔ d.Declares p.segments c) ∧
      ∀ e, d.find scope p = .error e ↔ e = .notFound p ∧ ∀ c, ¬ d.Declares p.segments c) ∧
    ∀ kind scope p,
      (∀ c, d.findKind kind scope p = .ok c ↔ d.find scope p = .ok c ∧ c.body.kind = kind) ∧
      ∀ e, d.findKind kind scope p = .error e ↔ d.find scope p = .error e ∨
        ∃ c, d.find scope p = .ok c ∧ c.body.kind ≠ kind ∧ e = .kindMismatch c.path kind := by
  refine ⟨fun s p hp => ⟨fun c => ?_, fun e => ?_⟩, fun scope p h => ⟨fun c => ?_, fun e => ?_⟩,
    fun kind scope p => ⟨fun _ => findKind_eq_ok_iff, fun _ => findKind_eq_error_iff⟩⟩
  · rw [find_eq_ok_iff, resolve?_of_relative hp, findSome?_reverse_range_eq_some_iff]
    simp only [constantAt?_eq_none_iff, constantAt?_eq_some_iff, Declares]
  · rw [find_eq_error_iff, resolve?_of_relative_eq_none_iff hp]
  · rw [find_eq_ok_iff, resolve?_of_absolute_or_none h]
    exact constantAt?_eq_some_iff
  · rw [find_eq_error_iff, resolve?_of_absolute_or_none h]
    exact and_congr_right' constantAt?_eq_none_iff

end Declarations

end MixinTypes
