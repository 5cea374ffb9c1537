import MixinTypes.Ty.Basic

/-!
# Parts of types

`children` are the types directly inside a type, `parts` the type itself and everything inside it.
-/

namespace MixinTypes.Ty

/-- The types directly inside a type. -/
def children : Ty → List Ty
  | .named _ ts | .union ts | .inter ts => ts
  | _ => []

mutual

/-- A type and everything inside it. -/
def parts : Ty → List Ty
  | .named n ts => .named n ts :: partsList ts
  | .union ts => .union ts :: partsList ts
  | .inter ts => .inter ts :: partsList ts
  | .any => [.any]
  | .var name => [.var name]
  | .self => [.self]
  | .inst => [.inst]
  | .cls => [.cls]

/-- The types of a list and everything inside them. -/
def partsList : List Ty → List Ty
  | [] => []
  | t :: ts => parts t ++ partsList ts

end

@[simp] theorem partsList_eq (ts : List Ty) : partsList ts = ts.flatMap parts := by
  induction ts with
  | nil => rfl
  | cons t ts ih => simp [partsList, ih]

theorem parts_eq (t : Ty) : t.parts = t :: t.children.flatMap parts := by
  cases t <;> simp [parts, children]

theorem self_mem_parts (t : Ty) : t ∈ t.parts := by
  rw [parts_eq]; exact List.mem_cons_self ..

theorem mem_parts_trans {s t u : Ty} (h : s ∈ t.parts) (hu : t ∈ u.parts) : s ∈ u.parts := by
  have step : ∀ u : Ty, (∀ c ∈ u.children, t ∈ c.parts → s ∈ c.parts) →
      t ∈ u.parts → s ∈ u.parts := by
    intro u ih hu
    rw [parts_eq] at hu
    rcases List.mem_cons.mp hu with rfl | hu
    · exact h
    · obtain ⟨c, hc, htc⟩ := List.mem_flatMap.mp hu
      rw [parts_eq]
      exact List.mem_cons_of_mem _ (List.mem_flatMap.mpr ⟨c, hc, ih c hc htc⟩)
  induction u using Ty.induction with
  | named n ts ih => exact step _ ih hu
  | union ts ih => exact step _ ih hu
  | inter ts ih => exact step _ ih hu
  | _ => exact step _ (by simp [children]) hu

theorem mem_parts_of_mem_children {s t : Ty} (h : s ∈ t.children) : s ∈ t.parts := by
  rw [parts_eq]
  exact List.mem_cons_of_mem _ (List.mem_flatMap.mpr ⟨s, h, self_mem_parts s⟩)

end MixinTypes.Ty
