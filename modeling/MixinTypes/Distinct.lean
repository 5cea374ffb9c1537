/-!
# Counting distinct members

`distinct` keeps one copy of each member of a list. Main statement: `length_distinct_lt`, a list
whose members are among those of another, but not all of them, has fewer distinct members.
-/

namespace MixinTypes

variable [DecidableEq α]

/-- One copy of each member. -/
def distinct : List α → List α
  | [] => []
  | x :: xs => if x ∈ xs then distinct xs else x :: distinct xs

@[simp] theorem mem_distinct {x : α} {xs : List α} : x ∈ distinct xs ↔ x ∈ xs := by
  induction xs with
  | nil => simp [distinct]
  | cons y ys ih =>
    simp only [distinct]
    split
    · next hy =>
      rw [ih, List.mem_cons]
      exact ⟨.inr, fun h => h.elim (fun e => e ▸ hy) id⟩
    · simp [ih]

theorem nodup_distinct (xs : List α) : (distinct xs).Nodup := by
  induction xs with
  | nil => simp [distinct]
  | cons y ys ih =>
    simp only [distinct]
    split
    · exact ih
    · next hy => exact List.nodup_cons.mpr ⟨by simpa using hy, ih⟩

theorem length_le_of_nodup_of_subset {xs ys : List α} (h : xs.Nodup) (hs : ∀ x ∈ xs, x ∈ ys) :
    xs.length ≤ ys.length := by
  induction xs generalizing ys with
  | nil => simp
  | cons x xs ih =>
    obtain ⟨hx, hn⟩ := List.nodup_cons.mp h
    have hmem : x ∈ ys := hs x (List.mem_cons_self ..)
    have : xs.length ≤ (ys.erase x).length := ih hn fun z hz =>
      (List.mem_erase_of_ne (by rintro rfl; exact hx hz)).mpr (hs z (List.mem_cons_of_mem _ hz))
    rw [List.length_erase_of_mem hmem] at this
    have := List.length_pos_of_mem hmem
    simp only [List.length_cons]
    omega

theorem length_distinct_lt {xs ys : List α} (hs : ∀ x ∈ xs, x ∈ ys) {y : α} (hy : y ∈ ys)
    (hn : y ∉ xs) : (distinct xs).length < (distinct ys).length := by
  have h : (y :: distinct xs).Nodup :=
    List.nodup_cons.mpr ⟨by simpa using hn, nodup_distinct xs⟩
  refine length_le_of_nodup_of_subset h fun z hz => ?_
  rw [mem_distinct]
  rcases List.mem_cons.mp hz with rfl | hz
  · exact hy
  · exact hs z (mem_distinct.mp hz)

end MixinTypes
