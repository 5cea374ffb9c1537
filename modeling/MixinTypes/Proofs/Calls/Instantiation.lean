import MixinTypes.Call.Matching

/-!
# Matching does not look at types

Callers are matched with parameters in which the types of the receiver have been put. Which argument fills
which parameter, and what is missing or left over, is the same as without them.

1. Replacing types keeps how many parameters of each kind there are, and the keywords in their order, so
   arguments are taken apart in the same way (`split_map`).
2. Parameters take the same entries out of a table of keywords and leave the same (`takeNamed_map`).
3. So the pairs are the same up to the types, which are replaced (`pairs_map`), whatever they are replaced
   with; `matching_subst` is the case of substitution.
-/

namespace MixinTypes.Formals

variable (g : Ty → Ty) (f : Formals) (args : List Node)

/-! ## Taking the arguments apart -/

theorem hasKeywords_map : (f.map g).hasKeywords = f.hasKeywords := by
  simp [hasKeywords, map, Table.isEmpty, Table.map]

theorem positional_map : (f.map g).positional = f.positional.map g :=
  (List.map_append ..).symm

theorem length_positional_map : (f.map g).positional.length = f.positional.length := by
  rw [positional_map, List.length_map]

theorem named_map : (f.map g).named = f.named.map fun p => (p.1, g p.2) :=
  (List.map_append ..).symm

theorem declares_map (name : String) : (f.map g).declares name = f.declares name := by
  simp [declares, map, Table.contains]

theorem split_map : (f.map g).split args = f.split args := by
  unfold split
  rw [hasKeywords_map]

theorem passed_map : (f.map g).passed args = f.passed args := by
  rw [passed, passed, split_map]

/-! ## What is missing and what is left over -/

theorem missing_map : (f.map g).missing args = f.missing args := by
  have hlength : (f.map g).required.length = f.required.length := List.length_map ..
  simp only [missing, split_map, hlength]

theorem extra_map : (f.map g).extra args = f.extra args := by
  have hrest : (f.map g).rest.isSome = f.rest.isSome := Option.isSome_map ..
  simp only [extra, split_map, length_positional_map, hrest]

theorem missingKeywords_map : (f.map g).missingKeywords args = f.missingKeywords args := by
  have hkeys : (f.map g).keywords.keys = f.keywords.keys := Table.keys_map ..
  simp only [missingKeywords, passed_map, hkeys]

theorem extraKeywords_map : (f.map g).extraKeywords args = f.extraKeywords args := by
  have hrest : (f.map g).restKeywords.isSome = f.restKeywords.isSome := Option.isSome_map ..
  simp only [extraKeywords, passed_map, declares_map, hrest]

/-! ## Pairs -/

/-- Which entries are taken depends on the keywords alone. -/
theorem takeNamed_map (params : List (String × Ty)) (passed : Table String Node) :
    takeNamed (params.map fun p => (p.1, g p.2)) passed =
      ((takeNamed params passed).1.map fun p => (g p.1, p.2), (takeNamed params passed).2) := by
  induction params generalizing passed with
  | nil => rfl
  | cons p params ih =>
    obtain ⟨name, t⟩ := p
    simp only [List.map_cons, takeNamed]
    cases passed.get? name with
    | none => exact ih passed
    | some value => simp only [ih (passed.erase name), List.map_cons]

/-- The pairs of a parameter that takes everything that is left. -/
theorem rest_map (rest : Option Ty) (ns : List Node) :
    (rest.map g).toList.flatMap (fun t => ns.map fun n => (t, n)) =
      (rest.toList.flatMap fun t => ns.map fun n => (t, n)).map fun p => (g p.1, p.2) := by
  cases rest with
  | none => rfl
  | some t => simp

theorem pairs_map : (f.map g).pairs args = (f.pairs args).map fun p => (g p.1, p.2) := by
  have hzip : (f.positional.map g).zip (f.split args).1 =
      (f.positional.zip (f.split args).1).map fun p => (g p.1, p.2) := List.zip_map_left ..
  have hrest : (f.map g).rest = f.rest.map g := rfl
  have hrestKeywords : (f.map g).restKeywords = f.restKeywords.map g := rfl
  simp only [pairs, split_map, passed_map, length_positional_map, hrest, hrestKeywords, rest_map,
    List.map_append]
  rw [positional_map, named_map, takeNamed_map, hzip]

/-- Putting types for parameters and pseudo-types into formal parameters changes nothing about what a call
lacks and what it has left over, and its arguments fill the same parameters in the same order. -/
theorem matching_subst (σ : Subst) :
    (f.subst σ).missing args = f.missing args ∧ (f.subst σ).extra args = f.extra args ∧
      (f.subst σ).missingKeywords args = f.missingKeywords args ∧
      (f.subst σ).extraKeywords args = f.extraKeywords args ∧
      (f.subst σ).pairs args = (f.pairs args).map fun p => (p.1.subst σ, p.2) :=
  ⟨missing_map _ f args, extra_map _ f args, missingKeywords_map _ f args, extraKeywords_map _ f args,
    pairs_map _ f args⟩

end MixinTypes.Formals
