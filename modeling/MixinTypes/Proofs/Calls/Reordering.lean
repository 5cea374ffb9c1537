import Mathlib.Data.List.Perm.Basic
import MixinTypes.Call.Matching

/-!
# The order of keywords at a call

A call may write its keywords in any order. When the elements of the hash with the keywords are written in
another order, and no keyword twice, only what goes to the rest of the keywords is found in another order.

1. The table of what is passed then has the same entries in another order (`perm_entries_passed`), which
   look-ups do not notice.
2. So parameters with keywords of their own take the same from it, in their own order, and what they leave is
   the same but for its order (`takeNamed_perm`).
3. What they leave is what is passed without a parameter of its name (`entries_takeNamed`); with that
   `pairs_eq_append` tells the two parts of the pairs apart, and `matching_perm` says what each of them keeps.
-/

namespace MixinTypes

namespace Formals

variable {f : Formals} {args given elements elements' : List Node} {site site' : Site}

/-! ## What is passed -/

theorem split_concat_hash (hf : f.hasKeywords = true) (given elements : List Node) (site : Site) :
    f.split (given ++ [.hash site elements]) = (given, some elements) := by
  simp [split, hf]

theorem entries_passed (hf : f.hasKeywords = true) (hn : ((symbolPairs elements).map Prod.fst).Nodup)
    (given : List Node) (site : Site) :
    (f.passed (given ++ [.hash site elements])).entries = symbolPairs elements := by
  rw [passed, split_concat_hash hf]
  exact Table.entries_ofList hn

theorem perm_entries_passed (hf : f.hasKeywords = true) (hperm : elements.Perm elements')
    (hn : ((symbolPairs elements).map Prod.fst).Nodup) (given : List Node) (site site' : Site) :
    (f.passed (given ++ [.hash site elements])).entries.Perm
      (f.passed (given ++ [.hash site' elements'])).entries := by
  have hsymbols : (symbolPairs elements).Perm (symbolPairs elements') := hperm.filterMap _
  have hn' : ((symbolPairs elements').map Prod.fst).Nodup := (hsymbols.map _).nodup_iff.mp hn
  rw [entries_passed hf hn, entries_passed hf hn']
  exact hsymbols

/-! ## What parameters take -/

theorem takeNamed_perm {s t : Table String Node} (h : s.entries.Perm t.entries) (params : List (String × Ty)) :
    (takeNamed params s).1 = (takeNamed params t).1 ∧
      (takeNamed params s).2.entries.Perm (takeNamed params t).2.entries := by
  induction params generalizing s t with
  | nil => exact ⟨rfl, h⟩
  | cons p params ih =>
    obtain ⟨name, type⟩ := p
    simp only [takeNamed, Table.get?_eq_of_perm h name]
    cases t.get? name with
    | none => exact ih h
    | some value =>
      obtain ⟨htaken, hleft⟩ := ih (Table.perm_entries_erase_of_perm h name)
      exact ⟨congrArg (List.cons _) htaken, hleft⟩

/-- Parameters leave the entries under other keywords than theirs. -/
theorem entries_takeNamed (params : List (String × Ty)) (passed : Table String Node) :
    (takeNamed params passed).2.entries = passed.entries.filter fun e => e.1 ∉ params.map Prod.fst := by
  induction params generalizing passed with
  | nil => simp [takeNamed]
  | cons p params ih =>
    obtain ⟨name, t⟩ := p
    rw [takeNamed]
    cases hget : passed.get? name with
    | none =>
      have hname : name ∉ passed.keys := Table.valueIn?_eq_none_iff.mp hget
      refine (ih passed).trans (List.filter_congr fun e he => ?_)
      have hne : e.1 ≠ name := fun h => hname (h ▸ List.mem_map_of_mem he)
      simp [hne]
    | some value =>
      refine (ih (passed.erase name)).trans ?_
      change (passed.entries.filter _).filter _ = _
      rw [List.filter_filter]
      refine List.filter_congr fun e _ => ?_
      simp only [List.map_cons, List.mem_cons, not_or, Bool.decide_and, Bool.and_comm]

/-- The pairs of all parameters but the one for the rest of the keywords: by position, in the rest, and by a
keyword of their own. -/
def ownPairs (f : Formals) (args : List Node) : List (Ty × Node) :=
  let given := (f.split args).1
  f.positional.zip given
    ++ f.rest.toList.flatMap (fun t => (given.drop f.positional.length).map fun n => (t, n))
    ++ (takeNamed f.named (f.passed args)).1

/-- What is passed under a keyword that no parameter has as its own, with the type of the rest of the
keywords. -/
def furtherPairs (f : Formals) (args : List Node) : List (Ty × Node) :=
  f.restKeywords.toList.flatMap fun t =>
    ((f.passed args).entries.filter fun e => !f.declares e.1).map fun e => (t, e.2)

theorem declares_iff {name : String} : f.declares name = true ↔ name ∈ f.named.map Prod.fst := by
  rw [declares, Bool.or_eq_true, Table.contains_iff_mem_keys, Table.contains_iff_mem_keys, named,
    List.map_append, List.mem_append]
  rfl

theorem pairs_eq_append (f : Formals) (args : List Node) :
    f.pairs args = f.ownPairs args ++ f.furtherPairs args := by
  have hleft : (takeNamed f.named (f.passed args)).2.entries =
      (f.passed args).entries.filter fun e => !f.declares e.1 := by
    rw [entries_takeNamed]
    refine List.filter_congr fun e _ => ?_
    rw [Bool.eq_iff_iff, decide_eq_true_iff, Bool.not_eq_true', Bool.eq_false_iff, ne_eq, declares_iff]
  simp only [pairs, ownPairs, furtherPairs, Table.values, hleft, List.map_map]
  rfl

/-! ## Another order -/

/-- The elements of the hash with the keywords may be written in any order as long as no keyword is written
twice: the same is missing and the same is left over, each parameter but the rest of the keywords gets what it
gets, and the rest of the keywords gets the same in another order. -/
theorem matching_perm (hf : f.hasKeywords = true) (given : List Node) (site site' : Site)
    (hperm : elements.Perm elements') (hn : ((symbolPairs elements).map Prod.fst).Nodup) :
    let args := given ++ [.hash site elements]
    let args' := given ++ [.hash site' elements']
    f.missing args = f.missing args' ∧ f.extra args = f.extra args' ∧
      f.missingKeywords args = f.missingKeywords args' ∧
      (f.extraKeywords args).Perm (f.extraKeywords args') ∧
      f.pairs args = f.ownPairs args ++ f.furtherPairs args ∧
      f.pairs args' = f.ownPairs args ++ f.furtherPairs args' ∧
      (f.furtherPairs args).Perm (f.furtherPairs args') := by
  intro args args'
  have hsplit : (f.split args).1 = (f.split args').1 := by
    rw [split_concat_hash hf, split_concat_hash hf]
  have hpassed : (f.passed args).entries.Perm (f.passed args').entries :=
    perm_entries_passed hf hperm hn given site site'
  have hown : f.ownPairs args = f.ownPairs args' := by
    rw [ownPairs, ownPairs, hsplit, (takeNamed_perm hpassed f.named).1]
  refine ⟨by rw [missing, missing, hsplit], by rw [extra, extra, hsplit], ?_, ?_, f.pairs_eq_append args,
    hown ▸ f.pairs_eq_append args', ?_⟩
  · simp only [missingKeywords, Table.contains_eq_of_perm hpassed]
  · rw [extraKeywords, extraKeywords]
    split
    · exact .nil
    · exact (hpassed.map Prod.fst).filter _
  · exact List.Perm.flatMap_left _ fun t _ => (hpassed.filter _).map _

/-- One parameter by position, one by a keyword of its own, and a rest of the keywords. -/
def labelled : Formals where
  required := [.any]
  optional := []
  rest := none
  keywords := .ofList [("name", .ofPath ⟨["String"], true⟩ [])]
  optionalKeywords := .empty
  restKeywords := some .any

/-- A pair whose value has the number `i`. -/
def labelledWith (i : Nat) (key : Literal) : Node :=
  .pair ⟨0, .nowhere⟩ (.lit ⟨0, .nowhere⟩ key) (.lit ⟨i, .nowhere⟩ .nil)

/-- Three keywords, and two elements that are none: a pair with another key and no pair at all. -/
def labels : List Node :=
  [labelledWith 1 (.sym "color"), labelledWith 2 (.str "raw"), labelledWith 3 (.sym "name"),
    .lit ⟨4, .nowhere⟩ .nil, labelledWith 5 (.sym "size")]

/-- Read backwards, the labels fill the parameters in the same way, and the two that go to the rest of the
keywords are found backwards. -/
theorem matching_perm_labels :
    let site : Site := ⟨0, .nowhere⟩
    let given : List Node := [.lit ⟨6, .nowhere⟩ .nil]
    let args := given ++ [.hash site labels]
    let args' := given ++ [.hash site labels.reverse]
    labelled.hasKeywords = true ∧ labels.Perm labels.reverse ∧ ((symbolPairs labels).map Prod.fst).Nodup ∧
      labelled.missingKeywords args = labelled.missingKeywords args' ∧
      labelled.pairs args = labelled.ownPairs args ++ labelled.furtherPairs args ∧
      labelled.pairs args' = labelled.ownPairs args ++ labelled.furtherPairs args' ∧
      (labelled.furtherPairs args).Perm (labelled.furtherPairs args') ∧
      (labelled.ownPairs args).map (fun p => p.2.id) = [6, 3] ∧
      (labelled.furtherPairs args).map (fun p => p.2.id) = [1, 5] ∧
      (labelled.furtherPairs args').map (fun p => p.2.id) = [5, 1] := by
  intro site given args args'
  have hkeywords : labelled.hasKeywords = true := rfl
  have hperm : labels.Perm labels.reverse := labels.reverse_perm.symm
  have hn : ((symbolPairs labels).map Prod.fst).Nodup := by decide
  obtain ⟨-, -, hmissing, -, hpairs, hpairs', hfurther⟩ := matching_perm hkeywords given site site hperm hn
  exact ⟨hkeywords, hperm, hn, hmissing, hpairs, hpairs', hfurther, by decide, by decide, by decide⟩

end Formals

end MixinTypes
