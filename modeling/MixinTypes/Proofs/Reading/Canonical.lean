import MixinTypes.Overload

/-!
# Formal parameters as a written list

The groups of sorted parameters, one after another, are a list that could have been written. This is the list
whose text is that of the parameters (`partChars_eq`). Sorting it gives the parameters back, keyword tables in
the same order (`ofParams_params`), and every member of it is in the list that was sorted
(`mem_of_mem_params_ofParams`), so it says nothing that was not written.

`Overload.toSignature` makes a signature of an overload in the same way, with the same text
(`Overload.toChars_eq`).
-/

namespace MixinTypes

namespace Param

/-- The text of a parameter. -/
def toChars : Param → List Char
  | .required t => t.toChars
  | .optional t => '?' :: t.toChars
  | .rest t => '*' :: t.toChars
  | .keyword name t => name.toList ++ ':' :: ' ' :: t.toChars
  | .optionalKeyword name t => '?' :: name.toList ++ ':' :: ' ' :: t.toChars
  | .restKeywords t => '*' :: '*' :: t.toChars

theorem effective_append {ps : List Param} (h : ∀ p ∈ ps, p.isRestKeywords = false) (qs : List Param) :
    effective (ps ++ qs) = ps ++ effective qs := by
  induction ps with
  | nil => rfl
  | cons p ps ih =>
    obtain ⟨hp, hps⟩ := List.forall_mem_cons.mp h
    rw [List.cons_append, effective, hp, ih hps]
    rfl

end Param

namespace Formals

/-- The groups of the parameters as one list. -/
def params (f : Formals) : List Param :=
  f.required.map .required ++ f.optional.map .optional ++ f.rest.toList.map .rest
    ++ f.keywords.entries.map (fun e => .keyword e.1 e.2)
    ++ f.optionalKeywords.entries.map (fun e => .optionalKeyword e.1 e.2)
    ++ f.restKeywords.toList.map .restKeywords

theorem partChars_eq (f : Formals) : f.partChars = f.params.map Param.toChars := by
  simp only [partChars, params, List.map_append, List.map_map]
  rfl

theorem toChars_eq (f : Formals) : f.toChars = [',', ' '].intercalate (f.params.map Param.toChars) :=
  congrArg _ f.partChars_eq

/-- Only the last parameter can take all further keywords, so all of them count. -/
theorem effective_params (f : Formals) : Param.effective f.params = f.params := by
  rw [params, Param.effective_append fun p hp => ?_]
  · cases f.restKeywords <;> rfl
  · simp only [List.mem_append, List.mem_map] at hp
    rcases hp with (((⟨t, -, rfl⟩ | ⟨t, -, rfl⟩) | ⟨t, -, rfl⟩) | ⟨e, -, rfl⟩) | ⟨e, -, rfl⟩ <;> rfl

/-! ## Sorting again -/

section Sorting

variable (f : Formals)

theorem foldl_add_required (ts : List Ty) :
    (ts.map Param.required).foldl add f = { f with required := f.required ++ ts } := by
  induction ts generalizing f with
  | nil => simp
  | cons t ts ih => simp [ih, add]

theorem foldl_add_optional (ts : List Ty) :
    (ts.map Param.optional).foldl add f = { f with optional := f.optional ++ ts } := by
  induction ts generalizing f with
  | nil => simp
  | cons t ts ih => simp [ih, add]

theorem foldl_add_keywords (es : List (String × Ty)) :
    (es.map fun e => Param.keyword e.1 e.2).foldl add f =
      { f with keywords := es.foldl (fun t e => t.insert e.1 e.2) f.keywords } := by
  induction es generalizing f with
  | nil => rfl
  | cons e es ih => simp [ih, add]

theorem foldl_add_optionalKeywords (es : List (String × Ty)) :
    (es.map fun e => Param.optionalKeyword e.1 e.2).foldl add f =
      { f with optionalKeywords := es.foldl (fun t e => t.insert e.1 e.2) f.optionalKeywords } := by
  induction es generalizing f with
  | nil => rfl
  | cons e es ih => simp [ih, add]

theorem ofParams_params : ofParams f.params = f := by
  have hkeywords : f.keywords.entries.foldl (fun t e => t.insert e.1 e.2) .empty = f.keywords :=
    f.keywords.ofList_entries
  have hoptional : f.optionalKeywords.entries.foldl (fun t e => t.insert e.1 e.2) .empty =
      f.optionalKeywords := f.optionalKeywords.ofList_entries
  rw [ofParams, effective_params, params]
  simp only [List.foldl_append, foldl_add_required, foldl_add_optional, foldl_add_keywords,
    foldl_add_optionalKeywords]
  obtain ⟨required, optional, rest, keywords, optionalKeywords, restKeywords⟩ := f
  cases rest <;> cases restKeywords <;> simp_all [empty, add]

end Sorting

/-! ## What is in the list -/

/-- The parameter is in the group of its kind. -/
def Has (f : Formals) : Param → Prop
  | .required t => t ∈ f.required
  | .optional t => t ∈ f.optional
  | .rest t => f.rest = some t
  | .keyword name t => (name, t) ∈ f.keywords.entries
  | .optionalKeyword name t => (name, t) ∈ f.optionalKeywords.entries
  | .restKeywords t => f.restKeywords = some t

theorem mem_params_iff {f : Formals} {x : Param} : x ∈ f.params ↔ f.Has x := by
  cases x <;> simp [params, Has]

/-- A parameter is added to its own group, and the others stay. -/
theorem Has.of_add {f : Formals} {p x : Param} (h : (f.add p).Has x) : x = p ∨ f.Has x := by
  cases p with
  | required t => cases x <;> simp_all [Has, add, or_comm]
  | optional t => cases x <;> simp_all [Has, add, or_comm]
  | rest t => cases x <;> simp_all [Has, add]
  | keyword name t =>
    cases x with
    | keyword name' t' => simpa [Has] using Table.mem_entries_insert h
    | _ => exact .inr h
  | optionalKeyword name t =>
    cases x with
    | optionalKeyword name' t' => simpa [Has] using Table.mem_entries_insert h
    | _ => exact .inr h
  | restKeywords t => cases x <;> simp_all [Has, add]

theorem mem_of_mem_params_ofParams {ps : List Param} {x : Param} (h : x ∈ (ofParams ps).params) :
    x ∈ Param.effective ps := by
  have fold : ∀ (qs : List Param) (f : Formals), (qs.foldl add f).Has x → x ∈ qs ∨ f.Has x := by
    intro qs
    induction qs with
    | nil => exact fun f h => .inr h
    | cons q qs ih =>
      intro f h
      rcases ih (f.add q) h with h | h
      · exact .inl (List.mem_cons_of_mem q h)
      · rcases h.of_add with rfl | h
        · exact .inl (List.mem_cons_self ..)
        · exact .inr h
  refine (fold _ _ (mem_params_iff.mp h)).resolve_right fun h => ?_
  cases x <;> exact nomatch h

/-- The types of the groups are those of the list. -/
theorem types_eq (f : Formals) : f.types = f.params.map Param.type := by
  simp only [types, params, List.map_append, List.map_map]
  rw [show Param.type ∘ Param.required = id from rfl, show Param.type ∘ Param.optional = id from rfl,
    show Param.type ∘ Param.rest = id from rfl, show Param.type ∘ Param.restKeywords = id from rfl]
  simp only [List.map_id]
  rfl

/-! ## Replacing types -/

theorem add_mapType (g : Ty → Ty) (f : Formals) (p : Param) :
    (f.map g).add (p.mapType g) = (f.add p).map g := by
  cases p <;> simp [map, add, Param.mapType, Table.map_insert]

theorem ofParams_map (g : Ty → Ty) (ps : List Param) :
    ofParams (ps.map (Param.mapType g)) = (ofParams ps).map g := by
  have fold : ∀ (qs : List Param) (f : Formals),
      (qs.map (Param.mapType g)).foldl add (f.map g) = (qs.foldl add f).map g := by
    intro qs
    induction qs with
    | nil => exact fun _ => rfl
    | cons q qs ih =>
      intro f
      rw [List.map_cons, List.foldl_cons, add_mapType, ih]
      rfl
  rw [ofParams, Param.effective_map_mapType]
  exact fold _ empty

/-- Sorting takes the types that count, replaced. -/
theorem exists_of_mem_types_ofParams {g : Ty → Ty} {ps : List Param} {t : Ty}
    (h : t ∈ (ofParams (ps.map (Param.mapType g))).types) :
    ∃ u ∈ (Param.effective ps).map Param.type, t = g u := by
  rw [ofParams_map, types_map] at h
  obtain ⟨u, hu, rfl⟩ := List.mem_map.mp h
  rw [types_eq] at hu
  obtain ⟨p, hp, rfl⟩ := List.mem_map.mp hu
  exact ⟨p.type, List.mem_map_of_mem (mem_of_mem_params_ofParams hp), rfl⟩

end Formals

/-! ## Texts of signatures -/

namespace Signature

/-- Type parameters in angle brackets, when there are any. -/
def typeParamsChars : List String → List Char
  | [] => []
  | name :: names =>
    '<' :: [',', ' '].intercalate ((name :: names).map fun n => '\x27' :: n.toList) ++ ['>', ' ']

/-- Parameters in parentheses. -/
def paramsChars (ps : List Param) : List Char := '(' :: [',', ' '].intercalate (ps.map Param.toChars) ++ [')']

/-- An arrow and the type after it. -/
def returnsChars (t : Ty) : List Char := ' ' :: '-' :: '>' :: ' ' :: t.toChars

/-- A block in braces, when there is one. -/
def blockChars : Option BlockSignature → List Char
  | none => []
  | some b => ' ' :: '\x7b' :: ' ' :: paramsChars b.params ++ returnsChars b.returns ++ [' ', '\x7d']

/-- The text of a signature. -/
def toChars (s : Signature) : List Char :=
  typeParamsChars s.typeParams ++ paramsChars s.params ++ blockChars s.block ++ returnsChars s.returns

end Signature

namespace Overload

/-- An overload as a signature that covers `extent`. -/
def toSignature (o : Overload) (extent : Extent) : Signature where
  typeParams := o.typeParams
  params := o.formals.params
  block := o.block.map fun b => ⟨b.formals.params, b.returns⟩
  returns := o.returns
  extent := extent

/-- The text of an overload is that of its signature. -/
theorem toChars_eq (o : Overload) (extent : Extent) : o.toChars = (o.toSignature extent).toChars := by
  obtain ⟨typeParams, formals, returns, block, _⟩ := o
  cases typeParams <;> cases block <;>
    simp [toChars, toSignature, Signature.toChars, Signature.typeParamsChars, Signature.paramsChars,
      Signature.returnsChars, Signature.blockChars, Formals.toChars_eq]

/-- The types of an overload are those of its signature that count, replaced, and the result that is
given. -/
theorem exists_of_mem_types_ofSignature {g : Ty → Ty} {result : Option Ty} {s : Signature} {t : Ty}
    (h : t ∈ (ofSignature g result s).types) :
    result = some t ∨ ∃ u ∈ s.types result.isNone, t = g u := by
  simp only [types, ofSignature, List.mem_append, List.mem_singleton] at h
  simp only [Signature.types, List.mem_append]
  rcases h with (h | h) | h
  · obtain ⟨u, hu, rfl⟩ := Formals.exists_of_mem_types_ofParams h
    exact .inr ⟨u, .inl (.inl hu), rfl⟩
  · cases result with
    | none => exact .inr ⟨s.returns, .inr (List.mem_singleton_self _), h⟩
    | some r => exact .inl (congrArg some h.symm)
  · refine .inr ?_
    cases hb : s.block with
    | none =>
      rw [hb] at h
      cases h
    | some b =>
      rw [hb] at h
      simp only [Option.map_some, Option.toList_some, List.flatMap_singleton, Block.types, List.mem_append,
        List.mem_singleton] at h
      have inBlock : ∀ u ∈ (Param.effective b.params).map Param.type ++ [b.returns],
          u ∈ (some b).toList.flatMap fun b => (Param.effective b.params).map Param.type ++ [b.returns] :=
        fun u hu => List.mem_flatMap.mpr ⟨b, List.mem_singleton_self b, hu⟩
      rcases h with h | rfl
      · obtain ⟨u, hu, rfl⟩ := Formals.exists_of_mem_types_ofParams h
        exact ⟨u, .inl (.inr (inBlock u (List.mem_append_left _ hu))), rfl⟩
      · exact ⟨b.returns, .inl (.inr (inBlock _ (List.mem_append_right _ (List.mem_singleton_self _)))), rfl⟩

/-- An overload is its signature with the parameters sorted and the types replaced. -/
theorem ofSignature_eq_map (g : Ty → Ty) (s : Signature) :
    ofSignature g none s = (ofSignature id none s).map g := by
  cases hb : s.block <;>
    simp [ofSignature, map, hb, Block.map, Formals.ofParams_map]

theorem ofSignature_toSignature (o : Overload) (extent : Extent) :
    ofSignature id none (o.toSignature extent) = { o with extent := extent } := by
  cases hb : o.block <;>
    simp [ofSignature, toSignature, hb, Formals.ofParams_map, Formals.ofParams_params]

end Overload

end MixinTypes
