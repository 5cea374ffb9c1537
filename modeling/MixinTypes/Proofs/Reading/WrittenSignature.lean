import MixinTypes.Proofs.Reading.Canonical
import MixinTypes.Proofs.Reading.RoundTrip
import MixinTypes.Signature.Reader

/-!
# What written signatures look like

A signature that was read has identifiers for its type parameters, labels for its keywords and written types
(`Signature.Spelled`, `spelled_of_read`). Its overload has the same, and whatever replacing the types makes of
them, when it is made a signature again (`Signature.Spelled.ofSignature`).
-/

namespace MixinTypes

open Text Reader

/-! ## Labels -/

namespace Text

/-- An identifier that can be the name of a keyword. -/
def IsLabel (cs : List Char) : Prop := IsIdentifier cs ∧ cs.head?.any Char.isLower = true

theorem Reader.gives_label : label.Gives IsLabel := gives_identifier.filter _

end Text

/-! ## Signatures -/

/-- The type has the property, and the keyword, if there is one, is a label. -/
def Param.Spelled (P : Ty → Prop) : Param → Prop
  | .keyword name t | .optionalKeyword name t => IsLabel name.toList ∧ P t
  | .required t | .optional t | .rest t | .restKeywords t => P t

/-- All types have the property, and the other parts of the signature can be written. -/
structure Signature.Spelled (P : Ty → Prop) (s : Signature) : Prop where
  typeParams : ∀ name ∈ s.typeParams, IsIdentifier name.toList
  params : ∀ p ∈ s.params, p.Spelled P
  block : ∀ b ∈ s.block, (∀ p ∈ b.params, p.Spelled P) ∧ P b.returns
  returns : P s.returns

namespace Signature

theorem gives_labelReader : labelReader.Gives fun name => IsLabel name.toList := by
  refine gives_label.padded.bind fun cs hcs => (Gives.trivial _).bind fun _ _ =>
    (Gives.trivial _).bind fun _ _ => Gives.pure ?_
  rwa [String.toList_ofList]

theorem gives_paramReader : paramReader.Gives (Param.Spelled Ty.Written) := by
  have typed : ∀ make : Ty → Param, (∀ t, t.Written → (make t).Spelled Ty.Written) →
      (do return make (← Ty.reader) : Reader Param).Gives (Param.Spelled Ty.Written) :=
    fun _ h => Ty.gives_reader.bind fun t ht => Gives.pure (h t ht)
  have labelled : ∀ make : String → Ty → Param,
      (∀ name t, IsLabel name.toList → t.Written → (make name t).Spelled Ty.Written) →
      (do return make (← labelReader) (← Ty.reader) : Reader Param).Gives (Param.Spelled Ty.Written) :=
    fun make h => gives_labelReader.bind fun name hname => typed (make name) fun t => h name t hname
  refine Gives.padded (Gives.orElse ?_ (Gives.orElse ?_ (Gives.orElse ?_ (Gives.orElse ?_ ?_))))
  · exact (Gives.trivial _).bind fun _ _ => typed .restKeywords fun _ ht => ht
  · exact (Gives.trivial _).bind fun _ _ => typed .rest fun _ ht => ht
  · exact (Gives.trivial _).bind fun _ _ =>
      labelled .optionalKeyword fun _ _ hname ht => ⟨hname, ht⟩
  · exact (Gives.trivial _).bind fun _ _ => typed .optional fun _ ht => ht
  · exact (labelled .keyword fun _ _ hname ht => ⟨hname, ht⟩).orElse
      (typed .required fun _ ht => ht)

theorem gives_paramsReader : paramsReader.Gives fun ps => ∀ p ∈ ps, p.Spelled Ty.Written :=
  (Gives.trivial _).bind fun _ _ => (gives_paramReader.sepBy _).bind fun _ hps =>
    (Gives.trivial _).bind fun _ _ => Gives.pure hps

theorem gives_returnsReader : returnsReader.Gives Ty.Written :=
  (Gives.trivial _).bind fun _ _ => Ty.gives_reader

/-- Parameters that are left out are none. -/
theorem forall_mem_getD {α : Type} {P : α → Prop} {o : Option (List α)} (h : ∀ as ∈ o, ∀ a ∈ as, P a) :
    ∀ a ∈ o.getD [], P a := by
  cases o with
  | none => exact List.forall_mem_nil _
  | some as => exact h as rfl

theorem gives_blockReader :
    blockReader.Gives fun b => (∀ p ∈ b.params, p.Spelled Ty.Written) ∧ b.returns.Written :=
  (Gives.trivial _).bind fun _ _ => gives_paramsReader.optional.bind fun _ hps =>
    gives_returnsReader.bind fun _ ht => (Gives.trivial _).bind fun _ _ =>
      Gives.pure ⟨forall_mem_getD hps, ht⟩

theorem gives_typeParamsReader : typeParamsReader.Gives fun names => ∀ name ∈ names, IsIdentifier name.toList :=
  (Gives.trivial _).bind fun _ _ => (Ty.gives_varReader.padded.sepBy1 _).bind fun _ hnames =>
    (Gives.trivial _).bind fun _ _ => Gives.pure hnames.2

theorem gives_reader (extent : Extent) : (reader extent).Gives (Spelled Ty.Written) :=
  gives_typeParamsReader.optional.bind fun _ hnames => gives_paramsReader.optional.bind fun _ hps =>
    gives_blockReader.optional.bind fun _ hb => gives_returnsReader.bind fun _ ht =>
      Gives.pure ⟨forall_mem_getD hnames, forall_mem_getD hps, hb, ht⟩

theorem spelled_of_read {source : String} {s : Signature} (h : read source = .ok s) :
    s.Spelled Ty.Written :=
  (gives_reader _).readAll h

end Signature

/-! ## Their overloads -/

section Overloads

variable {P Q : Ty → Prop} {f : Ty → Ty}

theorem Param.Spelled.mapType {p : Param} (h : p.Spelled P) (hf : P p.type → Q (f p.type)) :
    (p.mapType f).Spelled Q := by
  cases p with
  | keyword name t => exact ⟨h.1, hf h.2⟩
  | optionalKeyword name t => exact ⟨h.1, hf h.2⟩
  | _ => exact hf h

theorem Param.mem_of_mem_effective {p : Param} {ps : List Param} (h : p ∈ effective ps) : p ∈ ps := by
  induction ps with
  | nil => exact h
  | cons q qs ih =>
    rw [effective] at h
    split at h
    · exact List.mem_singleton.mp h ▸ List.mem_cons_self ..
    · rcases List.mem_cons.mp h with rfl | h
      · exact List.mem_cons_self ..
      · exact List.mem_cons_of_mem q (ih h)

/-- Sorted parameters are spelled like those of the list that count. -/
theorem Formals.spelled_params {ps : List Param} (h : ∀ p ∈ ps, p.Spelled P)
    (hf : ∀ t ∈ (Param.effective ps).map Param.type, P t → Q (f t)) :
    ∀ p ∈ (Formals.ofParams (ps.map (Param.mapType f))).params, p.Spelled Q := by
  intro p hp
  have hmem := mem_of_mem_params_ofParams hp
  rw [Param.effective_map_mapType] at hmem
  obtain ⟨q, hq, rfl⟩ := List.mem_map.mp hmem
  exact (h q (Param.mem_of_mem_effective hq)).mapType (hf q.type (List.mem_map_of_mem hq))

/-- The overload of a signature is spelled like the signature. -/
theorem Signature.Spelled.ofSignature {s : Signature} (h : s.Spelled P)
    (hf : ∀ t ∈ s.types true, P t → Q (f t)) (extent : Extent) :
    ((Overload.ofSignature f none s).toSignature extent).Spelled Q := by
  rw [Signature.types, List.forall_mem_append, List.forall_mem_append] at hf
  obtain ⟨⟨hparams, hblock⟩, hreturns⟩ := hf
  refine ⟨h.typeParams, Formals.spelled_params h.params hparams, ?_, hreturns _ (by simp) h.returns⟩
  intro sorted hsorted
  rw [Overload.toSignature, Overload.ofSignature, Option.map_map] at hsorted
  obtain ⟨b, hb, rfl⟩ := Option.map_eq_some_iff.mp hsorted
  have htypes : ∀ t ∈ (Param.effective b.params).map Param.type ++ [b.returns], P t → Q (f t) :=
    fun t ht => hblock t (List.mem_flatMap.mpr ⟨b, Option.mem_toList.mpr hb, ht⟩)
  obtain ⟨hbparams, hbreturns⟩ := List.forall_mem_append.mp htypes
  exact ⟨Formals.spelled_params (h.block b hb).1 hbparams, hbreturns _ (by simp) (h.block b hb).2⟩

end Overloads

end MixinTypes
