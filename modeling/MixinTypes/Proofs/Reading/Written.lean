import MixinTypes.Proofs.Reading.Combinators
import MixinTypes.Ty.Names
import MixinTypes.Ty.Reader

/-!
# What written types look like

Not every type can be the value of a text: variables and the segments of paths are identifiers, a path has
a segment, a name without suffix is a protocol when its last segment starts with an underscore and stands
for instances otherwise, and unions and intersections have at least two members. `Ty.Written` says so of a
type and everything inside it, and `gives_reader` that whatever is read is of this kind.
-/

namespace MixinTypes

namespace Text

/-- A letter or underscore, then letters, digits and underscores. -/
def IsIdentifier (cs : List Char) : Prop :=
  ∃ c rest, cs = c :: rest ∧ isIdentStart c = true ∧ ∀ d ∈ rest, isIdentChar d = true

/-- An identifier that can be a segment of a path. -/
def IsConstant (cs : List Char) : Prop := IsIdentifier cs ∧ cs.head?.any isConstantStart = true

end Text

open Text Reader

/-- The path has segments, and they are constants. -/
def Path.Written (p : Path) : Prop := p.segments ≠ [] ∧ ∀ s ∈ p.segments, IsConstant s.toList

/-- The path is written, and without suffix its last segment tells a protocol. -/
def Nominal.Written (n : Nominal) : Prop :=
  n.path.Written ∧ (Nominal.suffix n.facet = [] → n.facet = Ty.plainFacet n.path)

/-- The types that a text can denote. -/
inductive Ty.Written : Ty → Prop where
  | any : Written .any
  | var {name : String} (h : IsIdentifier name.toList) : Written (.var name)
  | self : Written .self
  | inst : Written .inst
  | cls : Written .cls
  | named {n : Nominal} {args : List Ty} (hn : n.Written) (h : ∀ t ∈ args, Written t) :
    Written (.named n args)
  | union {ts : List Ty} (hlen : 2 ≤ ts.length) (h : ∀ t ∈ ts, Written t) : Written (.union ts)
  | inter {ts : List Ty} (hlen : 2 ≤ ts.length) (h : ∀ t ∈ ts, Written t) : Written (.inter ts)

/-- Written names make a written type of it. -/
theorem Ty.Written.mapNames {f : Nominal → Nominal} (hf : ∀ n, n.Written → (f n).Written) {t : Ty}
    (h : t.Written) : (t.mapNames f).Written := by
  induction h with
  | any => exact .any
  | self => exact .self
  | inst => exact .inst
  | cls => exact .cls
  | var h => exact .var h
  | named hn _ ih =>
    rw [Ty.mapNames, mapNamesList_eq]
    exact .named (hf _ hn) (List.forall_mem_map.mpr ih)
  | union hlen _ ih =>
    rw [Ty.mapNames, mapNamesList_eq]
    exact .union (by rwa [List.length_map]) (List.forall_mem_map.mpr ih)
  | inter hlen _ ih =>
    rw [Ty.mapNames, mapNamesList_eq]
    exact .inter (by rwa [List.length_map]) (List.forall_mem_map.mpr ih)

/-- A written name is written from the root as well. -/
theorem Nominal.Written.toAbsolute {n : Nominal} (h : n.Written) : n.toAbsolute.Written := h

/-! ## Names -/

namespace Text.Reader

theorem gives_identifier : identifier.Gives IsIdentifier :=
  (Gives.satisfy _).bind fun c hc => (Gives.takeWhile _).bind fun cs hcs =>
    Gives.pure ⟨c, cs, rfl, hc, hcs⟩

theorem gives_constant : constant.Gives IsConstant := gives_identifier.filter _

theorem gives_path : path.Gives Path.Written := by
  refine (Gives.trivial _).bind fun top _ => (gives_constant.sepBy1 _).bind fun segments h => ?_
  refine Gives.pure ⟨by simpa using h.1, fun s hs => ?_⟩
  obtain ⟨cs, hcs, rfl⟩ := List.mem_map.mp hs
  rw [String.toList_ofList]
  exact h.2 cs hcs

end Text.Reader

/-! ## Types -/

namespace Ty

variable {inner : Reader Ty}

theorem gives_varReader : varReader.Gives fun name => IsIdentifier name.toList := by
  refine (Gives.trivial _).bind fun _ _ => gives_identifier.bind fun cs hcs => Gives.pure ?_
  rwa [String.toList_ofList]

theorem gives_suffixReader : suffixReader.Gives fun f => Nominal.suffix f ≠ [] := by
  refine (Gives.trivial _).bind fun _ _ => Gives.orElse ?_ ?_
  · exact (Gives.trivial _).bind fun _ _ => Gives.pure (by decide)
  · refine (Gives.trivial _).bind fun _ _ => (Gives.trivial _).bind fun constructs _ => Gives.pure ?_
    cases constructs.isSome <;> decide

theorem gives_argsReader (h : inner.Gives Written) :
    (argsReader inner).Gives fun args => ∀ t ∈ args, Written t :=
  (Gives.trivial _).bind fun _ _ => (h.sepBy1 _).bind fun _ hargs =>
    (Gives.trivial _).bind fun _ _ => Gives.pure hargs.2

theorem gives_namedReader (h : inner.Gives Written) : (namedReader inner).Gives Written := by
  refine gives_path.bind fun p hp => (gives_argsReader h).optional.bind fun args hargs =>
    gives_suffixReader.optional.bind fun suffix hsuffix => Gives.pure (.named ⟨hp, ?_⟩ ?_)
  · cases suffix with
    | none => exact fun _ => rfl
    | some f => exact fun hf => absurd hf (hsuffix f rfl)
  · cases args with
    | none => exact fun t ht => nomatch ht
    | some ts => exact hargs ts rfl

theorem gives_groupReader (h : inner.Gives Written) : (groupReader inner).Gives Written :=
  (Gives.trivial _).bind fun _ _ => h.bind fun _ ht => (Gives.trivial _).bind fun _ _ => Gives.pure ht

theorem gives_primaryReader (h : inner.Gives Written) : (primaryReader inner).Gives Written := by
  have word : ∀ w {t : Ty}, Written t → (do word w; return t : Reader Ty).Gives Written :=
    fun w t ht => (Gives.trivial _).bind fun _ _ => Gives.pure ht
  refine Gives.padded ((gives_groupReader h).orElse ?_)
  refine (word "any" .any).orElse ((word "self" .self).orElse ?_)
  refine (word "instance" .inst).orElse ((word "class" .cls).orElse ?_)
  exact (gives_varReader.bind fun _ hname => Gives.pure (.var hname)).orElse (gives_namedReader h)

/-- One member stands for itself, so a combination has more. -/
theorem written_ofMembers {combine : List Ty → Ty} {ts : List Ty}
    (hcombine : 2 ≤ ts.length → (∀ t ∈ ts, Written t) → Written (combine ts))
    (h : ts ≠ [] ∧ ∀ t ∈ ts, Written t) : Written (ofMembers combine ts) := by
  match ts, h, hcombine with
  | [], h, _ => exact absurd rfl h.1
  | [t], h, _ => exact h.2 t (List.mem_singleton_self t)
  | t :: u :: ts, h, hcombine => exact hcombine (by simp) h.2

theorem gives_interReader (h : inner.Gives Written) : (interReader inner).Gives Written :=
  ((gives_primaryReader h).sepBy1 _).bind fun _ hts => Gives.pure (written_ofMembers .inter hts)

theorem gives_unionReader (h : inner.Gives Written) : (unionReader inner).Gives Written :=
  ((gives_interReader h).sepBy1 _).bind fun _ hts => Gives.pure (written_ofMembers .union hts)

theorem gives_levelReader (depth : Nat) : (levelReader depth).Gives Written := by
  induction depth with
  | zero => exact Gives.fail
  | succ depth ih => exact gives_unionReader ih

theorem gives_reader : reader.Gives Written := Gives.bounded gives_levelReader

theorem written_of_read {source : String} {t : Ty} (h : read source = .ok t) : t.Written :=
  gives_reader.readAll h

end Ty

end MixinTypes
