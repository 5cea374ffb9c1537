import MixinTypes.Proofs.Reading.Written

/-!
# Written names read back

What follows a name decides where it ends. The text of a path is read back when neither an identifier
character nor a colon comes next (`run_path`), that of a variable when no identifier character does
(`run_varReader`), and a suffix when none does after blanks (`run_suffixReader`), since the word
`constructor` may stand after blanks.
-/

namespace MixinTypes

open Text Reader

/-! ## Characters -/

namespace Text

theorem isIdentChar_of_isIdentStart {c : Char} (h : isIdentStart c = true) : isIdentChar c = true := by
  simp only [isIdentStart, Bool.or_eq_true] at h
  simp only [isIdentChar, Char.isAlphanum, Bool.or_eq_true]
  exact h.imp_left .inl

theorem isIdentStart_of_isConstantStart {c : Char} (h : isConstantStart c = true) :
    isIdentStart c = true := by
  simp only [isConstantStart, Bool.or_eq_true] at h
  change (c.isUpper || c.isLower || c == '_') = true
  simp only [Bool.or_eq_true]
  exact h.imp_left .inl

theorem isIdentChar_eq_false_of_isLayout {c : Char} (h : isLayout c = true) : isIdentChar c = false := by
  simp only [isLayout, Bool.or_eq_true, decide_eq_true_eq] at h
  rcases h with ((rfl | rfl) | rfl) | rfl <;> decide

theorem isLayout_eq_false_of_isIdentChar {c : Char} (h : isIdentChar c = true) : isLayout c = false := by
  cases hc : isLayout c with
  | false => rfl
  | true => exact Bool.noConfusion (h.symm.trans (isIdentChar_eq_false_of_isLayout hc))

end Text

/-! ## Paths -/

section Paths

variable {tail : List Char}

theorem run_identifier {name : List Char} (h : IsIdentifier name)
    (htail : ∀ c ∈ tail.head?, isIdentChar c = false) :
    identifier.run (name ++ tail) = .ok (name, tail) := by
  obtain ⟨c, rest, rfl, hc, hrest⟩ := h
  have hfirst : (satisfy isIdentStart).run (c :: (rest ++ tail)) = .ok (c, rest ++ tail) := by
    simp [satisfy, hc]
  exact (run_bind hfirst).trans (run_bind (run_takeWhile hrest htail))

theorem run_constant {name : List Char} (h : IsConstant name)
    (htail : ∀ c ∈ tail.head?, isIdentChar c = false) :
    constant.run (name ++ tail) = .ok (name, tail) :=
  run_filter (run_identifier h.1 htail) h.2

theorem run_varReader {name : String} (h : IsIdentifier name.toList)
    (htail : ∀ c ∈ tail.head?, isIdentChar c = false) :
    Ty.varReader.run ('\x27' :: name.toList ++ tail) = .ok (name, tail) := by
  refine (run_bind (run_char _ _)).trans ((run_bind (run_identifier h htail)).trans ?_)
  rw [String.ofList_toList]
  rfl

/-- A constant starts with an uppercase letter or an underscore. -/
theorem Text.IsConstant.exists_cons {name : List Char} (h : IsConstant name) :
    ∃ c rest, name = c :: rest ∧ isConstantStart c = true := by
  obtain ⟨⟨c, rest, rfl, -, -⟩, hc⟩ := h
  exact ⟨c, rest, rfl, by simpa using hc⟩

theorem intercalate_cons {α : Type} (sep x : List α) (xs : List (List α)) :
    sep.intercalate (x :: xs) = x ++ xs.flatMap (sep ++ ·) := by
  induction xs generalizing x with
  | nil => simp
  | cons y xs ih =>
    rw [List.intercalate_cons_cons, ih, List.flatMap_cons, List.append_assoc, List.append_assoc]

theorem separator_not_isPrefix (h : ∀ c ∈ tail.head?, c ≠ ':') : ¬ "::".toList <+: tail := by
  rintro ⟨rest, rfl⟩
  exact h ':' rfl rfl

theorem Path.Written.exists_segments {p : Path} (hp : p.Written) :
    ∃ s segs, p.segments.map String.toList = s :: segs ∧ ∀ t ∈ s :: segs, IsConstant t := by
  cases hs : p.segments with
  | nil => exact absurd hs hp.1
  | cons s segs =>
    refine ⟨s.toList, segs.map String.toList, rfl, ?_⟩
    rw [← List.map_cons (f := String.toList), ← hs]
    intro t ht
    obtain ⟨u, hu, rfl⟩ := List.mem_map.mp ht
    exact hp.2 u hu

/-- Constants between double colons are read up to where something else comes. -/
theorem run_segments {s : List Char} {segs : List (List Char)} (h : ∀ t ∈ s :: segs, IsConstant t)
    (htail : ∀ c ∈ tail.head?, isIdentChar c = false ∧ c ≠ ':') :
    (sepBy1 (text "::") constant).run ("::".toList.intercalate (s :: segs) ++ tail) =
      .ok (s :: segs, tail) := by
  let state (ts : List (List Char)) := ts.flatMap ("::".toList ++ ·) ++ tail
  have hstate : ∀ ts, ∀ c ∈ (state ts).head?, isIdentChar c = false := by
    intro ts c hc
    cases ts with
    | nil => exact (htail c hc).1
    | cons t ts => exact Option.some.inj hc ▸ by decide
  have hcons : ∀ t ts, state (t :: ts) = "::".toList ++ (t ++ state ts) := by
    intro t ts
    simp only [state, List.flatMap_cons, List.append_assoc]
  obtain ⟨hs, hsegs⟩ := List.forall_mem_cons.mp h
  have hfirst : constant.run (s ++ state segs) = .ok (s, state segs) := run_constant hs (hstate segs)
  have hmore : moreOf (text "::") constant (state segs) = (segs, tail) := by
    refine moreOf_eq state segs (fun t ht ts => ?_) (fun t ts => ?_) ?_
    · rw [hcons]
      exact (run_bind (run_text _ _)).trans (run_constant (hsegs t ht) (hstate ts))
    · rw [hcons]
      simp
      omega
    · exact (refuses_text (separator_not_isPrefix fun c hc => (htail c hc).2)).bind
  rw [intercalate_cons, List.append_assoc, run_sepBy1 _ hfirst, hmore]

theorem run_path {p : Path} (hp : p.Written)
    (htail : ∀ c ∈ tail.head?, isIdentChar c = false ∧ c ≠ ':') :
    path.run (p.toChars ++ tail) = .ok (p, tail) := by
  obtain ⟨s, segs, hsegs, hconst⟩ := hp.exists_segments
  have hread := run_segments hconst htail
  have hp' : (s :: segs).map String.ofList = p.segments := by
    rw [← hsegs, Path.map_ofList_map_toList]
  obtain ⟨segments, absolute⟩ := p
  rw [Path.toChars, hsegs]
  cases absolute with
  | true =>
    refine (run_bind (run_optional (run_text "::" _))).trans ((run_bind hread).trans ?_)
    exact congrArg (fun l => (.ok (⟨l, true⟩, tail) : Outcome Path)) hp'
  | false =>
    have hno : (text "::").Refuses ("::".toList.intercalate (s :: segs) ++ tail) := by
      obtain ⟨c, rest, rfl, hc⟩ := (hconst s (List.mem_cons_self ..)).exists_cons
      refine refuses_text (separator_not_isPrefix fun d hd => ?_)
      rw [intercalate_cons] at hd
      obtain rfl : c = d := Option.some.inj hd
      rintro rfl
      exact absurd hc (by decide)
    refine (run_bind hno.run_optional).trans ((run_bind hread).trans ?_)
    exact congrArg (fun l => (.ok (⟨l, false⟩, tail) : Outcome Path)) hp'

/-- The text of a path starts with a colon or a constant. -/
theorem Path.Written.exists_cons {p : Path} (hp : p.Written) :
    ∃ c rest, p.toChars = c :: rest ∧ (c = ':' ∨ isConstantStart c = true) := by
  obtain ⟨s, segs, hsegs, hconst⟩ := hp.exists_segments
  rw [Path.toChars, hsegs]
  split
  · exact ⟨':', _, rfl, .inl rfl⟩
  · obtain ⟨c, rest, rfl, hc⟩ := (hconst s (List.mem_cons_self ..)).exists_cons
    rw [intercalate_cons]
    exact ⟨c, _, rfl, .inr hc⟩

end Paths

/-! ## Suffixes -/

theorem refuses_word_of_head {w : String} {c : Char} {cs : List Char} (hw : w.toList.head? = some c)
    (h : cs.head? ≠ some c) : (word w).Refuses cs := by
  refine refuses_word fun hprefix => h ?_
  obtain ⟨rest, rfl⟩ := hprefix
  rw [List.head?_append, hw]
  rfl

theorem head?_of_skip {P : Char → Prop} (hblank : ∀ c, isLayout c = true → P c) {cs : List Char}
    (h : ∀ c ∈ (skip cs).head?, P c) : ∀ c ∈ cs.head?, P c := by
  cases cs with
  | nil => exact fun c hc => nomatch hc
  | cons d cs =>
    intro c hc
    obtain rfl := Option.some.inj hc
    by_cases hd : isLayout d = true
    · exact hblank d hd
    · rw [skip, List.dropWhile_cons_of_neg hd] at h
      exact h d rfl

section Suffixes

variable {mid tail : List Char}

theorem run_suffixReader_module (htail : ∀ c ∈ tail.head?, isIdentChar c = false) :
    Ty.suffixReader.run ('.' :: ("module".toList ++ tail)) = .ok (.moduleObject, tail) :=
  (run_bind (run_char '.' _)).trans (run_orElse (run_bind (run_word "module" htail)))

theorem refuses_module_suffix (tail : List Char) :
    (do word "module"; return Facet.moduleObject : Reader Facet).Refuses ("class".toList ++ tail) :=
  (refuses_word_of_head (c := 'm') rfl (by simp)).bind

theorem run_suffixReader_class (htail : ∀ c ∈ (skip tail).head?, isIdentChar c = false) :
    Ty.suffixReader.run ('.' :: ("class".toList ++ tail)) = .ok (.classObject false, tail) := by
  have hend : ∀ c ∈ tail.head?, isIdentChar c = false :=
    head?_of_skip (fun _ => isIdentChar_eq_false_of_isLayout) htail
  have hno : (do blanks; word "constructor" : Reader Unit).Refuses tail := by
    refine refuses_bind (run_blanks tail) (refuses_word_of_head (c := 'c') rfl fun h => ?_)
    exact absurd (htail 'c' h) (by decide)
  refine (run_bind (run_char '.' _)).trans ((refuses_module_suffix tail).run_orElse.trans ?_)
  exact (run_bind (run_word "class" hend)).trans (run_bind hno.run_optional)

theorem run_suffixReader_constructor (hclass : ∀ c ∈ mid.head?, isIdentChar c = false)
    (hmid : skip mid = "constructor".toList ++ tail) (htail : ∀ c ∈ tail.head?, isIdentChar c = false) :
    Ty.suffixReader.run ('.' :: ("class".toList ++ mid)) = .ok (.classObject true, tail) := by
  have hyes : (do blanks; word "constructor" : Reader Unit).run mid = .ok ((), tail) :=
    (run_bind (run_blanks mid)).trans (hmid ▸ run_word "constructor" htail)
  refine (run_bind (run_char '.' _)).trans ((refuses_module_suffix mid).run_orElse.trans ?_)
  exact (run_bind (run_word "class" hclass)).trans (run_bind (run_optional hyes))

theorem run_suffixReader {f : Facet} (hf : Nominal.suffix f ≠ [])
    (htail : ∀ c ∈ (skip tail).head?, isIdentChar c = false) :
    Ty.suffixReader.run (Nominal.suffix f ++ tail) = .ok (f, tail) := by
  have hend : ∀ c ∈ tail.head?, isIdentChar c = false :=
    head?_of_skip (fun _ => isIdentChar_eq_false_of_isLayout) htail
  cases f with
  | instances => exact absurd rfl hf
  | protocol => exact absurd rfl hf
  | moduleObject => exact run_suffixReader_module hend
  | classObject constructs =>
    cases constructs with
    | false => exact run_suffixReader_class htail
    | true =>
      have hblank : ∀ c ∈ (" constructor".toList ++ tail).head?, isIdentChar c = false :=
        fun c hc => Option.some.inj hc ▸ by decide
      exact run_suffixReader_constructor hblank rfl hend

end Suffixes

end MixinTypes
