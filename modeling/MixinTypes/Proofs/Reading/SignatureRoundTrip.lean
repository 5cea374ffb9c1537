import MixinTypes.Proofs.Reading.Derivation
import MixinTypes.Proofs.Reading.WrittenSignature
import MixinTypes.World.Basic

/-!
# Rendered overloads read back

A signature is read back from its text when its types are. Of the ways to write a parameter the reader tries the
marked ones first and a type alone last, so each way is refused by what the ones before it start with, and a
type is not taken for a label: its text starts with no lowercase letter or is one word with no colon behind it.

1. A parameter is read back (`reaches_param`), and so are the parts of a signature, in their order
   (`run_reader`).
2. The overload of a signature that was read has the text of a signature that lists its parameters group by
   group. That signature is read back, and sorting its list gives the overload again
   (`World.read_render_overload`).
-/

namespace MixinTypes

open Text Reader

/-! ## Labels -/

namespace Text

theorem isLower_eq_false_of_isConstantStart {c : Char} (h : isConstantStart c = true) : c.isLower = false := by
  simp only [isConstantStart, Bool.or_eq_true, beq_iff_eq] at h
  rcases h with h | rfl
  · have hupper : c.val ≥ 'A'.val ∧ c.val ≤ 'Z'.val := of_decide_eq_true h
    have hbelow : ¬ 'a'.val ≤ c.val := fun h' => absurd (UInt32.le_trans h' hupper.2) (by decide)
    exact Bool.and_eq_false_iff.mpr (.inl (decide_eq_false hbelow))
  · decide

/-- A character with a property that the marks of a parameter do not have is none of them. -/
theorem not_mem_marks {P : Char → Prop} {c : Char} (hstar : ¬ P '*') (hquestion : ¬ P '?') (hc : P c) :
    c ∉ ['*', '?'] := by
  have hmarks : ∀ d ∈ ['*', '?'], ¬ P d :=
    List.forall_mem_cons.mpr ⟨hstar, List.forall_mem_singleton.mpr hquestion⟩
  exact fun hmem => hmarks c hmem hc

/-- A label starts with a lowercase letter, so with no blank and no mark of a parameter. -/
theorem IsLabel.head? {name : List Char} (h : IsLabel name) (tail : List Char) :
    ∃ c, (name ++ tail).head? = some c ∧ isLayout c = false ∧ c ∉ ['*', '?'] := by
  obtain ⟨⟨c, rest, rfl, hstart, -⟩, -⟩ := h
  exact ⟨c, rfl, isLayout_eq_false_of_isIdentChar (isIdentChar_of_isIdentStart hstart),
    not_mem_marks (P := fun d => isIdentStart d = true) (by decide) (by decide) hstart⟩

namespace Reader

variable {cs tail name : List Char}

theorem run_label (h : IsLabel name) (htail : ∀ c ∈ tail.head?, isIdentChar c = false) :
    label.run (name ++ tail) = .ok (name, tail) :=
  run_filter (run_identifier h.1 htail) h.2

theorem refuses_label (h : ∀ c ∈ cs.head?, c.isLower = false) : label.Refuses cs := by
  rcases refuses_or_run label cs with hno | ⟨name, rest, hrun⟩
  · exact hno
  · obtain ⟨hident, hlower⟩ := of_run_filter hrun
    obtain ⟨rfl, c, ds, rfl, -, -⟩ := of_run_identifier hident
    exact Bool.noConfusion ((h c rfl).symm.trans (by simpa using hlower))

end Reader

end Text

namespace Signature

variable {t : Ty} {cs ds rest tail : List Char} {more : List Char}

theorem run_labelReader {name : String} (h : IsLabel name.toList)
    (hcs : skip cs = name.toList ++ ':' :: ' ' :: rest) : labelReader.run cs = .ok (name, ' ' :: rest) := by
  have hname : label.run (skip cs) = .ok (name.toList, ':' :: ' ' :: rest) :=
    hcs ▸ run_label h fun c hc => Option.some.inj hc ▸ by decide
  refine (run_bind (run_padded hname)).trans ((run_bind (run_char ':' _)).trans ?_)
  exact congrArg (fun n => (.ok (n, ' ' :: rest) : Outcome String)) String.ofList_toList

/-- A written type starts with no lowercase letter, or it is a word that could be a label. -/
theorem label_or_head (ht : t.Written) :
    IsLabel t.toChars ∨ ∃ c, t.toChars.head? = some c ∧ c.isLower = false := by
  have word : ∀ (c : Char) (rest : List Char), c.isLower = true → isIdentStart c = true →
      rest.all isIdentChar = true → IsLabel (c :: rest) :=
    fun c rest hlower hstart hrest => ⟨⟨c, rest, rfl, hstart, List.all_eq_true.mp hrest⟩, by simpa using hlower⟩
  cases ht with
  | any => exact .inl (word 'a' ['n', 'y'] rfl rfl rfl)
  | self => exact .inl (word 's' ['e', 'l', 'f'] rfl rfl rfl)
  | inst => exact .inl (word 'i' ['n', 's', 't', 'a', 'n', 'c', 'e'] rfl rfl rfl)
  | cls => exact .inl (word 'c' ['l', 'a', 's', 's'] rfl rfl rfl)
  | var _ => exact .inr ⟨_, rfl, by decide⟩
  | union _ _ => exact .inr ⟨_, rfl, by decide⟩
  | inter _ _ => exact .inr ⟨_, rfl, by decide⟩
  | @named n args hn _ =>
    obtain ⟨c, hhead, hc⟩ := Ty.exists_path_start hn args
    exact .inr ⟨c, hhead, hc.elim (fun e => e ▸ by decide) isLower_eq_false_of_isConstantStart⟩

/-- A type is not read as a label when no colon follows it. -/
theorem refuses_labelReader (ht : t.Written) (hcs : skip cs = skip (t.toChars ++ tail))
    (htail : Ty.Ends more tail) : labelReader.Refuses cs := by
  rw [ht.skip_append] at hcs
  rcases label_or_head ht with hlabel | ⟨c, hhead, hc⟩
  · have hname : label.run (skip cs) = .ok (t.toChars, tail) := hcs ▸ run_label hlabel htail.head?
    refine refuses_bind (run_padded hname) (refuses_char fun e => ?_).bind
    exact (htail ':' e).2.1 (by decide)
  · refine (Refuses.padded (refuses_label fun d hd => ?_)).bind
    rw [hcs, List.head?_append, hhead] at hd
    exact Option.some.inj hd ▸ hc

/-! ## Parameters -/

/-- A written type that is read back from its text. -/
def Readable (t : Ty) : Prop := t.Written ∧ t.appliesObject = false

theorem Readable.reads (h : Readable t) : Ty.Reads Ty.reader ['&', '|'] t := Ty.reads_reader h.1 h.2

/-- The parameters that start with no mark. -/
def unmarkedReader : Reader Param :=
  (do return .keyword (← labelReader) (← Ty.reader)) <|> (do return .required (← Ty.reader))

/-- The parameters that start with no star. -/
def unstarredReader : Reader Param :=
  (do char '?'; return .optionalKeyword (← labelReader) (← Ty.reader))
    <|> (do char '?'; return .optional (← Ty.reader))
    <|> unmarkedReader

/-- The parameters without the blanks around them. -/
def bareReader : Reader Param :=
  (do text "**"; return .restKeywords (← Ty.reader))
    <|> (do char '*'; return .rest (← Ty.reader))
    <|> unstarredReader

theorem paramReader_eq : paramReader = padded bareReader := rfl

theorem run_bareReader (h : cs.head? ≠ some '*') : bareReader.run cs = unstarredReader.run cs := by
  have htext : ¬ "**".toList <+: cs := by
    rintro ⟨rest, rfl⟩
    exact h rfl
  exact (refuses_text htext).bind.run_orElse.trans (refuses_char h).bind.run_orElse

theorem run_unstarredReader (h : cs.head? ≠ some '?') : unstarredReader.run cs = unmarkedReader.run cs :=
  (refuses_char h).bind.run_orElse.trans (refuses_char h).bind.run_orElse

/-- The text of a written type starts with no blank and no mark of a parameter either. -/
theorem head?_toChars (ht : t.Written) (tail : List Char) :
    ∃ c, (t.toChars ++ tail).head? = some c ∧ isLayout c = false ∧ c ∉ ['*', '?'] := by
  cases ht with
  | @named n args hn _ =>
    obtain ⟨c, hhead, hc⟩ := Ty.exists_path_start hn args
    refine ⟨c, ?_, (Ty.not_blank_of_path_start hc).1,
      not_mem_marks (P := fun d => d = ':' ∨ isConstantStart d = true) (by decide) (by decide) hc⟩
    rw [List.head?_append, hhead]
    rfl
  | _ => exact ⟨_, rfl, by decide, by decide⟩

/-- The text of a parameter does not start with a blank. -/
theorem skip_param {p : Param} (hp : p.Spelled Readable) (tail : List Char) :
    skip (p.toChars ++ tail) = p.toChars ++ tail := by
  cases p with
  | required t => exact hp.1.skip_append tail
  | keyword name t =>
    obtain ⟨c, hhead, hc, -⟩ := hp.1.head? (':' :: ' ' :: t.toChars ++ tail)
    rw [Param.toChars, List.append_assoc]
    exact skip_of_head? hhead hc
  | _ => exact skip_of_head? rfl rfl

/-- What starts with no mark is a label with a type, or a type. -/
theorem run_unmarked {c : Char} (hc : cs.head? = some c) (hne : c ∉ ['*', '?']) :
    bareReader.run cs = unmarkedReader.run cs := by
  have head : ∀ {d}, d ∈ ['*', '?'] → cs.head? ≠ some d :=
    fun hd e => hne (Option.some.inj (hc.symm.trans e) ▸ hd)
  exact (run_bareReader (head (by decide))).trans (run_unstarredReader (head (by decide)))

/-- A label and a type are read back from their text. -/
theorem run_labelled (make : String → Ty → Param) {name : String} (hname : IsLabel name.toList)
    (ht : Readable t) (htail : Ty.Ends ['&', '|'] tail) :
    (do return make (← labelReader) (← Ty.reader) : Reader Param).run
      (name.toList ++ ':' :: ' ' :: t.toChars ++ tail) = .ok (make name t, skip tail) := by
  obtain ⟨c, hhead, hc, -⟩ := hname.head? (':' :: ' ' :: t.toChars ++ tail)
  rw [List.append_assoc]
  refine (run_bind (run_labelReader hname (skip_of_head? hhead hc))).trans ?_
  exact run_bind (ht.reads _ tail rfl htail)

/-- A parameter is read back from its text. -/
theorem reaches_param {p : Param} (hp : p.Spelled Readable) (tail : List Char) :
    Ty.Reaches paramReader ['&', '|'] p (p.toChars ++ tail) tail := by
  intro ds hds htail
  have htype : ∀ {u : Ty} {cs : List Char}, Readable u → skip cs = skip (u.toChars ++ tail) →
      Ty.reader.run cs = .ok (u, skip tail) := fun hu hcs => hu.reads _ tail hcs htail
  rw [paramReader_eq, ← skip_skip tail]
  refine run_padded ?_
  rw [hds, skip_param hp]
  cases p with
  | restKeywords t => exact run_orElse ((run_bind (run_text "**" _)).trans (run_bind (htype hp rfl)))
  -- One star is no two: the type behind it starts with none.
  | rest t =>
    have hno : ¬ "**".toList <+: '*' :: (t.toChars ++ tail) := by
      obtain ⟨c, hhead, -, hc⟩ := head?_toChars hp.1 tail
      rintro ⟨rest, e⟩
      obtain rfl : '*' = c := by
        rw [← (List.cons.inj e).2] at hhead
        exact Option.some.inj hhead
      exact hc (by decide)
    refine (refuses_text hno).bind.run_orElse.trans ?_
    exact run_orElse ((run_bind (run_char '*' _)).trans (run_bind (htype hp rfl)))
  | optionalKeyword name t =>
    refine (run_bareReader (by simp [Param.toChars])).trans (run_orElse ((run_bind (run_char '?' _)).trans ?_))
    exact run_labelled .optionalKeyword hp.1 hp.2 htail
  | optional t =>
    refine (run_bareReader (by simp [Param.toChars])).trans ?_
    have hlabel : (do char '?'; return .optionalKeyword (← labelReader) (← Ty.reader) : Reader Param).Refuses
        ('?' :: (t.toChars ++ tail)) :=
      refuses_bind (run_char '?' _) (refuses_labelReader hp.1 rfl htail).bind
    refine hlabel.run_orElse.trans (run_orElse ?_)
    exact (run_bind (run_char '?' _)).trans (run_bind (htype hp rfl))
  | keyword name t =>
    obtain ⟨c, hhead, -, hc⟩ := hp.1.head? (':' :: ' ' :: t.toChars ++ tail)
    have hhead : ((Param.keyword name t).toChars ++ tail).head? = some c := by
      rwa [Param.toChars, List.append_assoc]
    exact (run_unmarked hhead hc).trans (run_orElse (run_labelled .keyword hp.1 hp.2 htail))
  | required t =>
    obtain ⟨c, hhead, -, hc⟩ := head?_toChars hp.1 tail
    refine (run_unmarked hhead hc).trans ?_
    have hlabel : (do return .keyword (← labelReader) (← Ty.reader) : Reader Param).Refuses
        (t.toChars ++ tail) := (refuses_labelReader hp.1 rfl htail).bind
    exact hlabel.run_orElse.trans (run_bind (htype hp rfl))

/-! ## Signatures -/

theorem refuses_paramReader (tail : List Char) : paramReader.Refuses (')' :: tail) := by
  have htype : Ty.reader.Refuses (')' :: tail) := Ty.refuses_reader rfl rfl (by decide) tail
  have hlabel : label.Refuses (skip (')' :: tail)) := refuses_label fun c hc => Option.some.inj hc ▸ by decide
  obtain ⟨stop, hstop⟩ : unmarkedReader.Refuses (')' :: tail) := hlabel.padded.bind.bind.orElse htype.bind
  refine Refuses.padded ⟨stop, ?_⟩
  exact (run_unmarked rfl (by decide)).trans hstop

/-- Parameters that are read back one by one are read back in their parentheses. -/
theorem run_paramsReader {ps : List Param} (h : ∀ p ∈ ps, p.Spelled Readable)
    (hds : skip ds = skip (paramsChars ps ++ tail)) : paramsReader.run ds = .ok (ps, skip tail) := by
  have hlist : (sepBy (padded (char ',')) paramReader).run
      (skip ([',', ' '].intercalate (ps.map Param.toChars) ++ ')' :: tail)) = .ok (ps, ')' :: tail) := by
    cases ps with
    | nil => exact (refuses_paramReader tail).sepBy1.run_orElse
    | cons p ps =>
      exact run_orElse (Ty.reaches_members Param.toChars Ty.separates_comma (by decide) (List.cons_ne_nil p ps)
        (fun q hq => reaches_param (h q hq)) _ _ (skip_skip _) (Ty.Ends.cons rfl (by decide) tail))
  have hopen : (padded (char '(')).run ds =
      .ok ((), skip ([',', ' '].intercalate (ps.map Param.toChars) ++ ')' :: tail)) := by
    refine run_padded ?_
    rw [hds, paramsChars, List.append_assoc]
    exact run_char '(' _
  exact (run_bind hopen).trans
    ((run_bind hlist).trans (run_bind (run_padded (run_char ')' _))))

/-- The type after an arrow is read back. -/
theorem reaches_returnsReader (ht : Readable t) (tail : List Char) :
    Ty.Reaches returnsReader ['&', '|'] t (returnsChars t ++ tail) tail := by
  intro ds hds htail
  have harrow : (padded (text "->")).run ds = .ok ((), skip (' ' :: (t.toChars ++ tail))) := by
    refine run_padded ?_
    rw [hds]
    exact run_text "->" _
  exact (run_bind harrow).trans (ht.reads _ tail (skip_skip _) htail)

theorem run_typeParamsReader {name : String} {names : List String}
    (h : ∀ n ∈ name :: names, IsIdentifier n.toList)
    (hds : skip ds = skip (typeParamsChars (name :: names) ++ tail)) :
    typeParamsReader.run ds = .ok (name :: names, skip tail) := by
  let chars (n : String) : List Char := '\x27' :: n.toList
  have hvar : ∀ n ∈ name :: names, ∀ tail, Ty.Reaches (padded Ty.varReader) [] n (chars n ++ tail) tail := by
    intro n hn tail ds hds htail
    refine run_padded ?_
    rw [hds]
    exact run_varReader (h n hn) htail.head?
  have hopen : (padded (char '<')).run ds =
      .ok ((), skip ([',', ' '].intercalate ((name :: names).map chars) ++ '>' :: ' ' :: tail)) := by
    refine run_padded ?_
    rw [hds, typeParamsChars, List.append_assoc]
    exact run_char '<' _
  have hlist := Ty.reaches_members chars Ty.separates_comma (by decide) (List.cons_ne_nil name names) hvar
    ('>' :: ' ' :: tail) _ (skip_skip _) (Ty.Ends.cons rfl (by decide) (' ' :: tail))
  change typeParamsReader.run ds = .ok (name :: names, skip (' ' :: tail))
  exact (run_bind hopen).trans ((run_bind hlist).trans (run_bind (run_padded (run_char '>' _))))

theorem run_blockReader {b : BlockSignature} (hparams : ∀ p ∈ b.params, p.Spelled Readable)
    (hreturns : Readable b.returns) (hds : skip ds = skip (blockChars (some b) ++ tail)) :
    blockReader.run ds = .ok (b, skip tail) := by
  let close := ' ' :: '\x7d' :: tail
  have hopen : (padded (char '\x7b')).run ds =
      .ok ((), skip (' ' :: (paramsChars b.params ++ (returnsChars b.returns ++ close)))) := by
    refine run_padded ?_
    rw [hds, blockChars, List.append_assoc, List.append_assoc]
    exact run_char '\x7b' _
  have hinside := run_paramsReader hparams (skip_skip (' ' :: (paramsChars b.params ++
    (returnsChars b.returns ++ close))))
  have hresult := reaches_returnsReader hreturns close _ (skip_skip _)
    (Ty.Ends.of_head? (c := '\x7d') rfl (by decide))
  exact (run_bind hopen).trans ((run_bind (run_optional hinside)).trans
    ((run_bind hresult).trans (run_bind (run_padded (run_char '\x7d' _)))))

/-- Type parameters are read back, also when there are none. -/
theorem run_optional_typeParamsReader {names : List String} (h : ∀ n ∈ names, IsIdentifier n.toList)
    (htail : (skip tail).head? = some '(') (hds : skip ds = skip (typeParamsChars names ++ tail)) :
    ∃ o mid, (optional typeParamsReader).run ds = .ok (o, mid) ∧ o.getD [] = names ∧ skip mid = skip tail := by
  cases names with
  | nil =>
    refine ⟨none, ds, Refuses.run_optional (Refuses.padded (refuses_char ?_)).bind, rfl, hds⟩
    rw [hds]
    exact fun e => absurd (htail.symm.trans e) (by decide)
  | cons name names => exact ⟨_, _, run_optional (run_typeParamsReader h hds), rfl, skip_skip tail⟩

/-- A block is read back, also when there is none. -/
theorem run_optional_blockReader {o : Option BlockSignature}
    (h : ∀ b ∈ o, (∀ p ∈ b.params, p.Spelled Readable) ∧ Readable b.returns)
    (htail : (skip tail).head? = some '-') (hds : skip ds = skip (blockChars o ++ tail)) :
    ∃ mid, (optional blockReader).run ds = .ok (o, mid) ∧ skip mid = skip tail := by
  cases o with
  | none =>
    refine ⟨ds, Refuses.run_optional (Refuses.padded (refuses_char ?_)).bind, hds⟩
    rw [hds]
    exact fun e => absurd (htail.symm.trans e) (by decide)
  | some b => exact ⟨_, run_optional (run_blockReader (h b rfl).1 (h b rfl).2 hds), skip_skip tail⟩

/-- A signature is read back from its text, but for what it covers. -/
theorem run_reader {s : Signature} (h : s.Spelled Readable) (extent : Extent) :
    (reader extent).run (skip s.toChars) = .ok ({ s with extent := extent }, []) := by
  let afterParams := blockChars s.block ++ returnsChars s.returns
  have hstart : skip (skip s.toChars) =
      skip (typeParamsChars s.typeParams ++ (paramsChars s.params ++ afterParams)) := by
    simp [toChars, afterParams]
  obtain ⟨o, mid, htypeParams, hnames, hmid⟩ := run_optional_typeParamsReader h.typeParams (by rfl) hstart
  have hparams : (optional paramsReader).run mid = .ok (some s.params, skip afterParams) :=
    run_optional (run_paramsReader h.params hmid)
  obtain ⟨next, hblock, hnext⟩ := run_optional_blockReader h.block (by rfl) (skip_skip afterParams)
  have hreturns : returnsReader.run next = .ok (s.returns, skip []) :=
    reaches_returnsReader h.returns [] next (by rw [hnext, List.append_nil]) (Ty.Ends.nil _)
  rw [← hnames]
  refine (run_bind htypeParams).trans ((run_bind hparams).trans ?_)
  exact (run_bind hblock).trans (run_bind hreturns)

/-- A signature whose types are read back is read back from its text. -/
theorem read_toChars {s : Signature} (h : s.Spelled Readable) :
    read (String.ofList s.toChars) = .ok { s with extent := ⟨0, byteLength s.toChars⟩ } := by
  have hchars : (String.ofList s.toChars).toList = s.toChars := String.toList_ofList
  refine readAll_eq_ok_iff.mpr ⟨[], ?_, rfl⟩
  rw [hchars]
  exact run_reader h _

end Signature

/-! ## Overloads -/

theorem Ty.readable_toAbsolute {t : Ty} (hgood : t.appliesObject = false) (ht : t.Written) :
    Signature.Readable (t.mapNames Nominal.toAbsolute) :=
  ⟨ht.mapNames fun _ hn => hn.toAbsolute,
    (appliesObject_mapNames (f := Nominal.toAbsolute) (fun _ => rfl) t).trans hgood⟩

namespace Overload

/-- The names of the types are taken from the root already. -/
theorem map_toAbsolute_atRoot (s : Signature) : (atRoot s).map (Ty.mapNames Nominal.toAbsolute) = atRoot s := by
  have hidem : Ty.mapNames Nominal.toAbsolute ∘ Ty.mapNames Nominal.toAbsolute =
      Ty.mapNames Nominal.toAbsolute := funext fun t => Ty.mapNames_mapNames _ _ t
  rw [atRoot, ofSignature_eq_map, map_map, hidem]

/-- An overload at the root is that of its signature, but for what it covers. -/
theorem atRoot_toSignature (s : Signature) (extent : Extent) :
    atRoot ((atRoot s).toSignature extent) = { atRoot s with extent := extent } :=
  calc atRoot ((atRoot s).toSignature extent)
      = (ofSignature id none ((atRoot s).toSignature extent)).map (Ty.mapNames Nominal.toAbsolute) :=
        ofSignature_eq_map _ _
    _ = { (atRoot s).map (Ty.mapNames Nominal.toAbsolute) with extent := extent } := by
        rw [ofSignature_toSignature]
        rfl
    _ = { atRoot s with extent := extent } := by rw [map_toAbsolute_atRoot]

end Overload

/-- The overload of a signature that was read, with its names taken from the root, is read back from its text:
as a signature with the same overload, but for what it covers. -/
theorem World.read_render_overload (w : World) {source : String} {s : Signature}
    (h : Signature.read source = .ok s) (hgood : ∀ t ∈ s.types true, t.appliesObject = false) :
    ∃ s', Signature.read (w.overload none none s).render = .ok s' ∧
      w.overload none none s' = { w.overload none none s with extent := s'.extent } := by
  have hspelled : ((Overload.atRoot s).toSignature .nowhere).Spelled Signature.Readable :=
    (Signature.spelled_of_read h).ofSignature (fun t ht => Ty.readable_toAbsolute (hgood t ht)) .nowhere
  have hread := Signature.read_toChars hspelled
  rw [← Overload.toChars_eq] at hread
  exact ⟨(Overload.atRoot s).toSignature _, hread, Overload.atRoot_toSignature s _⟩

/-- Parameters of all kinds in no order, a keyword that comes twice, one rest too many and a parameter behind
the last one that counts. -/
theorem World.read_render_overload_grouped :
    let w : World := ⟨.empty, .standard⟩
    let source := "<'a>(*any, A, any: self, ?b : A|B, any: _E<'a>, ?A, *'a, **instance, B) \x7b(B)->any\x7d->A<'a>"
    ∃ s s', Signature.read source = .ok s ∧
      (w.overload none none s).render =
        "<'a> (::A, ?::A, *'a, any: ::_E<'a>, ?b: (::A | ::B), **instance) \x7b (::B) -> any \x7d -> ::A<'a>" ∧
      Signature.read (w.overload none none s).render = .ok s' ∧
      w.overload none none s' = { w.overload none none s with extent := s'.extent } := by
  intro w source
  let plain (name : String) : Ty := .ofPath ⟨[name], false⟩ []
  let s : Signature :=
    { typeParams := ["a"]
      params := [.rest .any, .required (plain "A"), .keyword "any" .self,
        .optionalKeyword "b" (.union [plain "A", plain "B"]),
        .keyword "any" (.named ⟨.protocol, ⟨["_E"], false⟩⟩ [.var "a"]), .optional (plain "A"),
        .rest (.var "a"), .restKeywords .inst, .required (plain "B")]
      block := some ⟨[.required (plain "B")], .any⟩
      returns := .ofPath ⟨["A"], false⟩ [.var "a"]
      extent := ⟨0, 89⟩ }
  have hread : Signature.read source = .ok s := eq_ok_of_toOption_eq_some (by decide +kernel)
  obtain ⟨s', hagain, hsame⟩ := read_render_overload w hread (by decide +kernel)
  exact ⟨s, s', hread, by decide +kernel, hagain, hsame⟩

end MixinTypes
