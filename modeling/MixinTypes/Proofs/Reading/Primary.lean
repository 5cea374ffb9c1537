import MixinTypes.Proofs.Reading.Members

/-!
# Primary types read back

The text of a primary type starts like no other one, so the choice of the reader is clear. Words and
variables are then read back whatever is inside. Names and groups depend on their members:

1. a name without suffix is read back with its arguments (`reads_named_cons`), one without arguments with its
   suffix (`reads_named_nil`), and where the arguments are not read the reader stops in front of them
   (`stalls_named`);
2. a group is read back when its content is (`reads_group`), and not read at all when something that cannot
   close it is left of the content (`stalls_group`).
-/

namespace MixinTypes.Ty

open Text Reader

/-! ## Names -/

section Names

variable {inner : Reader Ty} {n : Nominal} {args : List Ty} {cs tail : List Char}

theorem head?_suffix {f : Facet} (hf : Nominal.suffix f ≠ []) : (Nominal.suffix f).head? = some '.' := by
  cases f with
  | classObject k => cases k <;> rfl
  | moduleObject => rfl
  | _ => exact absurd rfl hf

theorem refuses_argsReader (h : (skip cs).head? ≠ some '<') : (argsReader inner).Refuses cs :=
  (Refuses.padded (refuses_char h)).bind

/-- Arguments are not read where there is a suffix. -/
theorem refuses_argsReader_suffix {f : Facet} (hf : Nominal.suffix f ≠ []) (tail : List Char) :
    (argsReader inner).Refuses (Nominal.suffix f ++ tail) := by
  have hhead : (Nominal.suffix f ++ tail).head? = some '.' := by
    rw [List.head?_append, head?_suffix hf]
    rfl
  refine refuses_argsReader ?_
  rw [skip_of_head? hhead (by decide), hhead]
  decide

/-- Where no arguments can be read, the path and the suffix are. -/
theorem run_namedReader_of_refuses (hn : n.Written)
    (hargs : (argsReader inner).Refuses (Nominal.suffix n.facet ++ tail))
    (htail : ∀ c ∈ (skip tail).head?, isIdentChar c = false ∧ c ≠ ':' ∧ c ≠ '.') :
    (namedReader inner).run (n.toChars ++ tail) = .ok (.named n [], tail) := by
  obtain ⟨facet, p⟩ := n
  have hhead : ∀ c ∈ tail.head?, isIdentChar c = false ∧ c ≠ ':' ∧ c ≠ '.' :=
    head?_of_skip (fun c hc => ⟨isIdentChar_eq_false_of_isLayout hc,
      by rintro rfl; exact Bool.noConfusion hc, by rintro rfl; exact Bool.noConfusion hc⟩) htail
  rw [Nominal.toChars, List.append_assoc]
  cases hf : Nominal.suffix facet with
  | nil =>
    have hpath := run_path (p := p) hn.1 fun c hc => ⟨(hhead c hc).1, (hhead c hc).2.1⟩
    have hsuffix : suffixReader.Refuses tail := (refuses_char fun e => (hhead '.' e).2.2 rfl).bind
    obtain rfl : facet = plainFacet p := hn.2 hf
    rw [hf] at hargs
    exact (run_bind hpath).trans ((run_bind hargs.run_optional).trans (run_bind hsuffix.run_optional))
  | cons c rest =>
    have hne : Nominal.suffix facet ≠ [] := by simp [hf]
    have hdot : c = '.' := by
      have := head?_suffix hne
      rw [hf] at this
      exact Option.some.inj this
    have hpath : path.run (p.toChars ++ (Nominal.suffix facet ++ tail)) =
        .ok (p, Nominal.suffix facet ++ tail) := run_path hn.1 fun d hd => by
      rw [hf] at hd
      obtain rfl : c = d := Option.some.inj hd
      subst hdot
      decide
    have hsuffix := run_suffixReader hne fun c hc => (htail c hc).1
    rw [← hf]
    exact (run_bind hpath).trans ((run_bind hargs.run_optional).trans (run_bind (run_optional hsuffix)))

end Names

/-! ## Brackets and operators -/

section Levels

variable {inner : Reader Ty} {t : Ty} {ts : List Ty} {cs tail bad : List Char}

/-- The text of arguments, and what comes after it. -/
def angled (args : List Ty) (tail : List Char) : List Char :=
  '<' :: ([',', ' '].intercalate (args.map toChars) ++ '>' :: tail)

theorem toChars_applied (n : Nominal) (t : Ty) (ts : List Ty) (tail : List Char) :
    (Ty.named n (t :: ts)).toChars ++ tail = n.toChars ++ angled (t :: ts) tail := by
  simp only [toChars_named_cons, angled, List.append_assoc, List.cons_append, List.nil_append]

theorem run_argsReader (h : ∀ u ∈ t :: ts, Reads inner ['&', '|'] u) (tail : List Char) :
    (argsReader inner).run (angled (t :: ts) tail) = .ok (t :: ts, skip tail) := by
  have hmembers := run_members separates_comma (by decide) h (skip_skip _)
    (Ends.cons (c := '>') (by decide) (by decide) tail)
  exact (run_bind (run_padded (run_char '<' _))).trans
    ((run_bind hmembers).trans (run_bind (run_padded (run_char '>' _))))

theorem refuses_argsReader_of_stalls (h : ∀ u ∈ t :: ts, Reads inner ['&', '|'] u ∨ Stalls inner u)
    (hstall : ∃ u ∈ t :: ts, Stalls inner u) (tail : List Char) :
    (argsReader inner).Refuses (angled (t :: ts) tail) := by
  have hmembers := leaves_members separates_comma (by decide) h hstall (skip_skip _)
    (Ends.cons (c := '>') (by decide) (by decide) tail)
  exact refuses_bind (run_padded (run_char '<' _)) (hmembers.bind_refuses fun _ =>
    (rejects_padded_char (by decide) (isLayout_eq_false_of_mem_pair rfl rfl)).bind)

theorem run_groupReader (h : inner.run (skip cs) = .ok (t, ')' :: tail)) :
    (groupReader inner).run ('(' :: cs) = .ok (t, skip tail) :=
  (run_bind (run_padded (run_char '(' _))).trans
    ((run_bind h).trans (run_bind (run_padded (run_char ')' _))))

theorem refuses_groupReader (h : inner.Leaves (skip cs) bad) (hclose : ')' ∉ bad)
    (hbad : ∀ c ∈ bad, isLayout c = false) : (groupReader inner).Refuses ('(' :: cs) :=
  refuses_bind (run_padded (run_char '(' _)) (h.bind_refuses fun _ =>
    (rejects_padded_char hclose hbad).bind)

theorem run_interReader (h : ∀ u ∈ t :: ts, Reads (primaryReader inner) [] u)
    (hcs : skip cs = skip ([' ', '&', ' '].intercalate ((t :: ts).map toChars) ++ tail))
    (htail : Ends ['&'] tail) :
    (interReader inner).run cs = .ok (ofMembers .inter (t :: ts), skip tail) :=
  run_bind (run_members (separates_char (by decide)) (by decide) h hcs htail)

theorem run_unionReader (h : ∀ u ∈ t :: ts, Reads (interReader inner) ['&'] u)
    (hcs : skip cs = skip ([' ', '|', ' '].intercalate ((t :: ts).map toChars) ++ tail))
    (htail : Ends ['|', '&'] tail) :
    (unionReader inner).run cs = .ok (ofMembers .union (t :: ts), skip tail) :=
  run_bind (run_members (separates_char (by decide)) (by decide) h hcs htail)

/-- What is not followed by a further member is read alone. -/
theorem run_unionReader_of_inter (h : (interReader inner).run cs = .ok (t, tail))
    (htail : tail.head? ≠ some '|') : (unionReader inner).run cs = .ok (t, tail) := by
  have hrun := run_sepBy1 (char '|') h
  rw [moreOf_of_refuses (refuses_char htail).bind] at hrun
  exact run_bind hrun

theorem Reads.inter (h : Reads (primaryReader inner) [] t) : Reads (interReader inner) ['&'] t := by
  intro cs tail hcs htail
  have hone : ∀ u ∈ [t], Reads (primaryReader inner) [] u := List.forall_mem_singleton.mpr h
  exact run_interReader hone (by simpa using hcs) htail

theorem Reads.union (h : Reads (primaryReader inner) [] t) :
    Reads (unionReader inner) ['&', '|'] t := by
  intro cs tail hcs htail
  refine run_unionReader_of_inter (h.inter cs tail hcs (htail.mono ?_)) (htail.not_mem (by decide))
  simp

theorem Stalls.inter (h : Stalls (primaryReader inner) t) : Stalls (interReader inner) t :=
  fun cs tail hcs => ((h cs tail hcs).sepBy1 (rejects_char (by decide))).bind_pure _

theorem Stalls.union (h : Stalls (primaryReader inner) t) : Stalls (unionReader inner) t :=
  fun cs tail hcs => ((h.inter cs tail hcs).sepBy1 (rejects_char (by decide))).bind_pure _

end Levels

/-! ## Primary types -/

section Primary

variable {inner : Reader Ty} {t : Ty} {cs tail : List Char}

theorem not_blank_of_path_start {c : Char} (hc : c = ':' ∨ isConstantStart c = true) :
    isLayout c = false ∧ c ∉ ['(', 'a', 's', 'i', 'c', '\x27'] := by
  rcases hc with rfl | hc
  · decide
  · refine ⟨isLayout_eq_false_of_isIdentChar
      (isIdentChar_of_isIdentStart (isIdentStart_of_isConstantStart hc)), fun hmem => ?_⟩
    simp only [List.mem_cons, List.not_mem_nil, or_false] at hmem
    rcases hmem with rfl | rfl | rfl | rfl | rfl | rfl <;> exact absurd hc (by decide)

/-- The text of a written name starts like its path. -/
theorem exists_path_start {n : Nominal} (hn : n.Written) (args : List Ty) :
    ∃ c, (Ty.named n args).toChars.head? = some c ∧ (c = ':' ∨ isConstantStart c = true) := by
  obtain ⟨c, rest, hpath, hc⟩ := hn.1.exists_cons
  refine ⟨c, ?_, hc⟩
  cases args with
  | nil =>
    change (n.path.toChars ++ _).head? = _
    rw [hpath]
    rfl
  | cons a as =>
    rw [toChars_named_cons, Nominal.toChars, hpath]
    rfl

/-- The text of a written name starts like no other primary type, nor with a blank. -/
theorem head?_toChars_named {n : Nominal} (hn : n.Written) (args : List Ty) :
    ∃ c, (Ty.named n args).toChars.head? = some c ∧ isLayout c = false ∧
      c ∉ ['(', 'a', 's', 'i', 'c', '\x27'] := by
  obtain ⟨c, hhead, hc⟩ := exists_path_start hn args
  exact ⟨c, hhead, not_blank_of_path_start hc⟩

/-- The text of a written type starts with a character that is not blank. -/
theorem Written.skip_append (ht : Written t) (tail : List Char) :
    skip (t.toChars ++ tail) = t.toChars ++ tail := by
  have of_head : ∀ {c}, t.toChars.head? = some c → isLayout c = false →
      skip (t.toChars ++ tail) = t.toChars ++ tail := by
    intro c h hc
    refine skip_of_head? (c := c) ?_ hc
    rw [List.head?_append, h]
    rfl
  cases ht with
  | named hn _ =>
    obtain ⟨c, hhead, hc, -⟩ := head?_toChars_named hn _
    exact of_head hhead hc
  | _ => exact of_head rfl (by decide)

/-- The primary types without parentheses. -/
def ungroupedReader (inner : Reader Ty) : Reader Ty :=
  (do word "any"; return .any)
    <|> (do word "self"; return .self)
    <|> (do word "instance"; return .inst)
    <|> (do word "class"; return .cls)
    <|> (do let name ← varReader; return .var name)
    <|> namedReader inner

theorem primaryReader_eq (inner : Reader Ty) :
    primaryReader inner = (groupReader inner <|> ungroupedReader inner).padded := rfl

theorem refuses_keyword {w : String} {c : Char} (u : Ty) (hw : w.toList.head? = some c)
    (hcs : cs.head? ≠ some c) : (do word w; return u : Reader Ty).Refuses cs :=
  (refuses_word_of_head hw hcs).bind

/-- A text that does not start like a keyword is a variable or a name. -/
theorem run_ungroupedReader_eq_var {c : Char} (hc : cs.head? = some c) (hne : c ∉ ['a', 's', 'i', 'c']) :
    (ungroupedReader inner).run cs =
      ((do let name ← varReader; return .var name) <|> namedReader inner : Reader Ty).run cs := by
  have head : ∀ {d}, d ∈ ['a', 's', 'i', 'c'] → cs.head? ≠ some d :=
    fun hd e => hne (Option.some.inj (hc.symm.trans e) ▸ hd)
  refine (refuses_keyword (w := "any") .any rfl (head (by decide))).run_orElse.trans ?_
  refine (refuses_keyword (w := "self") .self rfl (head (by decide))).run_orElse.trans ?_
  refine (refuses_keyword (w := "instance") .inst rfl (head (by decide))).run_orElse.trans ?_
  exact (refuses_keyword (w := "class") .cls rfl (head (by decide))).run_orElse

/-- A text that starts neither like a keyword nor like a variable can only be a name. -/
theorem run_ungroupedReader_eq_named {c : Char} (hc : cs.head? = some c)
    (hne : c ∉ ['a', 's', 'i', 'c', '\x27']) :
    (ungroupedReader inner).run cs = (namedReader inner).run cs := by
  have hquote : cs.head? ≠ some '\x27' := by
    intro e
    obtain rfl : c = '\x27' := Option.some.inj (hc.symm.trans e)
    exact hne (by decide)
  have hvar : (do let name ← varReader; return .var name : Reader Ty).Refuses cs :=
    (refuses_char hquote).bind.bind
  refine (run_ungroupedReader_eq_var hc fun h => hne ?_).trans hvar.run_orElse
  exact List.mem_append_left ['\x27'] h

/-- Without a name, a variable or a keyword there is nothing to read outside parentheses. -/
theorem refuses_ungroupedReader {c : Char} (hc : cs.head? = some c) (hstart : isIdentStart c = false)
    (hne : c ∉ [':', '\x27']) : (ungroupedReader inner).Refuses cs := by
  have hword : ∀ {d}, isIdentStart d = true → c ≠ d := by
    rintro d hd rfl
    exact Bool.noConfusion (hd.symm.trans hstart)
  have hsegments : (sepBy1 (text "::") constant).Refuses cs := by
    refine (Refuses.filter (Refuses.bind ?_) _).sepBy1
    cases cs with
    | nil => exact ⟨_, rfl⟩
    | cons d ds =>
      obtain rfl : d = c := Option.some.inj hc
      exact ⟨d :: ds, by simp [satisfy, hstart]⟩
  have hpath : path.Refuses cs := by
    refine refuses_bind (Refuses.run_optional (refuses_text (separator_not_isPrefix fun d hd => ?_)))
      hsegments.bind
    rintro rfl
    exact hne (by simp [Option.some.inj (hc.symm.trans hd)])
  obtain ⟨stop, hstop⟩ : (namedReader inner).Refuses cs := hpath.bind
  refine ⟨stop, (run_ungroupedReader_eq_named hc ?_).trans hstop⟩
  have hquote : c ≠ '\x27' := fun e => hne (by simp [e])
  simp [hword (d := 'a') rfl, hword (d := 's') rfl, hword (d := 'i') rfl, hword (d := 'c') rfl, hquote]

/-- No type starts with such a character. -/
theorem refuses_unionReader {c : Char} (hc : cs.head? = some c) (hlayout : isLayout c = false)
    (hstart : isIdentStart c = false) (hne : c ∉ ['(', ':', '\x27']) : (unionReader inner).Refuses cs := by
  have hskip : skip cs = cs := skip_of_head? hc hlayout
  have hgroup : (groupReader inner).Refuses (skip cs) := by
    refine (Refuses.padded (refuses_char ?_)).bind
    rw [skip_skip, hskip, hc]
    exact fun e => hne (by simp [Option.some.inj e])
  have hungrouped : (ungroupedReader inner).Refuses (skip cs) := by
    rw [hskip]
    exact refuses_ungroupedReader hc hstart fun h => hne (List.mem_cons_of_mem _ h)
  have hprimary : (primaryReader inner).Refuses cs := (hgroup.orElse hungrouped).padded
  exact hprimary.sepBy1.bind.sepBy1.bind

/-- The text of a written name is handed to the reader of names. -/
theorem run_ungroupedReader_named (inner : Reader Ty) {n : Nominal} (hn : n.Written) (args : List Ty)
    (tail : List Char) :
    (ungroupedReader inner).run ((Ty.named n args).toChars ++ tail) =
      (namedReader inner).run ((Ty.named n args).toChars ++ tail) := by
  obtain ⟨c, hhead, -, hc⟩ := head?_toChars_named hn args
  refine run_ungroupedReader_eq_named (c := c) ?_ fun h => hc (List.mem_cons_of_mem _ h)
  rw [List.head?_append, hhead]
  rfl

/-- Without parentheses a primary type is what the other readers say. -/
theorem run_primaryReader_ungrouped {c : Char} (ht : Written t) (hc : t.toChars.head? = some c)
    (hne : c ≠ '(') (hcs : skip cs = skip (t.toChars ++ tail)) :
    (primaryReader inner).run cs = (ungroupedReader inner).padded.run cs := by
  rw [primaryReader_eq]
  refine run_padded_congr (Refuses.run_orElse (Refuses.padded (refuses_char ?_)).bind)
  rw [skip_skip, hcs, ht.skip_append, List.head?_append, hc]
  exact fun e => hne (Option.some.inj e)

theorem reads_of_ungrouped {c : Char} (ht : Written t) (hc : t.toChars.head? = some c) (hne : c ≠ '(')
    (h : ∀ tail, Ends [] tail → ∃ rest,
      (ungroupedReader inner).run (t.toChars ++ tail) = .ok (t, rest) ∧ skip rest = skip tail) :
    Reads (primaryReader inner) [] t := by
  intro cs tail hcs htail
  obtain ⟨rest, hrun, hrest⟩ := h tail htail
  rw [run_primaryReader_ungrouped ht hc hne hcs, ← hrest]
  refine run_padded ?_
  rw [hcs, ht.skip_append]
  exact hrun

/-- A keyword is not mistaken for one with another first letter. -/
theorem refuses_keyword_append {w w' : String} {c d : Char} (u : Ty) (hw : w.toList.head? = some c)
    (hw' : w'.toList.head? = some d) (hne : d ≠ c) (tail : List Char) :
    (do word w; return u : Reader Ty).Refuses (w'.toList ++ tail) := by
  refine refuses_keyword u hw ?_
  rw [List.head?_append, hw']
  exact fun e => hne (Option.some.inj e)

theorem reads_any : Reads (primaryReader inner) [] .any :=
  reads_of_ungrouped .any rfl (by decide) fun tail htail =>
    ⟨tail, run_orElse (run_bind (run_word "any" htail.head?)), rfl⟩

theorem reads_self : Reads (primaryReader inner) [] .self := by
  refine reads_of_ungrouped .self rfl (by decide) fun tail htail => ⟨tail, ?_, rfl⟩
  refine (refuses_keyword_append (w := "any") .any rfl rfl (by decide) tail).run_orElse.trans ?_
  exact run_orElse (run_bind (run_word "self" htail.head?))

theorem reads_inst : Reads (primaryReader inner) [] .inst := by
  refine reads_of_ungrouped .inst rfl (by decide) fun tail htail => ⟨tail, ?_, rfl⟩
  refine (refuses_keyword_append (w := "any") .any rfl rfl (by decide) tail).run_orElse.trans ?_
  refine (refuses_keyword_append (w := "self") .self rfl rfl (by decide) tail).run_orElse.trans ?_
  exact run_orElse (run_bind (run_word "instance" htail.head?))

theorem reads_cls : Reads (primaryReader inner) [] .cls := by
  refine reads_of_ungrouped .cls rfl (by decide) fun tail htail => ⟨tail, ?_, rfl⟩
  refine (refuses_keyword_append (w := "any") .any rfl rfl (by decide) tail).run_orElse.trans ?_
  refine (refuses_keyword_append (w := "self") .self rfl rfl (by decide) tail).run_orElse.trans ?_
  refine (refuses_keyword_append (w := "instance") .inst rfl rfl (by decide) tail).run_orElse.trans ?_
  exact run_orElse (run_bind (run_word "class" htail.head?))

theorem reads_var {name : String} (h : IsIdentifier name.toList) :
    Reads (primaryReader inner) [] (.var name) := by
  refine reads_of_ungrouped (.var h) rfl (by decide) fun tail htail => ⟨tail, ?_, rfl⟩
  refine (run_ungroupedReader_eq_var (c := '\x27') rfl (by decide)).trans ?_
  exact run_orElse (run_bind (run_varReader h htail.head?))

/-! Names -/

variable {n : Nominal} {args : List Ty}

theorem reads_named_nil (hn : n.Written) : Reads (primaryReader inner) [] (.named n []) := by
  obtain ⟨c, hhead, -, hc⟩ := head?_toChars_named hn []
  have hwritten : Written (.named n []) := .named hn fun t ht => nomatch ht
  refine reads_of_ungrouped hwritten hhead (fun e => hc (by simp [e])) fun tail htail => ⟨tail, ?_, rfl⟩
  rw [run_ungroupedReader_named inner hn]
  refine run_namedReader_of_refuses hn ?_ fun c hc => ?_
  · by_cases hf : Nominal.suffix n.facet = []
    · rw [hf]
      exact refuses_argsReader fun e => (htail '<' e).2.1 (by decide)
    · exact refuses_argsReader_suffix hf tail
  · have h := (htail c hc).2.1
    exact ⟨(htail c hc).1, fun e => h (by simp [e]), fun e => h (by simp [e])⟩

/-- Without suffix the arguments come right after the path. -/
theorem reads_named_cons {u : Ty} {us : List Ty} (hw : Written (.named n (u :: us))) (hn : n.Written)
    (hf : Nominal.suffix n.facet = []) (h : ∀ v ∈ u :: us, Reads inner ['&', '|'] v) :
    Reads (primaryReader inner) [] (.named n (u :: us)) := by
  obtain ⟨c, hhead, -, hc⟩ := head?_toChars_named hn (u :: us)
  refine reads_of_ungrouped hw hhead (fun e => hc (by simp [e])) fun tail htail =>
    ⟨skip tail, ?_, skip_skip tail⟩
  have hpath : path.run (n.path.toChars ++ angled (u :: us) tail) = .ok (n.path, angled (u :: us) tail) :=
    run_path hn.1 fun c hc => Option.some.inj hc ▸ by decide
  have hsuffix : suffixReader.Refuses (skip tail) :=
    (refuses_char fun e => (htail '.' e).2.1 (by decide)).bind
  have hfacet : (⟨plainFacet n.path, n.path⟩ : Nominal) = n := by rw [← hn.2 hf]
  rw [run_ungroupedReader_named inner hn, toChars_applied, Nominal.toChars, hf, List.append_nil]
  refine (run_bind hpath).trans ((run_bind (run_optional (run_argsReader h tail))).trans ?_)
  refine (run_bind hsuffix.run_optional).trans ?_
  exact congrArg (fun m => (.ok (.named m (u :: us), skip tail) : Outcome Ty)) hfacet

/-- Where the arguments are not read, the reader stops in front of them. -/
theorem stalls_named {u : Ty} {us : List Ty} (hw : Written (.named n (u :: us))) (hn : n.Written)
    (h : ∀ tail, (argsReader inner).Refuses (Nominal.suffix n.facet ++ angled (u :: us) tail)) :
    Stalls (primaryReader inner) (.named n (u :: us)) := by
  obtain ⟨c, hhead, -, hc⟩ := head?_toChars_named hn (u :: us)
  intro cs tail hcs
  refine Leaves.of_run_eq (Leaves.padded ?_ (List.forall_mem_singleton.mpr rfl))
    (run_primaryReader_ungrouped hw hhead (fun e => hc (by simp [e])) hcs)
  rw [hcs, hw.skip_append, toChars_applied]
  have hrun := run_namedReader_of_refuses hn (h tail) fun c hc => Option.some.inj hc ▸ by decide
  have heq := run_ungroupedReader_named inner hn (u :: us) tail
  rw [toChars_applied] at heq
  exact leaves_of_run (heq.trans hrun) (List.mem_singleton_self '<') rfl

/-! Groups -/

/-- A union or intersection is read in its parentheses. -/
theorem reads_group {body : List Char} (hw : Written t) (ht : t.toChars = '(' :: body ++ [')'])
    (h : ∀ tail, inner.run (skip (body ++ ')' :: tail)) = .ok (t, ')' :: tail)) :
    Reads (primaryReader inner) [] t := by
  intro cs tail hcs _
  have hgroup := run_groupReader (h tail)
  rw [hw.skip_append, ht, List.append_assoc] at hcs
  rw [← skip_skip tail]
  exact run_padded (run_orElse (hcs ▸ hgroup))

/-- What opens a parenthesis that is not closed is not read at all. -/
theorem stalls_group {body : List Char} (bad : List Char) (hw : Written t)
    (ht : t.toChars = '(' :: body ++ [')'])
    (h : ∀ tail, inner.Leaves (skip (body ++ ')' :: tail)) bad) (hclose : ')' ∉ bad)
    (hbad : ∀ c ∈ bad, isLayout c = false) : Stalls (primaryReader inner) t := by
  intro cs tail hcs
  have hgroup := refuses_groupReader (h tail) hclose hbad
  rw [hw.skip_append, ht, List.append_assoc] at hcs
  have hname : (ungroupedReader inner).Refuses ('(' :: (body ++ ')' :: tail)) :=
    refuses_ungroupedReader rfl (by decide) (by decide)
  refine (Refuses.padded ?_).leaves _
  rw [hcs]
  exact hgroup.orElse hname

end Primary

end MixinTypes.Ty
