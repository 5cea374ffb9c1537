import MixinTypes.Proofs.Reading.Primary
import MixinTypes.Ty.Parts

/-!
# Rendered types read back

The text of a type puts the arguments of a name after the whole name, suffix included, while the grammar
has them before the suffix. So the text of a type that was read is read as that type again unless the
object of a module or class has arguments somewhere in it, and then it is not read at all.

1. By induction on the type, one without such arguments is read back by a reader that is deep enough for
   its text (`reads_primaryReader`), and any other makes it fail or stop in front of the arguments
   (`stalls_primaryReader`).
2. So the reader of types gives it back wherever its text comes next (`reads_reader`), and `read_render` says
   what happens to whole sources.
-/

namespace MixinTypes.Ty

open Text Reader

/-- The object of a module or class with arguments. -/
def isAppliedObject : Ty → Bool
  | .named n args => !(Nominal.suffix n.facet).isEmpty && !args.isEmpty
  | _ => false

/-- Somewhere in the type the object of a module or class has arguments. -/
def appliesObject (t : Ty) : Bool := t.parts.any isAppliedObject

theorem appliesObject_eq (t : Ty) :
    t.appliesObject = (t.isAppliedObject || t.children.any appliesObject) := by
  rw [appliesObject, parts_eq, List.any_cons, List.any_flatMap]
  rfl

theorem appliesObject_eq_true_iff {t : Ty} : t.appliesObject = true ↔
    t.isAppliedObject = true ∨ ∃ u ∈ t.children, u.appliesObject = true := by
  rw [appliesObject_eq, Bool.or_eq_true, List.any_eq_true]

theorem appliesObject_of_mem_children {t u : Ty} (hu : u ∈ t.children) (h : u.appliesObject = true) :
    t.appliesObject = true :=
  appliesObject_eq_true_iff.mpr (.inr ⟨u, hu, h⟩)

theorem appliesObject_eq_false_of_mem_children {t u : Ty} (h : t.appliesObject = false)
    (hu : u ∈ t.children) : u.appliesObject = false :=
  Bool.eq_false_iff.mpr fun hu' => Bool.noConfusion (h.symm.trans (appliesObject_of_mem_children hu hu'))

theorem suffix_eq_nil_of_appliesObject_eq_false {n : Nominal} {t : Ty} {ts : List Ty}
    (h : (Ty.named n (t :: ts)).appliesObject = false) : Nominal.suffix n.facet = [] := by
  have hself : (Ty.named n (t :: ts)).isAppliedObject = false :=
    Bool.eq_false_iff.mpr fun e => Bool.noConfusion (h.symm.trans (appliesObject_eq_true_iff.mpr (.inl e)))
  simpa [isAppliedObject] using hself

/-- Other names with the same facets do not matter. -/
theorem appliesObject_mapNames {f : Nominal → Nominal} (hf : ∀ n, (f n).facet = n.facet) (t : Ty) :
    (t.mapNames f).appliesObject = t.appliesObject := by
  have members : ∀ ts : List Ty, (∀ t ∈ ts, (t.mapNames f).appliesObject = t.appliesObject) →
      (ts.map (mapNames f)).any appliesObject = ts.any appliesObject := by
    intro ts hts
    rw [List.any_map, Bool.eq_iff_iff, List.any_eq_true, List.any_eq_true]
    exact exists_congr fun t => and_congr_right fun ht => by rw [Function.comp_apply, hts t ht]
  induction t using Ty.induction with
  | named n ts ih =>
    rw [appliesObject_eq, appliesObject_eq (.named n ts), mapNames, mapNamesList_eq, children, children,
      members ts ih, isAppliedObject, isAppliedObject, hf, List.isEmpty_map]
  | union ts ih =>
    rw [appliesObject_eq, appliesObject_eq (.union ts), mapNames, mapNamesList_eq, children, children,
      members ts ih]
    rfl
  | inter ts ih =>
    rw [appliesObject_eq, appliesObject_eq (.inter ts), mapNames, mapNamesList_eq, children, children,
      members ts ih]
    rfl
  | _ => rfl

/-! ## All types -/

theorem length_le_intercalate {sep x : List Char} {xs : List (List Char)} (h : x ∈ xs) :
    x.length ≤ (sep.intercalate xs).length := by
  induction xs with
  | nil => exact nomatch h
  | cons y ys ih =>
    rcases List.mem_cons.mp h with rfl | h
    · rw [intercalate_cons, List.length_append]
      omega
    · cases ys with
      | nil => exact nomatch h
      | cons z zs =>
        have := ih h
        rw [List.intercalate_cons_cons]
        simp only [List.length_append]
        omega

/-- What is inside a type has a shorter text. -/
theorem length_toChars_lt {t u : Ty} (h : u ∈ t.children) : u.toChars.length < t.toChars.length := by
  have hle : ∀ (sep : List Char) (ts : List Ty), u ∈ ts →
      u.toChars.length ≤ (sep.intercalate (ts.map toChars)).length :=
    fun _ _ hu => length_le_intercalate (List.mem_map_of_mem hu)
  cases t with
  | named n ts =>
    cases ts with
    | nil => exact nomatch h
    | cons a as =>
      have := hle [',', ' '] (a :: as) h
      rw [toChars_named_cons]
      simp only [List.length_append, List.length_cons]
      omega
  | union ts =>
    have := hle [' ', '|', ' '] ts h
    rw [toChars_union]
    simp only [List.length_append, List.length_cons]
    omega
  | inter ts =>
    have := hle [' ', '&', ' '] ts h
    rw [toChars_inter]
    simp only [List.length_append, List.length_cons]
    omega
  | _ => exact nomatch h

theorem exists_two {α : Type} {as : List α} (h : 2 ≤ as.length) : ∃ a b bs, as = a :: b :: bs := by
  match as, h with
  | a :: b :: bs, _ => exact ⟨a, b, bs, rfl⟩

/-- What is inside a type fits one level further in. -/
theorem exists_level {t u : Ty} {depth : Nat} (hu : u ∈ t.children) (hlen : t.toChars.length ≤ depth) :
    ∃ d, depth = d + 1 ∧ ∀ v ∈ t.children, v.toChars.length ≤ d := by
  refine ⟨depth - 1, ?_, fun v hv => ?_⟩
  · have := length_toChars_lt hu
    omega
  · have := length_toChars_lt hv
    omega

/-- A type in which no object has arguments is read back by a reader that is deep enough for its text. -/
theorem reads_primaryReader {t : Ty} (ht : Written t) (hgood : t.appliesObject = false) {depth : Nat}
    (hlen : t.toChars.length ≤ depth) : Reads (primaryReader (levelReader depth)) [] t := by
  induction ht generalizing depth with
  | any => exact reads_any
  | self => exact reads_self
  | inst => exact reads_inst
  | cls => exact reads_cls
  | var h => exact reads_var h
  | @named n args hn hargs ih =>
    cases args with
    | nil => exact reads_named_nil hn
    | cons u us =>
      obtain ⟨d, rfl, hd⟩ := exists_level (t := .named n (u :: us)) (List.mem_cons_self ..) hlen
      have hf : Nominal.suffix n.facet = [] := suffix_eq_nil_of_appliesObject_eq_false hgood
      exact reads_named_cons (.named hn hargs) hn hf fun v hv =>
        (ih v hv (appliesObject_eq_false_of_mem_children hgood hv) (hd v hv)).union
  | @union ts hmany hts ih =>
    obtain ⟨u, v, us, rfl⟩ := exists_two hmany
    obtain ⟨d, rfl, hd⟩ := exists_level (t := .union (u :: v :: us)) (List.mem_cons_self ..) hlen
    have hread : ∀ x ∈ u :: v :: us, Reads (primaryReader (levelReader d)) [] x := fun x hx =>
      ih x hx (appliesObject_eq_false_of_mem_children hgood hx) (hd x hx)
    refine reads_group (.union hmany hts) (toChars_union _) fun tail => ?_
    exact run_unionReader (fun x hx => (hread x hx).inter) (skip_skip _)
      (Ends.cons (c := ')') (by decide) (by decide) tail)
  | @inter ts hmany hts ih =>
    obtain ⟨u, v, us, rfl⟩ := exists_two hmany
    obtain ⟨d, rfl, hd⟩ := exists_level (t := .inter (u :: v :: us)) (List.mem_cons_self ..) hlen
    have hread : ∀ x ∈ u :: v :: us, Reads (primaryReader (levelReader d)) [] x := fun x hx =>
      ih x hx (appliesObject_eq_false_of_mem_children hgood hx) (hd x hx)
    refine reads_group (.inter hmany hts) (toChars_inter _) fun tail => ?_
    refine run_unionReader_of_inter ?_ fun e => absurd (Option.some.inj e) (by decide)
    exact run_interReader hread (skip_skip _) (Ends.cons (c := ')') (by decide) (by decide) tail)

/-- A type in which an object has arguments is not read past them. -/
theorem stalls_primaryReader {t : Ty} (ht : Written t) (hbad : t.appliesObject = true) {depth : Nat}
    (hlen : t.toChars.length ≤ depth) : Stalls (primaryReader (levelReader depth)) t := by
  -- Of the members of a type some are read back by the lemma before, the others are stalled at by induction.
  have member : ∀ {u : Ty} {d : Nat}, u.Written → u.toChars.length ≤ d →
      (u.appliesObject = true → Stalls (primaryReader (levelReader d)) u) →
      Reads (primaryReader (levelReader d)) [] u ∨ Stalls (primaryReader (levelReader d)) u := by
    intro u d hu hd ih
    cases h : u.appliesObject with
    | true => exact .inr (ih h)
    | false => exact .inl (reads_primaryReader hu h hd)
  induction ht generalizing depth with
  | @named n args hn hargs ih =>
    cases args with
    | nil => simp [appliesObject_eq, isAppliedObject, children] at hbad
    | cons u us =>
      obtain ⟨d, rfl, hd⟩ := exists_level (t := .named n (u :: us)) (List.mem_cons_self ..) hlen
      refine stalls_named (.named hn hargs) hn fun tail => ?_
      by_cases hf : Nominal.suffix n.facet = []
      · obtain ⟨x, hx, hxbad⟩ : ∃ x ∈ u :: us, x.appliesObject = true :=
          (appliesObject_eq_true_iff.mp hbad).resolve_left (by simp [isAppliedObject, hf])
        rw [hf]
        have hmembers := fun y hy =>
          (member (hargs y hy) (hd y hy) fun h => ih y hy h (hd y hy)).imp Reads.union Stalls.union
        exact refuses_argsReader_of_stalls hmembers ⟨x, hx, (ih x hx hxbad (hd x hx)).union⟩ tail
      · exact refuses_argsReader_suffix hf _
  | @union ts hmany hts ih =>
    obtain ⟨u, v, us, rfl⟩ := exists_two hmany
    obtain ⟨d, rfl, hd⟩ := exists_level (t := .union (u :: v :: us)) (List.mem_cons_self ..) hlen
    obtain ⟨x, hx, hxbad⟩ : ∃ x ∈ u :: v :: us, x.appliesObject = true :=
      (appliesObject_eq_true_iff.mp hbad).resolve_left (by simp [isAppliedObject])
    refine stalls_group ['<', '|'] (.union hmany hts) (toChars_union _) (fun tail => ?_) (by decide)
      (isLayout_eq_false_of_mem_pair rfl rfl)
    have hmembers := fun y hy =>
      (member (hts y hy) (hd y hy) fun h => ih y hy h (hd y hy)).imp Reads.inter Stalls.inter
    exact (leaves_members (separates_char (by decide)) (by decide) hmembers
      ⟨x, hx, (ih x hx hxbad (hd x hx)).inter⟩ (skip_skip _)
      (Ends.cons (c := ')') (by decide) (by decide) tail)).bind_pure _
  | @inter ts hmany hts ih =>
    obtain ⟨u, v, us, rfl⟩ := exists_two hmany
    obtain ⟨d, rfl, hd⟩ := exists_level (t := .inter (u :: v :: us)) (List.mem_cons_self ..) hlen
    obtain ⟨x, hx, hxbad⟩ : ∃ x ∈ u :: v :: us, x.appliesObject = true :=
      (appliesObject_eq_true_iff.mp hbad).resolve_left (by simp [isAppliedObject])
    refine stalls_group ['<', '&'] (.inter hmany hts) (toChars_inter _) (fun tail => ?_) (by decide)
      (isLayout_eq_false_of_mem_pair rfl rfl)
    have hinter : (interReader (levelReader d)).Leaves
        (skip ([' ', '&', ' '].intercalate ((u :: v :: us).map toChars) ++ ')' :: tail)) ['<', '&'] :=
      (leaves_members (separates_char (by decide)) (by decide)
        (fun y hy => member (hts y hy) (hd y hy) fun h => ih y hy h (hd y hy))
        ⟨x, hx, ih x hx hxbad (hd x hx)⟩ (skip_skip _)
        (Ends.cons (c := ')') (by decide) (by decide) tail)).bind_pure _
    exact (hinter.sepBy1 (rejects_char (by decide))).bind_pure _
  | _ => simp [appliesObject_eq, isAppliedObject, children] at hbad

/-- A type in which no object has arguments is read back wherever its text comes next. -/
theorem reads_reader {t : Ty} (ht : Written t) (hgood : t.appliesObject = false) :
    Reads reader ['&', '|'] t := by
  intro cs tail hcs
  have hlen : t.toChars.length ≤ cs.length := by
    have hle := (skip_suffix cs).length_le
    rw [hcs, ht.skip_append, List.length_append] at hle
    omega
  exact (reads_primaryReader ht hgood hlen).union cs tail hcs

theorem refuses_reader {c : Char} (hlayout : isLayout c = false) (hstart : isIdentStart c = false)
    (hne : c ∉ ['(', ':', '\x27']) (tail : List Char) : reader.Refuses (c :: tail) := by
  obtain ⟨stop, hstop⟩ : (unionReader (levelReader (tail.length + 1))).Refuses (c :: tail) :=
    refuses_unionReader rfl hlayout hstart hne
  exact ⟨stop, hstop⟩

/-! ## Whole sources -/

/-- A type that was read is read back from its text, unless the object of a module or class has arguments in
it; then its text is not read. -/
theorem read_render {source : String} {t : Ty} (h : read source = .ok t) :
    (t.appliesObject = false → read t.render = .ok t) ∧
      (t.appliesObject = true → ∃ e, read t.render = .error e) := by
  have ht := written_of_read h
  have hchars : t.render.toList = t.toChars := String.toList_ofList
  have hskip : skip t.render.toList = t.toChars := by
    simpa [hchars] using ht.skip_append []
  have hlevel : reader.run (skip t.render.toList) =
      (unionReader (levelReader t.toChars.length)).run (skip t.render.toList) := by
    rw [hskip]
    rfl
  have hsame : skip (skip t.render.toList) = skip (t.toChars ++ []) := by
    rw [skip_skip, hchars, List.append_nil]
  constructor
  · intro hgood
    have hread := (reads_primaryReader ht hgood (Nat.le_refl _)).union _ [] hsame (Ends.nil _)
    exact readAll_of_run (run_padded (hlevel.trans hread))
  · intro hbad
    have hstall := (stalls_primaryReader ht hbad (Nat.le_refl _)).union _ [] hsame
    exact ((hstall.of_run_eq hlevel).padded (List.forall_mem_singleton.mpr rfl)).readAll

theorem read_eq_ok {source : String} {t : Ty} (h : (read source).toOption = some t) :
    read source = .ok t := by
  cases hr : read source with
  | error e =>
    rw [hr] at h
    exact nomatch h
  | ok u =>
    rw [hr] at h
    exact congrArg _ (Option.some.inj h)

/-- The object of a class that has arguments. -/
def appliedClass : Ty := .named ⟨.classObject false, ⟨["Foo"], false⟩⟩ [.any]

/-- Blanks, nested arguments, every suffix and a variable; and the object of a class with arguments. -/
theorem read_render_mixed :
    (∃ t, read " ::A::B <Integer | _Each<'a>, (self&any)> & A.class   constructor|M.module | class" =
        .ok t ∧ read t.render = .ok t) ∧
      read "Foo<any>.class" = .ok appliedClass ∧ ∃ e, read appliedClass.render = .error e := by
  let t : Ty := .union [
    .inter [.named ⟨.instances, ⟨["A", "B"], true⟩⟩ [
        .union [.named ⟨.instances, ⟨["Integer"], false⟩⟩ [],
          .named ⟨.protocol, ⟨["_Each"], false⟩⟩ [.var "a"]],
        .inter [.self, .any]],
      .named ⟨.classObject true, ⟨["A"], false⟩⟩ []],
    .named ⟨.moduleObject, ⟨["M"], false⟩⟩ [], .cls]
  have hmixed : read " ::A::B <Integer | _Each<'a>, (self&any)> & A.class   constructor|M.module | class" =
      .ok t := read_eq_ok (by decide +kernel)
  have happlied : read "Foo<any>.class" = .ok appliedClass := read_eq_ok (by decide +kernel)
  exact ⟨⟨t, hmixed, (read_render hmixed).1 (by decide +kernel)⟩,
    happlied, (read_render happlied).2 (by decide +kernel)⟩

/-- The text of a type that was read need not be readable. -/
theorem not_read_render_appliedClass : ¬ ∀ source t, read source = .ok t → read t.render = .ok t := by
  intro h
  have hread : (read appliedClass.render).toOption = none := by decide +kernel
  rw [h "Foo<any>.class" appliedClass (read_eq_ok (by decide +kernel))] at hread
  exact nomatch hread

end MixinTypes.Ty
