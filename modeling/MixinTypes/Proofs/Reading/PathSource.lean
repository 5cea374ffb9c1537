import Mathlib.Data.List.DropRight
import MixinTypes.Proofs.Reading.Derivation
import MixinTypes.Proofs.Reading.Names
import MixinTypes.Proofs.Reading.Segments

/-!
# Sources of paths

A path can be had from a source in two ways. Reading it checks every character and refuses what is not a path as
written; cutting it at double colons takes any text. Where the first gives a path, the second gives the same, once
the blanks around the source are dropped.

1. A source is read as a path exactly when it is the text of the path with blanks around it, and the segments are
   constants (`Path.read_eq_ok_iff_unpadded`). Such a text has no blank inside, so dropping blanks at the ends finds it.
2. Constants hold no colon, so cutting the text of the path gives it back (`Path.Written.separable`).
3. `Path.Spelled` says without any reader which texts these are (`Path.spelled_iff`).
-/

namespace MixinTypes

open Text Reader

/-! ## Blanks around a text -/

namespace Text

variable {cs mid : List Char}

/-- What is left of a text without the blanks at its ends. -/
def unpadded (cs : List Char) : List Char := (skip cs).rdropWhile isLayout

theorem rdropWhile_append_blanks (hmid : ∀ c ∈ mid, isLayout c = true) (hcs : ∀ c ∈ cs, isLayout c = false) :
    (cs ++ mid).rdropWhile isLayout = cs := by
  rw [List.rdropWhile, List.reverse_append,
    List.dropWhile_append_of_pos fun c hc => hmid c (List.mem_reverse.mp hc)]
  refine List.rdropWhile_eq_self_iff.mpr fun hne => ?_
  simp [hcs _ (List.getLast_mem hne)]

theorem unpadded_eq_self (h : ∀ c ∈ cs, isLayout c = false) : unpadded cs = cs := by
  have hskip : skip cs = cs := skip_eq_self fun c hc => h c (List.mem_of_mem_head? hc)
  have hend := rdropWhile_append_blanks (List.forall_mem_nil _) h
  rw [List.append_nil] at hend
  rwa [unpadded, hskip]

/-- The blanks that are dropped at the end come after what is left. -/
theorem exists_skip_eq (cs : List Char) :
    ∃ after, (∀ c ∈ after, isLayout c = true) ∧ skip cs = unpadded cs ++ after :=
  ⟨(skip cs).rtakeWhile isLayout, fun _ => List.mem_rtakeWhile_imp, List.rdropWhile_append_rtakeWhile.symm⟩

theorem skip_eq_nil_iff : skip cs = [] ↔ ∀ c ∈ cs, isLayout c = true := List.dropWhile_eq_nil_iff

/-- A constant has identifier characters only, and the first one is an uppercase letter or an underscore. -/
theorem isConstant_iff : IsConstant cs ↔
    (∀ c ∈ cs, isIdentChar c = true) ∧ ∃ c ∈ cs.head?, isConstantStart c = true := by
  constructor
  · rintro ⟨⟨c, rest, rfl, hc, hrest⟩, hfirst⟩
    exact ⟨List.forall_mem_cons.mpr ⟨isIdentChar_of_isIdentStart hc, hrest⟩, c, rfl, by simpa using hfirst⟩
  · rintro ⟨hall, c, hc, hfirst⟩
    obtain ⟨rest, rfl⟩ := List.head?_eq_some_iff.mp hc
    exact ⟨⟨c, rest, rfl, isIdentStart_of_isConstantStart hfirst, (List.forall_mem_cons.mp hall).2⟩, by simpa⟩

end Text

namespace Path

variable {p : Path} {source : String} {cs : List Char}

/-! ## The text of a written path -/

theorem Written.isConstant (hp : p.Written) : ∀ s ∈ p.segments.map String.toList, IsConstant s :=
  List.forall_mem_map.mpr hp.2

theorem Written.mem_toChars (hp : p.Written) : ∀ c ∈ p.toChars, c = ':' ∨ isIdentChar c = true := by
  obtain ⟨s, segs, hsegs, hconst⟩ := hp.exists_segments
  have hchars : ∀ t ∈ s :: segs, ∀ c ∈ t, isIdentChar c = true := fun t ht => (isConstant_iff.mp (hconst t ht)).1
  intro c hc
  rw [toChars, hsegs, intercalate_cons] at hc
  rcases List.mem_append.mp hc with hc | hc
  · split at hc
    · exact .inl (by simpa using hc)
    · exact absurd hc List.not_mem_nil
  · rcases List.mem_append.mp hc with hc | hc
    · exact .inr (hchars s (List.mem_cons_self ..) c hc)
    · obtain ⟨t, ht, hc⟩ := List.mem_flatMap.mp hc
      rcases List.mem_append.mp hc with hc | hc
      · exact .inl (by simpa using hc)
      · exact .inr (hchars t (List.mem_cons_of_mem s ht) c hc)

theorem Written.not_layout_of_mem (hp : p.Written) : ∀ c ∈ p.toChars, isLayout c = false := by
  intro c hc
  rcases hp.mem_toChars c hc with rfl | hc
  · rfl
  · exact isLayout_eq_false_of_isIdentChar hc

/-- Constants are not empty and hold no colon. -/
theorem Written.separable (hp : p.Written) : p.Separable := by
  have hcolon : ∀ s ∈ p.segments.map String.toList, ':' ∉ s := fun s hs hmem =>
    absurd ((isConstant_iff.mp (hp.isConstant s hs)).1 ':' hmem) (by decide)
  refine ⟨fun s hs => ?_, fun s hs hsep => ?_, ?_⟩
  · obtain ⟨c, rest, rfl, -⟩ := (hp.isConstant s hs).exists_cons
    exact List.cons_ne_nil c rest
  · exact hcolon s hs (hsep.subset (List.mem_cons_self ..))
  · exact List.pairwise_of_forall_mem_list fun s hs _ _ hlast => hcolon s hs (List.mem_of_getLast? hlast)

/-! ## Reading and cutting -/

theorem read_eq_ok_iff_unpadded : Path.read source = .ok p ↔ p.Written ∧ unpadded source.toList = p.toChars := by
  constructor
  · intro h
    obtain ⟨mid, hrun, hmid⟩ := readAll_eq_ok_iff.mp h
    obtain ⟨htext, hp⟩ := of_run_path hrun
    refine ⟨hp, ?_⟩
    rw [unpadded, htext]
    exact rdropWhile_append_blanks (skip_eq_nil_iff.mp hmid) hp.not_layout_of_mem
  · rintro ⟨hp, htext⟩
    obtain ⟨after, hafter, hskip⟩ := exists_skip_eq source.toList
    -- A blank goes on with no segment and no separator, so the reader stops where the path ends.
    have hend : ∀ c ∈ after.head?, isIdentChar c = false ∧ c ≠ ':' := by
      intro c hc
      have hblank := hafter c (List.mem_of_mem_head? hc)
      refine ⟨isIdentChar_eq_false_of_isLayout hblank, ?_⟩
      rintro rfl
      exact nomatch hblank
    have hrun := run_path hp hend
    rw [← htext, ← hskip] at hrun
    exact readAll_eq_ok_iff.mpr ⟨after, hrun, skip_eq_nil_iff.mpr hafter⟩

/-- Names with a double colon between each two, and perhaps one more in front. A name is made of ASCII letters,
digits and underscores, and starts with an uppercase letter or an underscore. -/
def Spelled (cs : List Char) : Prop :=
  ∃ names : List (List Char), names ≠ [] ∧
    (∀ name ∈ names, (∀ c ∈ name, isIdentChar c = true) ∧ ∃ c ∈ name.head?, isConstantStart c = true) ∧
    (cs = "::".toList.intercalate names ∨ cs = "::".toList ++ "::".toList.intercalate names)

theorem spelled_iff : Spelled cs ↔ ∃ p : Path, p.Written ∧ cs = p.toChars := by
  constructor
  · rintro ⟨names, hne, hnames, hcs⟩
    have hwritten : ∀ top, Path.Written ⟨names.map String.ofList, top⟩ := by
      refine fun _ => ⟨by simpa using hne, List.forall_mem_map.mpr fun name hname => ?_⟩
      rw [String.toList_ofList]
      exact isConstant_iff.mpr (hnames name hname)
    rcases hcs with rfl | rfl
    · refine ⟨⟨names.map String.ofList, false⟩, hwritten false, ?_⟩
      rw [toChars, map_toList_map_ofList]
      rfl
    · refine ⟨⟨names.map String.ofList, true⟩, hwritten true, ?_⟩
      rw [toChars, map_toList_map_ofList]
      rfl
  · rintro ⟨⟨segments, absolute⟩, hp, rfl⟩
    refine ⟨segments.map String.toList, by simpa using hp.1, fun s hs => isConstant_iff.mp (hp.isConstant s hs), ?_⟩
    cases absolute with
    | true => exact .inr rfl
    | false => exact .inl rfl

/-- When a source is read as a path, this is the path that the source denotes when it is cut at double colons, but
for the blanks around it, and its own text is read as the same path. The sources that are read are those that are
spelled as paths, but for these blanks. -/
theorem read_agrees (source : String) :
    (∀ p, Path.read source = .ok p →
      p = ofString (String.ofList (unpadded source.toList)) ∧ Path.read p.render = .ok p) ∧
    ((∃ p, Path.read source = .ok p) ↔ Spelled (unpadded source.toList)) := by
  refine ⟨fun p h => ?_, ?_⟩
  · obtain ⟨hp, htext⟩ := read_eq_ok_iff_unpadded.mp h
    refine ⟨?_, read_eq_ok_iff_unpadded.mpr ⟨hp, ?_⟩⟩
    · rw [htext]
      exact hp.separable.ofString_render.symm
    · rw [render, String.toList_ofList]
      exact unpadded_eq_self hp.not_layout_of_mem
  · rw [spelled_iff]
    exact exists_congr fun p => read_eq_ok_iff_unpadded

/-- Blanks around a path with two colons in front, and a segment that starts with an underscore. -/
theorem read_agrees_padded :
    let source := "\t ::Net::_S3 \r\n"
    let p : Path := ⟨["Net", "_S3"], true⟩
    unpadded source.toList = "::Net::_S3".toList ∧ Path.read source = .ok p ∧ p = ofString "::Net::_S3" ∧
      Path.read p.render = .ok p ∧ Spelled "::Net::_S3".toList := by
  intro source p
  have hread : Path.read source = .ok p := by decide +kernel
  have htrim : unpadded source.toList = "::Net::_S3".toList := by decide +kernel
  obtain ⟨hagree, hspelled⟩ := read_agrees source
  obtain ⟨hp, hagain⟩ := hagree p hread
  rw [htrim] at hp hspelled
  exact ⟨htrim, hread, hp, hagain, hspelled.mp ⟨p, hread⟩⟩

end Path

end MixinTypes
