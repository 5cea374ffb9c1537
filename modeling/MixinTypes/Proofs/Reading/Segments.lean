import MixinTypes.Path

/-!
# Any text is a path, and its own text says which

A text is cut at its double colons and loses its empty pieces. A piece may begin with a colon, so three and more
colons come together again where pieces are joined, and a text that begins with one colon is not absolute for that.

1. A piece that another one follows does not end with a colon (`pairwise_cut`): it would have been cut before it.
2. Pieces of this kind are what their joined text is cut into (`cut_intercalate`), since the first double colon from
   the left is the one that was put there.
3. `Path.Separable` says so of segments. The path of a text is separable (`separable_ofString`), and the separable
   paths are those that their own text denotes (`ofString_render_iff`).
-/

namespace MixinTypes.Path

variable {c : Char} {cs piece : List Char} {more ps : List (List Char)}

/-! ## Cutting -/

theorem cut_separator (cs : List Char) : cut (':' :: ':' :: cs) = ([], (cut cs).1 :: (cut cs).2) := by
  rw [cut]

theorem cut_cons (h : ¬ [':', ':'] <+: c :: cs) : cut (c :: cs) = (c :: (cut cs).1, (cut cs).2) := by
  rw [cut]
  rintro rest rfl rfl
  exact h (List.prefix_append [':', ':'] rest)

/-- The first piece is empty only where the text ends or begins with a double colon. -/
theorem separator_isPrefix_of_cut (hfirst : (cut cs).1 = []) (hmore : (cut cs).2 ≠ []) : [':', ':'] <+: cs := by
  cases cs with
  | nil => exact absurd (by rw [cut]) hmore
  | cons c cs =>
    refine Decidable.byContradiction fun h => ?_
    rw [cut_cons h] at hfirst
    exact List.cons_ne_nil _ _ hfirst

/-- No piece but the last one ends with a colon. -/
theorem pairwise_cut (cs : List Char) :
    ((cut cs).1 :: (cut cs).2).Pairwise fun piece _ => piece.getLast? ≠ some ':' := by
  fun_induction cut cs with
  | case1 => exact List.pairwise_singleton ..
  | case2 rest ih => exact List.pairwise_cons.mpr ⟨fun _ _ => by simp, ih⟩
  | case3 c rest hc ih =>
    obtain ⟨hfirst, hmore⟩ := List.pairwise_cons.mp ih
    refine List.pairwise_cons.mpr ⟨fun next hnext => ?_, hmore⟩
    cases hpiece : (cut rest).1 with
    | nil =>
      -- The character is all of the piece, so two colons come after it and it cannot be one itself.
      obtain ⟨after, rfl⟩ := separator_isPrefix_of_cut hpiece (List.ne_nil_of_mem hnext)
      intro hlast
      exact hc (':' :: after) (Option.some.inj hlast) rfl
    | cons d piece =>
      rw [List.getLast?_cons_cons, ← hpiece]
      exact hfirst next hnext

/-- A piece is read through up to the double colon after it, or up to the end. -/
theorem cut_append (hpiece : ¬ [':', ':'] <:+: piece) (hlast : piece.getLast? = some ':' → cs.head? ≠ some ':') :
    cut (piece ++ cs) = (piece ++ (cut cs).1, (cut cs).2) := by
  induction piece with
  | nil => rfl
  | cons c piece ih =>
    have hno : ¬ [':', ':'] <+: c :: (piece ++ cs) := by
      rw [List.cons_prefix_cons]
      rintro ⟨rfl, hnext⟩
      cases piece with
      | nil =>
        obtain ⟨after, rfl⟩ := hnext
        exact hlast rfl rfl
      | cons d piece =>
        obtain ⟨rfl, -⟩ := List.cons_prefix_cons.mp hnext
        exact hpiece (List.prefix_append [':', ':'] piece).isInfix
    have hrest : cut (piece ++ cs) = (piece ++ (cut cs).1, (cut cs).2) := by
      refine ih (fun h => hpiece (h.trans (List.suffix_cons c piece).isInfix)) fun h => hlast ?_
      cases piece with
      | nil => exact nomatch h
      | cons d piece => rwa [List.getLast?_cons_cons]
    rw [List.cons_append, cut_cons hno, hrest]
    rfl

/-- Pieces that can be told apart when they are joined: none is empty or holds a double colon, and none but the last
one ends with a colon. -/
structure Apart (ps : List (List Char)) : Prop where
  ne_nil : ∀ piece ∈ ps, piece ≠ []
  no_separator : ∀ piece ∈ ps, ¬ [':', ':'] <:+: piece
  ends : ps.Pairwise fun piece _ => piece.getLast? ≠ some ':'

theorem apart_pieces (cs : List Char) : Apart (pieces cs) where
  ne_nil _ := pieces_ne_nil_of_mem
  no_separator _ := not_separator_mem_pieces
  ends := (pairwise_cut cs).filter _

namespace Apart

/-- Joined pieces are cut at the same places again. -/
theorem cut_intercalate (h : Apart (piece :: more)) :
    cut ([':', ':'].intercalate (piece :: more)) = (piece, more) := by
  induction more generalizing piece with
  | nil =>
    have hcut : cut (piece ++ []) = (piece ++ (cut []).1, (cut []).2) :=
      cut_append (h.no_separator piece (List.mem_cons_self ..)) fun _ => by simp
    simpa [cut] using hcut
  | cons next more ih =>
    obtain ⟨hpiece, hmore⟩ := List.forall_mem_cons.mp h.no_separator
    obtain ⟨hlast, hends⟩ := List.pairwise_cons.mp h.ends
    have htail : Apart (next :: more) := ⟨(List.forall_mem_cons.mp h.ne_nil).2, hmore, hends⟩
    have hjoined : [':', ':'].intercalate (piece :: next :: more) =
        piece ++ ':' :: ':' :: [':', ':'].intercalate (next :: more) := by
      rw [List.intercalate_cons_cons, List.append_assoc]
      rfl
    rw [hjoined, cut_append hpiece fun e => absurd e (hlast next (List.mem_cons_self ..)), cut_separator, ih htail,
      List.append_nil]

theorem pieces_intercalate (h : Apart ps) : pieces ([':', ':'].intercalate ps) = ps := by
  cases ps with
  | nil => rfl
  | cons piece more =>
    rw [pieces, h.cut_intercalate]
    exact List.filter_eq_self.mpr fun q hq => by simpa using h.ne_nil q hq

/-- Joined pieces do not begin with a double colon: the first piece would be empty. -/
theorem not_separator_isPrefix (h : Apart ps) : ¬ [':', ':'] <+: [':', ':'].intercalate ps := by
  rintro ⟨after, htext⟩
  cases ps with
  | nil => exact nomatch htext
  | cons piece more =>
    have hcut := h.cut_intercalate
    rw [← htext] at hcut
    obtain ⟨hempty, -⟩ := Prod.mk.inj ((cut_separator after).symm.trans hcut)
    exact h.ne_nil piece (List.mem_cons_self ..) hempty.symm

end Apart

/-! ## Texts of paths -/

/-- The segments can be told apart in the text of the path. -/
def Separable (p : Path) : Prop := Apart (p.segments.map String.toList)

/-- A text denotes a relative path unless it begins with a double colon. -/
theorem ofChars_of_not_separator (h : ¬ [':', ':'] <+: cs) :
    ofChars cs = ⟨(pieces cs).map String.ofList, false⟩ := by
  rw [ofChars]
  rintro rest rfl
  exact h (List.prefix_append [':', ':'] rest)

theorem separable_ofString (s : String) : (ofString s).Separable := by
  unfold Separable ofString ofChars
  split
  · rw [map_toList_map_ofList]
    exact apart_pieces _
  · rw [map_toList_map_ofList]
    exact apart_pieces _

theorem Separable.ofString_render {p : Path} (h : p.Separable) : ofString p.render = p := by
  obtain ⟨segments, absolute⟩ := p
  have hpieces := congrArg (List.map String.ofList) (Apart.pieces_intercalate h)
  rw [map_ofList_map_toList] at hpieces
  rw [ofString, render, String.toList_ofList, toChars]
  cases absolute with
  | true => exact congrArg (Path.mk · true) hpieces
  | false => exact (ofChars_of_not_separator h.not_separator_isPrefix).trans (congrArg (Path.mk · false) hpieces)

/-- A path is what its own text denotes when its segments can be told apart there, and other paths are not denoted
by any text. -/
theorem ofString_render_iff {p : Path} : ofString p.render = p ↔ p.Separable :=
  ⟨fun h => h ▸ separable_ofString p.render, Separable.ofString_render⟩

/-- Whatever the text, the path that it denotes is also what the text of the path denotes, and no segment of it is
empty or holds a double colon. -/
theorem ofString_render_ofString (s : String) :
    ofString (ofString s).render = ofString s ∧
      ∀ segment ∈ (ofString s).segments, segment ≠ "" ∧ ¬ "::".toList <:+: segment.toList := by
  have h := separable_ofString s
  refine ⟨ofString_render_iff.mpr h, fun segment hs => ?_⟩
  have hmem : segment.toList ∈ (ofString s).segments.map String.toList := List.mem_map_of_mem hs
  refine ⟨?_, h.no_separator _ hmem⟩
  rintro rfl
  exact h.ne_nil _ hmem rfl

example : (ofString ":::a:::::b:").segments = [":a", ":b:"] := by decide

end MixinTypes.Path
