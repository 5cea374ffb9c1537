import MixinTypes.Proofs.Reading.Derivation
import MixinTypes.Proofs.Reading.Primary

/-!
# What is derived is read

The readers try alternatives in order, take every blank there is, go on with a list as long as they can and turn
back where they cannot. None of this loses a derivation, since one character decides at each place where the
grammar leaves a choice:

1. what comes after a phrase, but for blanks, neither goes on with a name nor is a mark that its lists would go
   on with, so the reader stops there too (`Reaches`, for what may follow see `Ends`);
2. by induction on the derivation every phrase is read when the depth is that of its text (`accepted`).

With the converse, reading a type is the grammar (`read_eq_ok_iff`), which is therefore unambiguous
(`Denotes.unique`).
-/

namespace MixinTypes

open Text Reader

namespace Text.Reader

theorem skip_suffix_skip {cs rest : List Char} (h : rest <:+ cs) : skip rest <:+ skip cs := by
  obtain ⟨as, rfl⟩ := h
  induction as with
  | nil => exact List.suffix_refl _
  | cons a as ih =>
    by_cases ha : isLayout a = true
    · rwa [skip, skip, List.cons_append, List.dropWhile_cons_of_pos ha]
    · rw [skip, skip, List.cons_append, List.dropWhile_cons_of_neg ha]
      exact (skip_suffix rest).trans (List.suffix_append (a :: as) rest)

end Text.Reader

/-- The text of a path does not start with a blank. -/
theorem Path.Written.skip_append {p : Path} (hp : p.Written) (cs : List Char) :
    skip (p.toChars ++ cs) = p.toChars ++ cs := by
  obtain ⟨c, rest, hpath, hc⟩ := hp.exists_cons
  rw [hpath]
  exact skip_of_head? rfl (Ty.not_blank_of_path_start hc).1

namespace Ty

open Grammar

variable {t : Ty} {ts : List Ty} {j : Joint} {inner : Reader Ty} {more cs ds mid next rest stop : List Char}

/-! ## Marks -/

namespace Grammar

theorem Mark.run {c : Char} (h : Mark c cs rest) (hc : isLayout c = false) (hds : skip ds = skip cs) :
    (padded (char c)).run ds = .ok ((), skip rest) := by
  obtain ⟨after, hcs, hafter⟩ := h.skip_eq hc
  rw [← hafter]
  exact run_padded (by rw [hds, hcs, run_char])

theorem Mark.ends {c : Char} (h : Mark c cs rest) (hlayout : isLayout c = false) (hc : IsEnd more c) :
    Ends more cs := by
  obtain ⟨after, hcs, -⟩ := h.skip_eq hlayout
  exact Ends.of_head? (congrArg List.head? hcs) hc

theorem Mark.length_lt {c : Char} (h : Mark c cs rest) (hc : isLayout c = false) :
    (skip rest).length < (skip cs).length := by
  obtain ⟨after, hcs, hafter⟩ := h.skip_eq hc
  have := (skip_suffix after).length_le
  rw [hcs, ← hafter, List.length_cons]
  omega

namespace Joint

/-- The character between members. -/
def mark : Joint → Char
  | .bar => '|'
  | .ampersand => '&'
  | .comma => ','

/-- What a member itself would go on with. -/
def further : Joint → List Char
  | .bar => ['&']
  | .ampersand => []
  | .comma => ['|', '&']

/-- How the mark is read. -/
def sep : Joint → Reader Unit
  | .bar => char '|'
  | .ampersand => char '&'
  | .comma => padded (char ',')

/-- How a member is read. -/
def reader (j : Joint) (depth : Nat) : Reader Ty :=
  match j with
  | .bar => interReader (levelReader depth)
  | .ampersand => primaryReader (levelReader depth)
  | .comma => levelReader (depth + 1)

theorem isEnd_mark (j : Joint) : IsEnd j.further j.mark := by cases j <;> decide

theorem isLayout_mark (j : Joint) : isLayout j.mark = false := by cases j <;> rfl

/-- Where only the mark stands, it may also have blanks around it. -/
theorem Between.toMark (h : j.Between mid next) : Mark j.mark mid next := by
  cases j with
  | bar => exact ⟨next, h ▸ Blanks.refl _, Blanks.refl _⟩
  | ampersand => exact ⟨next, h ▸ Blanks.refl _, Blanks.refl _⟩
  | comma => exact h

/-- What was left of a member up to blanks is where the mark is read. -/
theorem Between.run (h : j.Between mid next) :
    ∃ after, j.sep.run (skip mid) = .ok ((), after) ∧ skip after = skip next ∧
      after.length < (skip mid).length := by
  cases j with
  | bar =>
    obtain rfl : mid = '|' :: next := h
    exact ⟨next, run_char '|' next, rfl, Nat.lt_succ_self _⟩
  | ampersand =>
    obtain rfl : mid = '&' :: next := h
    exact ⟨next, run_char '&' next, rfl, Nat.lt_succ_self _⟩
  | comma =>
    have h : Mark ',' mid next := h
    exact ⟨skip next, h.run rfl (skip_skip mid), skip_skip next, h.length_lt rfl⟩

theorem refuses_sep (h : (skip cs).head? ≠ some j.mark) : j.sep.Refuses (skip cs) := by
  cases j with
  | bar => exact refuses_char h
  | ampersand => exact refuses_char h
  | comma => exact Refuses.padded (refuses_char (by rwa [skip_skip]))

end Joint

end Grammar

/-! ## Names -/

section Names

variable {path : Path} {f : Facet}

theorem Grammar.Suffix.skip_eq (h : Suffix f cs rest) : skip cs = cs := by
  cases h <;> exact skip_of_head? rfl rfl

theorem Grammar.Suffix.run (h : Suffix f cs rest) (hends : Ends [] rest) :
    suffixReader.run cs = .ok (f, rest) := by
  cases h with
  | moduleObject h =>
    obtain ⟨rfl, hend⟩ := h
    exact run_suffixReader_module hend
  | classObject h =>
    obtain ⟨rfl, -⟩ := h
    exact run_suffixReader_class fun c hc => (hends c hc).1
  | constructing h hblanks hmore =>
    obtain ⟨rfl, hclass⟩ := h
    obtain ⟨rfl, hend⟩ := hmore
    exact run_suffixReader_constructor hclass (hblanks.skip_eq.trans (skip_of_head? rfl rfl)) hend

/-- What comes after a path and its arguments is read as a suffix, or there is none. -/
theorem Grammar.Ending.run (h : Ending path f cs rest) (hends : Ends [] rest) (hds : ds = cs ∨ ds = skip cs) :
    ∃ s after, (optional suffixReader).run ds = .ok (s, after) ∧ s.getD (plainFacet path) = f ∧
      skip after = skip rest := by
  have hskip : skip ds = skip cs := by rcases hds with rfl | rfl <;> simp
  cases h with
  | plain =>
    refine ⟨none, ds, (Refuses.bind (refuses_char fun e => ?_)).run_optional, rfl, hskip⟩
    exact (hends.of_skip_eq hskip '.' (by rw [skip_of_head? e rfl, e]; rfl)).2.1 (by decide)
  | suffixed h =>
    obtain rfl : ds = cs := hds.elim id fun e => e.trans h.skip_eq
    exact ⟨some f, rest, run_optional (h.run hends), rfl, rfl⟩

/-- Arguments come neither at a suffix nor where the type ends. -/
theorem Grammar.Ending.refuses_argsReader (h : Ending path f cs rest) (hends : Ends [] rest) :
    (argsReader inner).Refuses cs := by
  refine Ty.refuses_argsReader fun e => ?_
  cases h with
  | plain => exact (hends '<' e).2.1 (by decide)
  | suffixed h => cases h <;> exact absurd (Option.some.inj e) (by decide)

/-- No path goes on where its suffix starts or its type ends. -/
theorem Grammar.Ending.head? (h : Ending path f cs rest) (hends : Ends [] rest) :
    ∀ c ∈ cs.head?, isIdentChar c = false ∧ c ≠ ':' := by
  have hdot : ∀ c ∈ some '.', isIdentChar c = false ∧ c ≠ ':' := fun c hc => Option.some.inj hc ▸ by decide
  cases h with
  | plain =>
    refine fun c hc => ⟨hends.head? c hc, ?_⟩
    rintro rfl
    exact (hends ':' (by rw [skip_of_head? hc rfl]; exact hc)).2.1 (by decide)
  | suffixed h => cases h <;> exact hdot

theorem Grammar.Mark.head? (h : Mark '<' cs rest) : ∀ c ∈ cs.head?, isIdentChar c = false ∧ c ≠ ':' := by
  obtain ⟨after, hcs, -⟩ := h.skip_eq rfl
  refine head?_of_skip (P := fun c => isIdentChar c = false ∧ c ≠ ':') (fun c hc => ?_) fun c hc => ?_
  · refine ⟨isIdentChar_eq_false_of_isLayout hc, ?_⟩
    rintro rfl
    exact nomatch hc
  · rw [hcs] at hc
    exact Option.some.inj hc ▸ by decide

/-- A text that starts with a path is read as a name. -/
theorem run_primaryReader_path (hp : path.Written) (hds : skip ds = skip (path.toChars ++ cs))
    (h : (namedReader inner).run (path.toChars ++ cs) = .ok (t, rest)) :
    (primaryReader inner).run ds = .ok (t, skip rest) := by
  obtain ⟨c, as, hpath, hc⟩ := hp.exists_cons
  have hstart := (not_blank_of_path_start hc).2
  have hhead : (path.toChars ++ cs).head? = some c := by rw [hpath]; rfl
  refine run_padded ?_
  rw [hds, hp.skip_append]
  have hgroup : (groupReader inner).Refuses (path.toChars ++ cs) := by
    refine Refuses.bind (Refuses.padded (refuses_char ?_))
    rw [hp.skip_append, hhead]
    rintro e
    exact hstart (by simp [Option.some.inj e])
  refine hgroup.run_orElse.trans ?_
  exact (run_ungroupedReader_eq_named hhead fun e => hstart (List.mem_cons_of_mem _ e)).trans h

theorem reaches_named (hp : path.Written) (h : Ending path f cs rest) :
    Reaches (primaryReader inner) [] (.named ⟨f, path⟩ []) (path.toChars ++ cs) rest := by
  intro ds hds hends
  obtain ⟨s, after, hsuffix, rfl, hafter⟩ := h.run hends (.inl rfl)
  rw [← hafter]
  refine run_primaryReader_path hp hds ?_
  refine (run_bind (run_path hp (h.head? hends))).trans ?_
  exact (run_bind (h.refuses_argsReader hends).run_optional).trans (run_bind hsuffix)

theorem reaches_applied (hp : path.Written) (hopen : Mark '<' cs next)
    (hargs : Reaches (sepBy1 (padded (char ',')) inner) [',', '|', '&'] ts next stop)
    (hclose : Mark '>' stop mid) (h : Ending path f mid rest) :
    Reaches (primaryReader inner) [] (.named ⟨f, path⟩ ts) (path.toChars ++ cs) rest := by
  intro ds hds hends
  obtain ⟨s, after, hsuffix, rfl, hafter⟩ := h.run hends (.inr rfl)
  have hread : (argsReader inner).run cs = .ok (ts, skip mid) :=
    (run_bind (hopen.run rfl rfl)).trans ((run_bind (hargs _ (skip_skip _) (hclose.ends rfl (by decide)))).trans
      (run_bind (hclose.run rfl (skip_skip _))))
  rw [← hafter]
  refine run_primaryReader_path hp hds ?_
  exact (run_bind (run_path hp hopen.head?)).trans ((run_bind (run_optional hread)).trans (run_bind hsuffix))

end Names

/-! ## Phrases -/

theorem reaches_group (hopen : Mark '(' cs next) (h : Reaches inner ['|', '&'] t next stop)
    (hclose : Mark ')' stop rest) : Reaches (primaryReader inner) [] t cs rest := by
  intro ds hds _
  have hgroup : (groupReader inner).run (skip ds) = .ok (t, skip rest) :=
    (run_bind (hopen.run rfl ((skip_skip ds).trans hds))).trans
      ((run_bind (h _ (skip_skip _) (hclose.ends rfl (by decide)))).trans
        (run_bind (hclose.run rfl (skip_skip _))))
  rw [← skip_skip rest]
  exact run_padded (run_orElse hgroup)

/-- The phrase is read at every depth from the length of its text on. -/
def Accepted (φ : Phrase) (cs rest : List Char) : Prop :=
  ∀ depth, (skip cs).length ≤ depth →
    match φ with
    | .type t => Reaches (levelReader (depth + 1)) ['|', '&'] t cs rest
    | .inter t => Reaches (interReader (levelReader depth)) ['&'] t cs rest
    | .prim t => Reaches (primaryReader (levelReader depth)) [] t cs rest
    | .atom t => Reaches (primaryReader (levelReader depth)) [] t cs rest
    | .list j ts => Reaches (sepBy1 j.sep (j.reader depth)) (j.mark :: j.further) ts cs rest

theorem Accepted.member (h : Accepted (j.member t) cs rest) {depth : Nat} (hdepth : (skip cs).length ≤ depth) :
    Reaches (j.reader depth) j.further t cs rest := by
  cases j <;> exact h depth hdepth

theorem accepted {φ : Phrase} (h : Derives φ cs rest) : Accepted φ cs rest := by
  induction h with intro depth hdepth
  | type _ ih => exact (ih depth hdepth).map (ofMembers .union)
  | inter _ ih => exact (ih depth hdepth).map (ofMembers .inter)
  | last _ ih => exact (ih.member hdepth).singleton fun _ => Joint.refuses_sep
  | more h hj _ ih ihmore =>
    have hmid := (skip_suffix_skip h.suffix).length_le
    have hnext := hj.toMark.length_lt (Joint.isLayout_mark _)
    have hends := hj.toMark.ends (Joint.isLayout_mark _) (Joint.isEnd_mark _)
    exact (ih.member hdepth).cons hends hj.run (ihmore depth (by omega))
  | prim hbefore _ hafter ih =>
    exact (ih depth (hbefore.skip_eq ▸ hdepth)).of_skip_eq hbefore.skip_eq hafter.skip_eq
  -- A bracket takes a character, so what is inside is read one level further in.
  | group hopen _ hclose ih =>
    have hlt := hopen.length_lt rfl
    obtain ⟨d, rfl⟩ : ∃ d, depth = d + 1 := ⟨depth - 1, by omega⟩
    exact reaches_group hopen (ih d (by omega)) hclose
  | any h =>
    obtain ⟨rfl, -⟩ := h
    exact reads_any.reaches _
  | self h =>
    obtain ⟨rfl, -⟩ := h
    exact reads_self.reaches _
  | inst h =>
    obtain ⟨rfl, -⟩ := h
    exact reads_inst.reaches _
  | cls h =>
    obtain ⟨rfl, -⟩ := h
    exact reads_cls.reaches _
  | var h => exact (reads_var h).reaches _
  | named hp h => exact reaches_named hp h
  | @applied p _ _ cs _ _ _ _ hp hopen _ hclose h ih =>
    have hlt := hopen.length_lt rfl
    have hle := (skip_suffix_skip (List.suffix_append p.toChars cs)).length_le
    obtain ⟨d, rfl⟩ : ∃ d, depth = d + 1 := ⟨depth - 1, by omega⟩
    exact reaches_applied hp hopen (ih d (by omega)) hclose h

/-! ## Whole sources -/

theorem read_of_denotes {source : String} (h : Denotes source t) : read source = .ok t := by
  obtain ⟨start, stop, hbefore, hderives, hafter⟩ := h
  have hread : Reaches (levelReader ((skip source.toList).length + 1)) ['|', '&'] t start stop :=
    accepted hderives _ (Nat.le_of_eq (congrArg List.length hbefore.skip_eq.symm))
  have hrun := hread (skip source.toList) ((skip_skip _).trans hbefore.skip_eq)
    ((Ends.nil _).of_skip_eq hafter.skip_eq)
  exact readAll_eq_ok_iff.mpr ⟨skip stop, hrun, by rw [skip_skip, hafter.skip_eq]; rfl⟩

/-- No source denotes two types. -/
theorem Grammar.Denotes.unique {source : String} {u : Ty} (ht : Denotes source t) (hu : Denotes source u) :
    t = u :=
  Except.ok.inj ((read_of_denotes ht).symm.trans (read_of_denotes hu))

/-- Reading a type accepts the sources that the grammar derives, and gives what they denote. -/
theorem read_eq_ok_iff (source : String) (t : Ty) : read source = .ok t ↔ Denotes source t :=
  ⟨denotes_of_read, read_of_denotes⟩

end Ty

end MixinTypes
