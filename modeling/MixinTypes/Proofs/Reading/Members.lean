import MixinTypes.Proofs.Reading.Names
import MixinTypes.Ty.Render

/-!
# Members of written types

Unions, intersections and arguments are all written as members with a separator between them, and read with
`sepBy1`. What `Separates` says of a separator is enough for all three.

1. `Reads` says that a reader gives back a type whose text comes next, and `Reaches` the same of any value and
   any two places. When each member is read back, so is the list (`reaches_members`, `run_members`).
2. `Stalls` says that it fails or stops at an opening angle bracket. When there is such a member, the list is
   left in front of that bracket or of a separator (`leaves_members`).
-/

namespace MixinTypes.Ty

open Text Reader

/-! ## What may follow -/

/-- The character neither goes on with a primary type nor is one of `more`. -/
abbrev IsEnd (more : List Char) (c : Char) : Prop :=
  isIdentChar c = false ∧ c ∉ [':', '.', '<'] ∧ c ∉ more

/-- After blanks the text is over or such a character comes. -/
def Ends (more cs : List Char) : Prop := ∀ c ∈ (skip cs).head?, IsEnd more c

namespace Ends

variable {more cs : List Char}

theorem nil (more : List Char) : Ends more [] := fun _ hc => nomatch hc

theorem of_head? {c : Char} (h : (skip cs).head? = some c) (hc : IsEnd more c) : Ends more cs := by
  intro d hd
  rw [h] at hd
  exact Option.some.inj hd ▸ hc

theorem cons {c : Char} (hlayout : isLayout c = false) (hc : IsEnd more c) (cs : List Char) :
    Ends more (c :: cs) :=
  of_head? (congrArg List.head? (skip_of_head? rfl hlayout)) hc

theorem of_skip_eq {ds : List Char} (h : Ends more cs) (hskip : skip ds = skip cs) : Ends more ds := by
  rw [Ends, hskip]
  exact h

theorem mono {more' : List Char} (h : Ends more cs) (hsub : ∀ c ∈ more', c ∈ more) : Ends more' cs :=
  fun c hc => ⟨(h c hc).1, (h c hc).2.1, fun hm => (h c hc).2.2 (hsub c hm)⟩

/-- What comes at once ends a name. -/
theorem head? (h : Ends more cs) : ∀ c ∈ cs.head?, isIdentChar c = false :=
  head?_of_skip (fun _ => isIdentChar_eq_false_of_isLayout) fun c hc => (h c hc).1

theorem not_mem {c : Char} (h : Ends more cs) (hc : c ∈ more) : (skip cs).head? ≠ some c :=
  fun e => (h c e).2.2 hc

end Ends

/-! ## Members -/

/-- The reader gives back the type when its text comes next, up to what ends it. -/
def Reads (p : Reader Ty) (more : List Char) (t : Ty) : Prop :=
  ∀ cs tail, skip cs = skip (t.toChars ++ tail) → Ends more tail → p.run cs = .ok (t, skip tail)

/-- The reader fails when the text of the type comes next, or stops at an opening angle bracket. -/
def Stalls (p : Reader Ty) (t : Ty) : Prop :=
  ∀ cs tail, skip cs = skip (t.toChars ++ tail) → p.Leaves cs ['<']

/-- Wherever the blanks before `cs` start, the value is read and `rest` is left, when it can end the phrase. -/
def Reaches (p : Reader α) (more : List Char) (a : α) (cs rest : List Char) : Prop :=
  ∀ ds, skip ds = skip cs → Ends more rest → p.run ds = .ok (a, skip rest)

/-- A type that is read back is reached behind its text. -/
theorem Reads.reaches {p : Reader Ty} {more : List Char} {t : Ty} (h : Reads p more t) (tail : List Char) :
    Reaches p more t (t.toChars ++ tail) tail :=
  fun cs => h cs tail

namespace Reaches

variable {α β : Type} {p : Reader α} {sep : Reader Unit} {c : Char} {a : α} {as : List α}
  {more more' cs mid next rest stop : List Char}

theorem of_skip_eq (h : Reaches p more a next stop) (hstart : skip cs = skip next)
    (hstop : skip stop = skip rest) : Reaches p more a cs rest := by
  intro ds hds hends
  rw [← hstop]
  exact h ds (hds.trans hstart) (hends.of_skip_eq hstop)

theorem map (h : Reaches p more a cs rest) (g : α → β) :
    Reaches (do let a ← p; return g a) more (g a) cs rest :=
  fun ds hds hends => run_bind (h ds hds hends)

/-- A value that no separator can follow is a list. -/
theorem singleton (h : Reaches p more a cs rest)
    (hsep : ∀ cs, (skip cs).head? ≠ some c → sep.Refuses (skip cs)) :
    Reaches (sepBy1 sep p) (c :: more) [a] cs rest := by
  intro ds hds hends
  have hmore : Ends more rest := hends.mono fun d hd => List.mem_cons_of_mem c hd
  exact run_sepBy1_singleton (h ds hds hmore) (hsep rest (hends.not_mem (List.mem_cons_self ..)))

/-- A value and a separator go in front of a list. -/
theorem cons (h : Reaches p more a cs mid) (hmid : Ends more mid)
    (hsep : ∃ after, sep.run (skip mid) = .ok ((), after) ∧ skip after = skip next ∧
      after.length < (skip mid).length)
    (hmore : Reaches (sepBy1 sep p) more' as next rest) :
    Reaches (sepBy1 sep p) more' (a :: as) cs rest := by
  intro ds hds hends
  obtain ⟨after, hrun, hafter, hlt⟩ := hsep
  exact run_sepBy1_cons (h ds hds hmid) hrun hlt (hmore after hafter hends)

end Reaches

/-- Between members the separator is written as `text`, with the character `c`, and reads it again but for
blanks. -/
structure Separates (sep : Reader Unit) (c : Char) (text : List Char) : Prop where
  run : ∀ cs, ∃ rest, sep.run (skip (text ++ cs)) = .ok ((), rest) ∧ skip rest = skip cs
  head : ∀ cs, (skip (text ++ cs)).head? = some c
  longer : ∀ cs, cs.length < (skip (text ++ cs)).length
  refuses : ∀ cs, (skip cs).head? ≠ some c → sep.Refuses cs

theorem separates_char {c : Char} (hc : isLayout c = false) : Separates (char c) c [' ', c, ' '] := by
  have hskip : ∀ cs, skip ([' ', c, ' '] ++ cs) = c :: ' ' :: cs := by
    intro cs
    rw [skip, List.cons_append, List.dropWhile_cons_of_pos rfl]
    exact List.dropWhile_cons_of_neg (by simp [hc])
  constructor
  · exact fun cs => ⟨' ' :: cs, hskip cs ▸ run_char c _, rfl⟩
  · exact fun cs => hskip cs ▸ rfl
  · intro cs
    rw [hskip, List.length_cons, List.length_cons]
    omega
  · refine fun cs h => refuses_char fun e => h ?_
    rwa [skip_of_head? e hc]

theorem separates_comma : Separates (padded (char ',')) ',' [',', ' '] where
  run cs := ⟨skip (' ' :: cs), run_padded (run_char ',' _), skip_skip _⟩
  head _ := rfl
  longer cs := by
    change cs.length < cs.length + 1 + 1
    omega
  refuses cs h := Refuses.padded (refuses_char h)

theorem Separates.exists_run {sep : Reader Unit} {c : Char} {text : List Char} (h : Separates sep c text)
    (cs : List Char) : ∃ after, sep.run (skip (text ++ cs)) = .ok ((), after) ∧ skip after = skip cs ∧
      after.length < (skip (text ++ cs)).length := by
  obtain ⟨after, hrun, hafter⟩ := h.run cs
  refine ⟨after, hrun, hafter, ?_⟩
  have hsuffix := (sep.within _).rest_suffix hrun
  -- A separator that takes nothing would stand before itself.
  refine Nat.lt_of_le_of_ne hsuffix.length_le fun hlen => ?_
  have hsame : skip (text ++ cs) = skip cs := by
    rw [← hafter, hsuffix.eq_of_length hlen, skip_skip]
  have hle := (skip_suffix cs).length_le
  have hlt := h.longer cs
  rw [hsame] at hlt
  omega

/-- Values that are read back one by one are read back as a list. -/
theorem reaches_members {α : Type} {p : Reader α} {sep : Reader Unit} {c : Char} {text more : List Char}
    {as : List α} (chars : α → List Char) (hsep : Separates sep c text) (hc : IsEnd more c) (hne : as ≠ [])
    (h : ∀ a ∈ as, ∀ tail, Reaches p more a (chars a ++ tail) tail) (tail : List Char) :
    Reaches (sepBy1 sep p) (c :: more) as (text.intercalate (as.map chars) ++ tail) tail := by
  have hrefuses : ∀ cs, (skip cs).head? ≠ some c → sep.Refuses (skip cs) :=
    fun cs hcs => hsep.refuses _ (by rwa [skip_skip])
  induction as with
  | nil => exact absurd rfl hne
  | cons a as ih =>
    obtain ⟨ha, has⟩ := List.forall_mem_cons.mp h
    cases as with
    | nil => simpa using (ha tail).singleton hrefuses
    | cons b bs =>
      have hrest := ih (List.cons_ne_nil b bs) has
      rw [List.map_cons, List.map_cons, List.intercalate_cons_cons, List.append_assoc, List.append_assoc]
      exact (ha _).cons (Ends.of_head? (hsep.head _) hc) (hsep.exists_run _) hrest

section Members

variable {p : Reader Ty} {sep : Reader Unit} {c : Char} {text more cs tail : List Char}
  {t : Ty} {ts : List Ty}

/-- What comes after the first member. -/
def following (text : List Char) (ts : List Ty) (tail : List Char) : List Char :=
  ts.flatMap (fun t => text ++ t.toChars) ++ tail

theorem following_cons (text : List Char) (t : Ty) (ts : List Ty) (tail : List Char) :
    following text (t :: ts) tail = text ++ (t.toChars ++ following text ts tail) := by
  simp [following]

theorem intercalate_toChars (text : List Char) (t : Ty) (ts : List Ty) (tail : List Char) :
    text.intercalate ((t :: ts).map toChars) ++ tail = t.toChars ++ following text ts tail := by
  rw [List.map_cons, intercalate_cons, List.flatMap_map, List.append_assoc, following]

theorem ends_following (hsep : Separates sep c text)
    (hc : IsEnd more c) (ts : List Ty) (htail : Ends more tail) : Ends more (following text ts tail) := by
  cases ts with
  | nil => exact htail
  | cons t ts =>
    rw [following_cons]
    exact Ends.of_head? (hsep.head _) hc

theorem length_skip_following (hsep : Separates sep c text) (t : Ty) (ts : List Ty) (tail : List Char) :
    (skip (following text ts tail)).length < (skip (following text (t :: ts) tail)).length := by
  rw [following_cons]
  refine Nat.lt_of_le_of_lt ?_ (hsep.longer _)
  rw [List.length_append]
  exact Nat.le_add_left_of_le (skip_suffix _).length_le

/-- A separator and a member that is read back lead to the next separator. -/
theorem run_following (hsep : Separates sep c text)
    (hc : IsEnd more c) (ht : Reads p more t)
    (htail : Ends more tail) (ts : List Ty) :
    (sep >>= fun _ => p).run (skip (following text (t :: ts) tail)) =
      .ok (t, skip (following text ts tail)) := by
  rw [following_cons]
  obtain ⟨rest, hrun, hrest⟩ := hsep.run (t.toChars ++ following text ts tail)
  exact (run_bind hrun).trans (ht rest _ hrest (ends_following hsep hc ts htail))

/-- Members that are read back one by one are read back as a list. -/
theorem run_members (hsep : Separates sep c text)
    (hc : IsEnd more c) (h : ∀ u ∈ t :: ts, Reads p more u)
    (hcs : skip cs = skip (text.intercalate ((t :: ts).map toChars) ++ tail))
    (htail : Ends (c :: more) tail) : (sepBy1 sep p).run cs = .ok (t :: ts, skip tail) :=
  reaches_members toChars hsep hc (List.cons_ne_nil t ts) (fun u hu => (h u hu).reaches) tail cs hcs htail

/-- A separator that cannot come next ends a list at what stopped the member before. -/
theorem rejects_stop (hsep : Separates sep c text) (hc : c ≠ '<') : sep.Rejects ['<'] := by
  intro cs d hd hcs
  obtain rfl := List.mem_singleton.mp hd
  refine hsep.refuses cs fun e => hc ?_
  rw [skip_of_head? hcs (by decide), hcs] at e
  exact (Option.some.inj e).symm

/-- When a member after the first makes the reader stall, the list ends before a separator or at an opening
angle bracket. -/
theorem head?_moreOf (hsep : Separates sep c text)
    (hc : IsEnd more c)
    (h : ∀ u ∈ ts, Reads p more u ∨ Stalls p u) (hstall : ∃ u ∈ ts, Stalls p u)
    (htail : Ends more tail) :
    ∃ d ∈ ['<', c], (moreOf sep p (skip (following text ts tail))).2.head? = some d := by
  induction ts with
  | nil => exact absurd hstall (by simp)
  | cons u us ih =>
    obtain ⟨hu, hus⟩ := List.forall_mem_cons.mp h
    have hhead : (skip (following text (u :: us) tail)).head? = some c := by
      rw [following_cons]
      exact hsep.head _
    by_cases hread : Reads p more u ∧ ∃ v ∈ us, Stalls p v
    · rw [moreOf_of_run (run_following hsep hc hread.1 htail us) (length_skip_following hsep u us tail)]
      exact ih hus hread.2
    · have hu : Stalls p u := by
        obtain ⟨v, hv, hvs⟩ := hstall
        rcases List.mem_cons.mp hv with rfl | hv
        · exact hvs
        · exact hu.resolve_left fun hr => hread ⟨hr, v, hv, hvs⟩
      have hleaves : (sep >>= fun _ => p).Leaves (skip (following text (u :: us) tail)) ['<'] := by
        rw [following_cons]
        obtain ⟨rest, hrun, hrest⟩ := hsep.run (u.toChars ++ following text us tail)
        intro b rest' e
        exact hu rest _ hrest b rest' ((run_bind hrun).symm.trans e)
      rcases hleaves.moreOf (rejects_stop hsep fun e => hc.2.1 (by simp [e])) with e | ⟨d, hd, hrest⟩
      · rw [e]
        exact ⟨c, by simp, hhead⟩
      · exact ⟨d, by simp_all, hrest⟩

/-- When one of the members makes the reader stall, so does the list. -/
theorem leaves_members (hsep : Separates sep c text)
    (hc : IsEnd more c)
    (h : ∀ u ∈ t :: ts, Reads p more u ∨ Stalls p u) (hstall : ∃ u ∈ t :: ts, Stalls p u)
    (hcs : skip cs = skip (text.intercalate ((t :: ts).map toChars) ++ tail)) (htail : Ends more tail) :
    (sepBy1 sep p).Leaves cs ['<', c] := by
  rw [intercalate_toChars] at hcs
  obtain ⟨ht, hts⟩ := List.forall_mem_cons.mp h
  by_cases hfirst : Stalls p t
  · exact ((hfirst cs _ hcs).sepBy1 (rejects_stop hsep fun e => hc.2.1 (by simp [e]))).mono (by simp)
  · have hread : Reads p more t := ht.resolve_right hfirst
    have hstall : ∃ u ∈ ts, Stalls p u := by
      obtain ⟨u, hu, hus⟩ := hstall
      rcases List.mem_cons.mp hu with rfl | hu
      · exact absurd hus hfirst
      · exact ⟨u, hu, hus⟩
    obtain ⟨d, hd, hhead⟩ := head?_moreOf hsep hc hts hstall htail
    exact leaves_of_run (run_sepBy1 sep (hread cs _ hcs (ends_following hsep hc ts htail))) hd hhead

end Members

end MixinTypes.Ty
