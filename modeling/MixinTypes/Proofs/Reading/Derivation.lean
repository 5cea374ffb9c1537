import MixinTypes.Proofs.Reading.Grammar
import MixinTypes.Proofs.Reading.Inversion

/-!
# What is read is derived

Each reader is one phrase of the grammar (`Obeys`): a run that gives a value leads from where it started to
where it ended. The readers of nested types are given what is inside, so each lemma assumes this of the inner
reader, and the depth is the induction (`obeys_levelReader`). Choices that were refused before play no part, so
a source that was read denotes the type (`denotes_of_read`).
-/

namespace MixinTypes

open Text Reader

/-! ## Names -/

section Names

variable {cs rest name : List Char}

theorem of_run_identifier (h : identifier.run cs = .ok (name, rest)) :
    cs = name ++ rest ∧ IsIdentifier name := by
  refine ⟨?_, gives_identifier _ _ _ h⟩
  obtain ⟨c, mid, hfirst, h⟩ := of_run_bind h
  obtain ⟨ds, stop, hmore, h⟩ := of_run_bind h
  obtain ⟨rfl, rfl⟩ := of_run_pure h
  rw [(of_run_satisfy hfirst).1, (of_run_takeWhile hmore).1, List.cons_append]

theorem of_run_constant (h : constant.run cs = .ok (name, rest)) : cs = name ++ rest :=
  (of_run_identifier (of_run_filter h).1).1

/-- Constants were read with a double colon in front of each but the first. -/
theorem of_run_segments {segments : List (List Char)}
    (h : (sepBy1 (text "::") constant).run cs = .ok (segments, rest)) :
    cs = [':', ':'].intercalate segments ++ rest := by
  let Spells (ts : List (List Char)) (ds stop : List Char) :=
    ts ≠ [] ∧ ds = [':', ':'].intercalate ts ++ stop
  have hspells : Spells segments cs rest := by
    refine of_run_sepBy1 (R := Spells) (fun h => ?_) (fun {a ts ds mid next stop} h hsep hmore => ?_) h
    · exact ⟨List.cons_ne_nil _ _, by simpa using of_run_constant h⟩
    · refine ⟨List.cons_ne_nil _ _, ?_⟩
      obtain ⟨t, ts, rfl⟩ := List.exists_cons_of_ne_nil hmore.1
      rw [of_run_constant h, of_run_text hsep, hmore.2, List.intercalate_cons_cons]
      simp
  exact hspells.2

theorem of_run_path {p : Path} (h : path.run cs = .ok (p, rest)) : cs = p.toChars ++ rest ∧ p.Written := by
  refine ⟨?_, gives_path _ _ _ h⟩
  obtain ⟨top, start, htop, h⟩ := of_run_bind h
  obtain ⟨segments, stop, hsegments, h⟩ := of_run_bind h
  obtain ⟨rfl, rfl⟩ := of_run_pure h
  have hchars := Path.map_toList_map_ofList segments
  rcases of_run_optional htop with ⟨rfl, rfl⟩ | ⟨u, rfl, hcolons⟩
  · simpa [Path.toChars, hchars] using of_run_segments hsegments
  · rw [of_run_text hcolons, of_run_segments hsegments]
    simp [Path.toChars, hchars]

end Names

namespace Ty

open Grammar

variable {inner p : Reader Ty} {t : Ty} {ts : List Ty} {f : Facet} {c : Char} {w : String} {j : Joint}
  {cs rest : List Char}

theorem mark_of_run {u : Unit} (h : (padded (char c)).run cs = .ok (u, rest)) : Mark c cs rest := by
  obtain ⟨after, hchar, rfl⟩ := of_run_padded h
  exact ⟨after, of_run_char hchar ▸ blanks_skip cs, blanks_skip after⟩

theorem suffix_of_run (h : suffixReader.run cs = .ok (f, rest)) : Suffix f cs rest := by
  obtain ⟨_, start, hdot, h⟩ := of_run_bind h
  obtain rfl := of_run_char hdot
  rcases of_run_orElse h with h | h
  · obtain ⟨_, mid, hmodule, h⟩ := of_run_bind h
    obtain ⟨rfl, rfl⟩ := of_run_pure h
    exact .moduleObject (of_run_word hmodule)
  · obtain ⟨_, mid, hclass, h⟩ := of_run_bind h
    obtain ⟨constructs, stop, hconstructs, h⟩ := of_run_bind h
    obtain ⟨rfl, rfl⟩ := of_run_pure h
    rcases of_run_optional hconstructs with ⟨rfl, rfl⟩ | ⟨u, rfl, hconstructor⟩
    · exact .classObject (of_run_word hclass)
    · obtain ⟨_, next, hblanks, hmore⟩ := of_run_bind hconstructor
      obtain ⟨-, rfl⟩ := Prod.mk.inj (Except.ok.inj hblanks)
      exact .constructing (of_run_word hclass) (blanks_skip mid) (of_run_word hmore)

/-- Every run of the reader that gives a type is a phrase. -/
def Obeys (p : Reader Ty) (phrase : Ty → Phrase) : Prop :=
  ∀ cs t rest, p.run cs = .ok (t, rest) → Derives (phrase t) cs rest

theorem derives_list (h : Obeys p j.member) {sep : Reader Unit}
    (hsep : ∀ {cs rest}, sep.run cs = .ok ((), rest) → j.Between cs rest)
    (hrun : (sepBy1 sep p).run cs = .ok (ts, rest)) : Derives (.list j ts) cs rest :=
  of_run_sepBy1 (R := fun ts => Derives (.list j ts)) (fun hp => .last (h _ _ _ hp))
    (fun hp hs hmore => .more (h _ _ _ hp) (hsep hs) hmore) hrun

theorem of_run_argsReader (h : Obeys inner .type) (hrun : (argsReader inner).run cs = .ok (ts, rest)) :
    ∃ inside stop, Mark '<' cs inside ∧ Derives (.list .comma ts) inside stop ∧ Mark '>' stop rest := by
  obtain ⟨_, inside, hopen, hrun⟩ := of_run_bind hrun
  obtain ⟨args, stop, hargs, hrun⟩ := of_run_bind hrun
  obtain ⟨_, last, hclose, hrun⟩ := of_run_bind hrun
  obtain ⟨rfl, rfl⟩ := of_run_pure hrun
  exact ⟨inside, stop, mark_of_run hopen, derives_list (j := .comma) h mark_of_run hargs, mark_of_run hclose⟩

theorem obeys_namedReader (h : Obeys inner .type) : Obeys (namedReader inner) .atom := by
  intro cs t rest hrun
  obtain ⟨p, mid, hpath, hrun⟩ := of_run_bind hrun
  obtain ⟨args, next, hargs, hrun⟩ := of_run_bind hrun
  obtain ⟨suffix, stop, hsuffix, hrun⟩ := of_run_bind hrun
  obtain ⟨rfl, rfl⟩ := of_run_pure hrun
  obtain ⟨rfl, hp⟩ := of_run_path hpath
  have hending : Ending p (suffix.getD (plainFacet p)) next stop := by
    rcases of_run_optional hsuffix with ⟨rfl, rfl⟩ | ⟨f, rfl, hf⟩
    · exact .plain
    · exact .suffixed (suffix_of_run hf)
  rcases of_run_optional hargs with ⟨rfl, rfl⟩ | ⟨ts, rfl, happlied⟩
  · exact .named hp hending
  · obtain ⟨inside, last, hopen, hts, hclose⟩ := of_run_argsReader h happlied
    exact .applied hp hopen hts hclose hending

theorem obeys_groupReader (h : Obeys inner .type) : Obeys (groupReader inner) .atom := by
  intro cs t rest hrun
  obtain ⟨_, inside, hopen, hrun⟩ := of_run_bind hrun
  obtain ⟨u, stop, hinner, hrun⟩ := of_run_bind hrun
  obtain ⟨_, last, hclose, hrun⟩ := of_run_bind hrun
  obtain ⟨rfl, rfl⟩ := of_run_pure hrun
  exact .group (mark_of_run hopen) (h _ _ _ hinner) (mark_of_run hclose)

theorem obeys_varReader : Obeys (do let name ← varReader; return .var name) .atom := by
  intro cs t rest hrun
  obtain ⟨name, stop, hvar, hrun⟩ := of_run_bind hrun
  obtain ⟨rfl, rfl⟩ := of_run_pure hrun
  obtain ⟨_, start, hquote, hvar⟩ := of_run_bind hvar
  obtain ⟨chars, last, hname, hvar⟩ := of_run_bind hvar
  obtain ⟨rfl, rfl⟩ := of_run_pure hvar
  obtain ⟨rfl, hident⟩ := of_run_identifier hname
  have hchars : (String.ofList chars).toList = chars := String.toList_ofList
  have hphrase : Derives (.atom (.var (String.ofList chars)))
      ('\x27' :: (String.ofList chars).toList ++ last) last := .var (by rwa [hchars])
  rw [of_run_char hquote]
  rwa [hchars] at hphrase

theorem obeys_word (h : ∀ {cs rest}, Word w cs rest → Derives (.atom t) cs rest) :
    Obeys (do word w; return t) .atom := by
  intro cs u rest hrun
  obtain ⟨_, stop, hword, hrun⟩ := of_run_bind hrun
  obtain ⟨rfl, rfl⟩ := of_run_pure hrun
  exact h (of_run_word hword)

theorem Obeys.orElse {q : Reader Ty} {phrase : Ty → Phrase} (hp : Obeys p phrase) (hq : Obeys q phrase) :
    Obeys (p <|> q) phrase :=
  fun cs t rest hrun => (of_run_orElse hrun).elim (hp cs t rest) (hq cs t rest)

theorem obeys_primaryReader (h : Obeys inner .type) : Obeys (primaryReader inner) .prim := by
  intro cs t rest hrun
  obtain ⟨stop, hatom, rfl⟩ := of_run_padded hrun
  refine .prim (blanks_skip cs) ((obeys_groupReader h).orElse ?_ _ _ _ hatom) (blanks_skip stop)
  refine (obeys_word .any).orElse ((obeys_word .self).orElse ?_)
  refine (obeys_word .inst).orElse ((obeys_word .cls).orElse ?_)
  exact obeys_varReader.orElse (obeys_namedReader h)

theorem obeys_interReader (h : Obeys inner .type) : Obeys (interReader inner) .inter := by
  intro cs t rest hrun
  obtain ⟨ts, stop, hts, hrun⟩ := of_run_bind hrun
  obtain ⟨rfl, rfl⟩ := of_run_pure hrun
  exact .inter (derives_list (j := .ampersand) (obeys_primaryReader h) of_run_char hts)

theorem obeys_unionReader (h : Obeys inner .type) : Obeys (unionReader inner) .type := by
  intro cs t rest hrun
  obtain ⟨ts, stop, hts, hrun⟩ := of_run_bind hrun
  obtain ⟨rfl, rfl⟩ := of_run_pure hrun
  exact .type (derives_list (j := .bar) (obeys_interReader h) of_run_char hts)

theorem obeys_levelReader (depth : Nat) : Obeys (levelReader depth) .type := by
  induction depth with
  | zero => exact fun _ _ _ hrun => nomatch hrun
  | succ depth ih => exact obeys_unionReader ih

theorem obeys_reader : Obeys reader .type := fun cs => obeys_levelReader (cs.length + 1) cs

/-- A source that was read denotes the type. -/
theorem denotes_of_read {source : String} (h : read source = .ok t) : Denotes source t := by
  obtain ⟨stop, hrun, hstop⟩ := readAll_eq_ok_iff.mp h
  exact ⟨skip source.toList, stop, blanks_skip _, obeys_reader _ _ _ hrun, hstop ▸ blanks_skip stop⟩

end Ty

end MixinTypes
