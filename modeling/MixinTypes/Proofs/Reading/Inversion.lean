import MixinTypes.Proofs.Reading.Combinators

/-!
# What a run was made of

A value that was read tells what the parts of the reader have read, and between which places: a sequence
(`of_run_bind`), a choice (`of_run_orElse`), an option, a filter, and blanks around. A list that was read is one
element, or an element and a separator in front of a list (`of_run_sepBy1`). For whole sources
`readAll_eq_ok_iff` says so in both directions.
-/

namespace MixinTypes.Text.Reader

variable {α β : Type} {p q : Reader α} {f : α → Reader β} {sep : Reader Unit} {cs mid next rest : List Char}
  {a b : α} {as : List α}

/-! ## Sequence and choice -/

theorem of_run_bind {b : β} (h : (p >>= f).run cs = .ok (b, rest)) :
    ∃ a mid, p.run cs = .ok (a, mid) ∧ (f a).run mid = .ok (b, rest) := by
  change (p.andThen f).run cs = _ at h
  simp only [andThen] at h
  split at h
  · cases h
  · next a mid hp => exact ⟨a, mid, hp, h⟩

theorem of_run_pure (h : (pure a : Reader α).run cs = .ok (b, rest)) : a = b ∧ cs = rest :=
  Prod.mk.inj (Except.ok.inj h)

theorem of_run_orElse (h : (p <|> q).run cs = .ok (a, rest)) :
    p.run cs = .ok (a, rest) ∨ q.run cs = .ok (a, rest) := by
  rcases refuses_or_run p cs with hp | ⟨b, mid, hp⟩
  · exact .inr (hp.run_orElse.symm.trans h)
  · rw [run_orElse hp] at h
    exact .inl (hp.trans h)

theorem of_run_optional {o : Option α} (h : (optional p).run cs = .ok (o, rest)) :
    (o = none ∧ cs = rest) ∨ ∃ a, o = some a ∧ p.run cs = .ok (a, rest) := by
  rcases refuses_or_run p cs with hp | ⟨b, mid, hp⟩
  · obtain ⟨rfl, rfl⟩ := Prod.mk.inj (Except.ok.inj (hp.run_optional.symm.trans h))
    exact .inl ⟨rfl, rfl⟩
  · obtain ⟨rfl, rfl⟩ := Prod.mk.inj (Except.ok.inj ((run_optional hp).symm.trans h))
    exact .inr ⟨b, rfl, hp⟩

theorem of_run_filter {good : α → Bool} (h : (p.filter good).run cs = .ok (a, rest)) :
    p.run cs = .ok (a, rest) ∧ good a = true := by
  simp only [filter] at h
  split at h
  · cases h
  · next b mid hp =>
    split at h
    · next hb =>
      obtain ⟨rfl, rfl⟩ := Prod.mk.inj (Except.ok.inj h)
      exact ⟨hp, hb⟩
    · cases h

/-! ## Characters and blanks -/

theorem of_run_satisfy {good : Char → Bool} {c : Char} (h : (satisfy good).run cs = .ok (c, rest)) :
    cs = c :: rest ∧ good c = true := by
  cases cs with
  | nil => cases h
  | cons d cs =>
    simp only [satisfy] at h
    split at h
    · next hd =>
      obtain ⟨rfl, rfl⟩ := Prod.mk.inj (Except.ok.inj h)
      exact ⟨rfl, hd⟩
    · cases h

theorem of_run_char {c : Char} {u : Unit} (h : (char c).run cs = .ok (u, rest)) : cs = c :: rest := by
  cases cs with
  | nil => cases h
  | cons d cs =>
    simp only [char] at h
    split at h
    · next hd =>
      obtain ⟨-, rfl⟩ := Prod.mk.inj (Except.ok.inj h)
      rw [hd]
    · cases h

theorem of_run_text {w : String} {u : Unit} (h : (text w).run cs = .ok (u, rest)) :
    cs = w.toList ++ rest := by
  simp only [text] at h
  split at h
  · next hw =>
    obtain ⟨-, rfl⟩ := Prod.mk.inj (Except.ok.inj h)
    exact (List.prefix_iff_eq_append.mp hw).symm
  · cases h

theorem of_run_word {w : String} {u : Unit} (h : (word w).run cs = .ok (u, rest)) :
    cs = w.toList ++ rest ∧ ∀ c ∈ rest.head?, isIdentChar c = false := by
  obtain ⟨_, mid, htext, h⟩ := of_run_bind h
  simp only [notBefore] at h
  split at h
  · cases h
  · next hend =>
    obtain ⟨-, rfl⟩ := Prod.mk.inj (Except.ok.inj h)
    refine ⟨of_run_text htext, fun c hc => ?_⟩
    rw [Option.mem_def] at hc
    simpa [hc] using hend

theorem of_run_takeWhile {good : Char → Bool} {cs ds : List Char}
    (h : (takeWhile good).run cs = .ok (ds, rest)) : cs = ds ++ rest ∧ ∀ c ∈ ds, good c = true := by
  obtain ⟨rfl, rfl⟩ := Prod.mk.inj (Except.ok.inj h)
  exact ⟨List.takeWhile_append_dropWhile.symm, fun c hc => List.all_eq_true.mp List.all_takeWhile c hc⟩

theorem of_run_padded (h : p.padded.run cs = .ok (a, rest)) :
    ∃ mid, p.run (skip cs) = .ok (a, mid) ∧ skip mid = rest := by
  obtain ⟨_, start, hbefore, h⟩ := of_run_bind h
  obtain ⟨b, mid, hp, h⟩ := of_run_bind h
  obtain ⟨_, stop, hafter, h⟩ := of_run_bind h
  obtain ⟨rfl, rfl⟩ := of_run_pure h
  obtain ⟨-, rfl⟩ := Prod.mk.inj (Except.ok.inj hbefore)
  obtain ⟨-, rfl⟩ := Prod.mk.inj (Except.ok.inj hafter)
  exact ⟨mid, hp, rfl⟩

/-! ## Lists -/

/-- Whatever holds of one element, and of an element and a separator in front of a list that it holds of, holds
of every list that is read. -/
theorem of_run_sepBy1 {R : List α → List Char → List Char → Prop}
    (one : ∀ {a cs rest}, p.run cs = .ok (a, rest) → R [a] cs rest)
    (cons : ∀ {a as cs mid next rest}, p.run cs = .ok (a, mid) → sep.run mid = .ok ((), next) →
      R as next rest → R (a :: as) cs rest)
    (h : (sepBy1 sep p).run cs = .ok (as, rest)) : R as cs rest := by
  -- The loop begins behind an element, so the induction is about that element with what the loop adds to it.
  have more : ∀ mid a cs, p.run cs = .ok (a, mid) →
      R (a :: (moreOf sep p mid).1) cs (moreOf sep p mid).2 := by
    intro mid
    fun_induction moreOf sep p mid with
    | case1 => exact fun _ _ => one
    | case2 mid b stop hb _ _ ih =>
      intro a cs ha
      obtain ⟨_, next, hsep, hp⟩ := of_run_bind (f := fun _ => p) hb
      exact cons ha hsep (ih b next hp)
    | case3 => exact fun _ _ => one
  rcases refuses_or_run p cs with ⟨stop, hp⟩ | ⟨a, mid, hp⟩
  · simp only [sepBy1, hp] at h
    cases h
  · rw [run_sepBy1 sep hp] at h
    obtain ⟨rfl, rfl⟩ := Prod.mk.inj (Except.ok.inj h)
    exact more mid a cs hp

/-! ## Whole sources -/

/-- A whole source is read when nothing is left of it but blanks. -/
theorem readAll_eq_ok_iff {subject source : String} :
    p.readAll subject source = .ok a ↔ ∃ mid, p.run (skip source.toList) = .ok (a, mid) ∧ skip mid = [] := by
  constructor
  · intro h
    unfold readAll at h
    split at h
    · next b rest hrun =>
      obtain rfl := Except.ok.inj h
      obtain ⟨c, stop, hpadded, hrun⟩ := of_run_bind hrun
      obtain ⟨_, last, hend, hrun⟩ := of_run_bind hrun
      obtain ⟨rfl, -⟩ := of_run_pure hrun
      obtain ⟨mid, hp, rfl⟩ := of_run_padded hpadded
      refine ⟨mid, hp, ?_⟩
      simp only [endOfText] at hend
      split at hend
      · next hempty => simpa using hempty
      · cases hend
    · cases h
  · rintro ⟨mid, hp, hmid⟩
    exact readAll_of_run (hmid ▸ run_padded hp)

end MixinTypes.Text.Reader
