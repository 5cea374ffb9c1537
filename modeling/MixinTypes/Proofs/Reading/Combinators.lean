import MixinTypes.Text.Identifier

/-!
# What readers give and where they fail

1. A reader `Gives` a property when every value that it reads has it. Each way to build a reader has one
   lemma, so what the values of a grammar look like is read off the grammar.
2. A reader `Refuses` a text when it reads no value from it. Choice and options then go on with what is left.
3. What a list reader does from one separator to the next determines what it reads (`moreOf_eq`).
4. A reader `Leaves` one of some characters when that is in front of what it has not read. A reader that
   needs another character there refuses the text.
-/

namespace MixinTypes.Text.Reader

variable {α β : Type} {p q : Reader α} {f : α → Reader β} {P : α → Prop} {Q : β → Prop}
  {cs rest stop : List Char} {a : α} {good : Char → Bool}

/-! ## Values -/

/-- Every value that is read has the property. -/
def Gives (p : Reader α) (P : α → Prop) : Prop :=
  ∀ cs a rest, p.run cs = .ok (a, rest) → P a

namespace Gives

theorem trivial (p : Reader α) : p.Gives fun _ => True := fun _ _ _ _ => ⟨⟩

theorem pure (h : P a) : (Pure.pure a : Reader α).Gives P := by
  intro cs b rest e
  obtain ⟨rfl, -⟩ := Prod.mk.inj (Except.ok.inj e)
  exact h

theorem fail : (Reader.fail : Reader α).Gives P := by
  intro cs a rest e
  cases e

theorem bind (hp : p.Gives P) (hf : ∀ a, P a → (f a).Gives Q) : (p >>= f).Gives Q := by
  intro cs b rest e
  change (p.andThen f).run cs = _ at e
  simp only [andThen] at e
  split at e
  · cases e
  · next a rest' h => exact hf a (hp _ _ _ h) _ _ _ e

theorem orElse (hp : p.Gives P) (hq : q.Gives P) : (p <|> q).Gives P := by
  intro cs a rest e
  change (p.orElse q).run cs = _ at e
  simp only [Reader.orElse] at e
  split at e
  · exact hq _ _ _ e
  · next r h =>
    obtain rfl := Except.ok.inj e
    exact hp _ _ _ h

theorem optional (hp : p.Gives P) : (optional p).Gives fun o => ∀ a ∈ o, P a := by
  intro cs o rest e
  simp only [Reader.optional] at e
  split at e
  · obtain ⟨rfl, -⟩ := Prod.mk.inj (Except.ok.inj e)
    intro a ha
    cases ha
  · next a rest' h =>
    obtain ⟨rfl, -⟩ := Prod.mk.inj (Except.ok.inj e)
    exact fun b hb => Option.some.inj hb ▸ hp _ _ _ h

theorem filter (hp : p.Gives P) (ok : α → Bool) : (p.filter ok).Gives fun a => P a ∧ ok a = true := by
  intro cs a rest e
  simp only [Reader.filter] at e
  split at e
  · cases e
  · next b rest' h =>
    split at e
    · next hok =>
      obtain ⟨rfl, -⟩ := Prod.mk.inj (Except.ok.inj e)
      exact ⟨hp _ _ _ h, hok⟩
    · cases e

theorem satisfy (good : Char → Bool) : (satisfy good).Gives fun c => good c = true := by
  intro cs c rest e
  cases cs with
  | nil => cases e
  | cons d ds =>
    simp only [Reader.satisfy] at e
    split at e
    · next h =>
      obtain ⟨rfl, -⟩ := Prod.mk.inj (Except.ok.inj e)
      exact h
    · cases e

theorem takeWhile (good : Char → Bool) : (takeWhile good).Gives fun cs => ∀ c ∈ cs, good c = true := by
  intro cs ds rest e
  obtain ⟨rfl, -⟩ := Prod.mk.inj (Except.ok.inj e)
  exact fun c hc => List.all_eq_true.mp List.all_takeWhile c hc

theorem padded (hp : p.Gives P) : p.padded.Gives P :=
  bind (trivial _) fun _ _ => bind hp fun _ ha => bind (trivial _) fun _ _ => pure ha

theorem moreOf (hp : p.Gives P) (sep : Reader Unit) (cs : List Char) :
    ∀ a ∈ (moreOf sep p cs).1, P a := by
  have hsep : (sep.andThen fun _ => p).Gives P := bind (trivial sep) fun _ _ => hp
  fun_induction Reader.moreOf sep p cs with
  | case1 => exact List.forall_mem_nil _
  | case2 _ a rest h _ _ ih => exact List.forall_mem_cons.mpr ⟨hsep _ _ _ h, ih⟩
  | case3 => exact List.forall_mem_nil _

theorem sepBy1 (hp : p.Gives P) (sep : Reader Unit) :
    (sepBy1 sep p).Gives fun as => as ≠ [] ∧ ∀ a ∈ as, P a := by
  intro cs as rest e
  simp only [Reader.sepBy1] at e
  split at e
  · cases e
  · next a rest' h =>
    obtain ⟨rfl, -⟩ := Prod.mk.inj (Except.ok.inj e)
    exact ⟨List.cons_ne_nil _ _, List.forall_mem_cons.mpr ⟨hp _ _ _ h, hp.moreOf sep rest'⟩⟩

theorem sepBy (hp : p.Gives P) (sep : Reader Unit) : (sepBy sep p).Gives fun as => ∀ a ∈ as, P a :=
  Gives.orElse (fun cs as rest e => (hp.sepBy1 sep cs as rest e).2) (pure (List.forall_mem_nil _))

theorem bounded {level : Nat → Reader α} (h : ∀ n, (level n).Gives P) : (bounded level).Gives P :=
  fun _ _ _ e => h _ _ _ _ e

end Gives

/-! ## Sequence and choice -/

/-- No value is read from the text. -/
def Refuses (p : Reader α) (cs : List Char) : Prop := ∃ stop, p.run cs = .error stop

theorem run_bind (h : p.run cs = .ok (a, rest)) : (p >>= f).run cs = (f a).run rest := by
  change (p.andThen f).run cs = _
  simp only [andThen, h]

theorem run_bind_of_error (h : p.run cs = .error stop) : (p >>= f).run cs = .error stop := by
  change (p.andThen f).run cs = _
  simp only [andThen, h]

theorem Refuses.bind (h : p.Refuses cs) : (p >>= f).Refuses cs := by
  obtain ⟨stop, h⟩ := h
  exact ⟨stop, run_bind_of_error h⟩

theorem refuses_bind (h : p.run cs = .ok (a, rest)) (hf : (f a).Refuses rest) :
    (p >>= f).Refuses cs := by
  obtain ⟨stop, hf⟩ := hf
  exact ⟨stop, (run_bind h).trans hf⟩

theorem run_orElse (h : p.run cs = .ok (a, rest)) : (p <|> q).run cs = .ok (a, rest) := by
  change (p.orElse q).run cs = _
  simp only [orElse, h]

theorem Refuses.run_orElse (h : p.Refuses cs) : (p <|> q).run cs = q.run cs := by
  obtain ⟨stop, h⟩ := h
  change (p.orElse q).run cs = _
  simp only [orElse, h]

theorem Refuses.orElse (h : p.Refuses cs) (h' : q.Refuses cs) : (p <|> q).Refuses cs := by
  obtain ⟨stop, h'⟩ := h'
  exact ⟨stop, h.run_orElse.trans h'⟩

theorem run_optional (h : p.run cs = .ok (a, rest)) : (optional p).run cs = .ok (some a, rest) := by
  simp only [optional, h]

theorem Refuses.run_optional (h : p.Refuses cs) : (optional p).run cs = .ok (none, cs) := by
  obtain ⟨stop, h⟩ := h
  simp only [optional, h]

theorem run_filter {ok : α → Bool} (h : p.run cs = .ok (a, rest)) (ha : ok a = true) :
    (p.filter ok).run cs = .ok (a, rest) := by
  simp only [filter, h, ha, if_true]

theorem Refuses.filter (h : p.Refuses cs) (ok : α → Bool) : (p.filter ok).Refuses cs := by
  obtain ⟨stop, h⟩ := h
  exact ⟨stop, by simp only [Reader.filter, h]⟩

/-! ## Characters, words and blanks -/

/-- What is left of a text after the blanks at its front. -/
def skip (cs : List Char) : List Char := cs.dropWhile isLayout

theorem skip_eq_self (h : ∀ c ∈ cs.head?, isLayout c = false) : skip cs = cs := by
  cases cs with
  | nil => rfl
  | cons c cs => exact List.dropWhile_cons_of_neg (by simp [h c rfl])

theorem skip_of_head? {c : Char} (h : cs.head? = some c) (hc : isLayout c = false) : skip cs = cs := by
  refine skip_eq_self fun d hd => ?_
  rw [h] at hd
  exact Option.some.inj hd ▸ hc

@[simp] theorem skip_skip (cs : List Char) : skip (skip cs) = skip cs := by
  refine skip_eq_self fun c hc => ?_
  have hfirst := List.head?_dropWhile_not isLayout cs
  rw [Option.mem_def, skip] at hc
  simpa [hc] using hfirst

theorem skip_suffix (cs : List Char) : skip cs <:+ cs := List.dropWhile_suffix _

theorem run_char (c : Char) (cs : List Char) : (char c).run (c :: cs) = .ok ((), cs) := by
  simp [char]

theorem refuses_char {c : Char} (h : cs.head? ≠ some c) : (char c).Refuses cs := by
  cases cs with
  | nil => exact ⟨_, rfl⟩
  | cons d cs =>
    have hd : d ≠ c := fun e => h (congrArg some e)
    exact ⟨_, if_neg hd⟩

theorem run_text (w : String) (cs : List Char) : (text w).run (w.toList ++ cs) = .ok ((), cs) := by
  simp [text]

theorem refuses_text {w : String} (h : ¬ w.toList <+: cs) : (text w).Refuses cs := ⟨_, if_neg h⟩

theorem run_word (w : String) (h : ∀ c ∈ cs.head?, isIdentChar c = false) :
    (word w).run (w.toList ++ cs) = .ok ((), cs) := by
  have hcs : ¬ cs.head?.any isIdentChar = true := by
    cases hc : cs.head? <;> simp_all
  exact (run_bind (run_text w cs)).trans (if_neg hcs)

theorem refuses_word {w : String} (h : ¬ w.toList <+: cs) : (word w).Refuses cs := (refuses_text h).bind

theorem run_blanks (cs : List Char) : blanks.run cs = .ok ((), skip cs) := rfl

theorem run_padded (h : p.run (skip cs) = .ok (a, rest)) : p.padded.run cs = .ok (a, skip rest) :=
  (run_bind (run_blanks cs)).trans ((run_bind h).trans (run_bind (run_blanks rest)))

theorem run_padded_congr {q : Reader α} (h : p.run (skip cs) = q.run (skip cs)) :
    p.padded.run cs = q.padded.run cs := by
  refine (run_bind (run_blanks cs)).trans (Eq.trans ?_ (run_bind (run_blanks cs)).symm)
  change (p.andThen _).run (skip cs) = (q.andThen _).run (skip cs)
  simp only [andThen, h]

theorem Refuses.padded (h : p.Refuses (skip cs)) : p.padded.Refuses cs :=
  refuses_bind (run_blanks cs) h.bind

theorem run_takeWhile {as : List Char} (has : ∀ c ∈ as, good c = true)
    (hcs : ∀ c ∈ cs.head?, good c = false) : (takeWhile good).run (as ++ cs) = .ok (as, cs) := by
  have hnone : cs.takeWhile good = [] ∧ cs.dropWhile good = cs := by
    cases cs with
    | nil => exact ⟨rfl, rfl⟩
    | cons c cs =>
      have hc := hcs c rfl
      exact ⟨List.takeWhile_cons_of_neg (by simp [hc]), List.dropWhile_cons_of_neg (by simp [hc])⟩
  simp only [takeWhile, List.takeWhile_append_of_pos has, List.dropWhile_append_of_pos has, hnone,
    List.append_nil]

/-! ## Lists -/

variable {sep : Reader Unit} {mid next : List Char} {as : List α}

theorem moreOf_of_refuses (h : (sep >>= fun _ => p).Refuses cs) : moreOf sep p cs = ([], cs) := by
  obtain ⟨stop, h⟩ := h
  change (sep.andThen fun _ => p).run cs = _ at h
  rw [moreOf, h]

theorem moreOf_of_run (h : (sep >>= fun _ => p).run cs = .ok (a, rest))
    (hlt : rest.length < cs.length) :
    moreOf sep p cs = (a :: (moreOf sep p rest).1, (moreOf sep p rest).2) := by
  change (sep.andThen fun _ => p).run cs = _ at h
  rw [moreOf, h]
  exact dif_pos hlt

theorem run_sepBy1 (sep : Reader Unit) (h : p.run cs = .ok (a, rest)) :
    (sepBy1 sep p).run cs = .ok (a :: (moreOf sep p rest).1, (moreOf sep p rest).2) := by
  simp only [sepBy1, h]

theorem Refuses.sepBy1 (h : p.Refuses cs) : (sepBy1 sep p).Refuses cs := by
  obtain ⟨stop, h⟩ := h
  exact ⟨stop, by simp only [Reader.sepBy1, h]⟩

/-- An element that no separator follows is a list. -/
theorem run_sepBy1_singleton (h : p.run cs = .ok (a, rest)) (hsep : sep.Refuses rest) :
    (sepBy1 sep p).run cs = .ok ([a], rest) := by
  rw [run_sepBy1 sep h, moreOf_of_refuses hsep.bind]

/-- An element and a separator go in front of a list. -/
theorem run_sepBy1_cons (h : p.run cs = .ok (a, mid)) (hsep : sep.run mid = .ok ((), next))
    (hlt : next.length < mid.length) (hmore : (sepBy1 sep p).run next = .ok (as, rest)) :
    (sepBy1 sep p).run cs = .ok (a :: as, rest) := by
  cases hp : p.run next with
  | error stop =>
    simp only [sepBy1, hp] at hmore
    cases hmore
  | ok r =>
    obtain ⟨b, stop⟩ := r
    have hstop : stop.length < mid.length :=
      Nat.lt_of_le_of_lt ((p.within next).rest_suffix hp).length_le hlt
    rw [run_sepBy1 sep h, moreOf_of_run ((run_bind hsep).trans hp) hstop]
    rw [run_sepBy1 sep hp] at hmore
    obtain ⟨rfl, rfl⟩ := Prod.mk.inj (Except.ok.inj hmore)
    rfl

/-- The texts `state as` are what is left before the elements `as`. When a separator and an element lead from
each to the next, the elements are read. -/
theorem moreOf_append (state : List α → List Char) (as bs : List α)
    (step : ∀ a ∈ as, ∀ cs, (sep >>= fun _ => p).run (state (a :: cs)) = .ok (a, state cs))
    (shorter : ∀ a cs, (state cs).length < (state (a :: cs)).length) :
    moreOf sep p (state (as ++ bs)) =
      (as ++ (moreOf sep p (state bs)).1, (moreOf sep p (state bs)).2) := by
  induction as with
  | nil => rfl
  | cons a as ih =>
    obtain ⟨head, tail⟩ := List.forall_mem_cons.mp step
    rw [List.cons_append, moreOf_of_run (head _) (shorter ..), ih tail]
    rfl

/-- When nothing leads on from the last of these texts, it is what is left of the list. -/
theorem moreOf_eq (state : List α → List Char) (as : List α)
    (step : ∀ a ∈ as, ∀ cs, (sep >>= fun _ => p).run (state (a :: cs)) = .ok (a, state cs))
    (shorter : ∀ a cs, (state cs).length < (state (a :: cs)).length)
    (last : (sep >>= fun _ => p).Refuses (state [])) : moreOf sep p (state as) = (as, state []) := by
  simpa [moreOf_of_refuses last] using moreOf_append state as [] step shorter

/-! ## What is left in front -/

variable {bad : List Char}

/-- If a value is read, then one of the characters is in front of what is left. -/
def Leaves (p : Reader α) (cs bad : List Char) : Prop :=
  ∀ a rest, p.run cs = .ok (a, rest) → ∃ c ∈ bad, rest.head? = some c

/-- The reader refuses every text with one of the characters in front. -/
def Rejects (p : Reader α) (bad : List Char) : Prop :=
  ∀ cs, ∀ c ∈ bad, cs.head? = some c → p.Refuses cs

theorem Refuses.leaves (h : p.Refuses cs) (bad : List Char) : p.Leaves cs bad := by
  obtain ⟨stop, h⟩ := h
  exact fun a rest e => nomatch h.symm.trans e

theorem leaves_of_run {c : Char} (h : p.run cs = .ok (a, rest)) (hc : c ∈ bad)
    (hrest : rest.head? = some c) : p.Leaves cs bad := by
  intro b rest' e
  obtain ⟨-, rfl⟩ := Prod.mk.inj (Except.ok.inj (h.symm.trans e))
  exact ⟨c, hc, hrest⟩

theorem refuses_or_run (p : Reader α) (cs : List Char) :
    p.Refuses cs ∨ ∃ a rest, p.run cs = .ok (a, rest) := by
  cases h : p.run cs with
  | error stop => exact .inl ⟨stop, h⟩
  | ok r => exact .inr ⟨r.1, r.2, rfl⟩

namespace Leaves

theorem mono {worse : List Char} (h : p.Leaves cs bad) (hsub : ∀ c ∈ bad, c ∈ worse) :
    p.Leaves cs worse := by
  intro a rest e
  obtain ⟨c, hc, hrest⟩ := h a rest e
  exact ⟨c, hsub c hc, hrest⟩

theorem of_run_eq {q : Reader α} {ds : List Char} (h : q.Leaves ds bad) (e : p.run cs = q.run ds) :
    p.Leaves cs bad :=
  fun a rest hrun => h a rest (e.symm.trans hrun)

theorem bind_pure (h : p.Leaves cs bad) (g : α → β) : (p >>= fun a => pure (g a)).Leaves cs bad := by
  rcases refuses_or_run p cs with hno | ⟨a, rest, e⟩
  · exact hno.bind.leaves bad
  · obtain ⟨c, hc, hrest⟩ := h a rest e
    exact leaves_of_run (run_bind e) hc hrest

theorem bind_refuses (h : p.Leaves cs bad) (hf : ∀ a, (f a).Rejects bad) : (p >>= f).Refuses cs := by
  rcases refuses_or_run p cs with hno | ⟨a, rest, e⟩
  · exact hno.bind
  · obtain ⟨c, hc, hrest⟩ := h a rest e
    exact refuses_bind e (hf a rest c hc hrest)

theorem padded (h : p.Leaves (skip cs) bad) (hbad : ∀ c ∈ bad, isLayout c = false) :
    p.padded.Leaves cs bad := by
  rcases refuses_or_run p (skip cs) with hno | ⟨a, rest, e⟩
  · exact hno.padded.leaves bad
  · obtain ⟨c, hc, hrest⟩ := h a rest e
    refine leaves_of_run (run_padded e) hc ?_
    rw [skip_of_head? hrest (hbad c hc), hrest]

/-- After one element, a separator that cannot come next ends the list. -/
theorem sepBy1 (h : p.Leaves cs bad) (hsep : sep.Rejects bad) : (sepBy1 sep p).Leaves cs bad := by
  rcases refuses_or_run p cs with hno | ⟨a, rest, e⟩
  · exact hno.sepBy1.leaves bad
  · obtain ⟨c, hc, hrest⟩ := h a rest e
    have hrun := run_sepBy1 sep e
    rw [moreOf_of_refuses (hsep rest c hc hrest).bind] at hrun
    exact leaves_of_run hrun hc hrest

/-- When a further element cannot be followed by the separator, the list ends before it or behind it. -/
theorem moreOf (h : (sep >>= fun _ => p).Leaves cs bad) (hsep : sep.Rejects bad) :
    (moreOf sep p cs).2 = cs ∨ ∃ c ∈ bad, (moreOf sep p cs).2.head? = some c := by
  change (sep.andThen fun _ => p).Leaves cs bad at h
  rw [Reader.moreOf]
  split
  · exact .inl rfl
  · next a rest e =>
    obtain ⟨c, hc, hrest⟩ := h a rest e
    split
    · rw [moreOf_of_refuses (hsep rest c hc hrest).bind]
      exact .inr ⟨c, hc, hrest⟩
    · exact .inl rfl

end Leaves

theorem Rejects.bind (h : p.Rejects bad) : (p >>= f).Rejects bad := fun cs c hc e => (h cs c hc e).bind

theorem rejects_endOfText : endOfText.Rejects bad := by
  intro cs c _ e
  cases cs with
  | nil => exact nomatch e
  | cons d cs => exact ⟨_, rfl⟩

theorem rejects_char {c : Char} (h : c ∉ bad) : (char c).Rejects bad := by
  intro cs d hd hcs
  refine refuses_char fun e => h ?_
  rw [hcs] at e
  exact Option.some.inj e ▸ hd

theorem isLayout_eq_false_of_mem_pair {c d : Char} (hc : isLayout c = false) (hd : isLayout d = false) :
    ∀ x ∈ [c, d], isLayout x = false :=
  List.forall_mem_cons.mpr ⟨hc, List.forall_mem_singleton.mpr hd⟩

theorem rejects_padded_char {c : Char} (h : c ∉ bad) (hbad : ∀ d ∈ bad, isLayout d = false) :
    (padded (char c)).Rejects bad := by
  intro cs d hd hcs
  refine Refuses.padded ?_
  rw [skip_of_head? hcs (hbad d hd)]
  exact rejects_char h cs d hd hcs

/-! ## Whole sources -/

variable {subject source : String}

/-- What a whole source is read as, is read from its front. -/
theorem Gives.readAll (hp : p.Gives P) (h : p.readAll subject source = .ok a) : P a := by
  unfold Reader.readAll at h
  split at h
  · next b rest hrun =>
    obtain rfl := Except.ok.inj h
    exact (hp.padded.bind fun _ ha => (Gives.trivial _).bind fun _ _ => Gives.pure ha) _ _ _ hrun
  · exact nomatch h

theorem readAll_of_run (h : p.padded.run source.toList = .ok (a, [])) :
    p.readAll subject source = .ok a := by
  have hrun : (do let a ← p.padded; endOfText; return a : Reader α).run source.toList = .ok (a, []) :=
    run_bind h
  unfold readAll
  rw [hrun]

theorem Leaves.readAll (h : p.padded.Leaves source.toList bad) :
    ∃ e, p.readAll subject source = .error e := by
  obtain ⟨stop, hstop⟩ : (do let a ← p.padded; endOfText; return a : Reader α).Refuses source.toList :=
    h.bind_refuses fun _ => rejects_endOfText.bind
  unfold Reader.readAll
  rw [hstop]
  exact ⟨_, rfl⟩

end MixinTypes.Text.Reader
