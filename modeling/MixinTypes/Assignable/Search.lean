import MixinTypes.Assignable.Reduction
import MixinTypes.Distinct
import MixinTypes.World.Link

/-!
# Deciding assignability

`World.test` follows the reductions of a question from left to right and stops as soon as the answer
is known. It builds the interfaces it needs and keeps them in the memo. While a question is being
answered it is in progress, and when it comes up again below itself it does not hold, so a type whose
further types speak of itself is no obstacle.

The search ends because all questions below a first one speak of finitely many types: the parts of
the two types and of the further types of the interfaces of the world. Main statements: the equations
`test_of_asking` and `test_of_not_asking`, and the induction principle `test_induction` with the same
two cases.
-/

namespace MixinTypes

/-! ## Asking one thing after another -/

/-- Whether all members pass a test that changes a state; stops at the first that does not. -/
def everyHolds (test : α → σ → Bool × σ) : List α → σ → Bool × σ
  | [], s => (true, s)
  | x :: xs, s =>
    match test x s with
    | (true, s) => everyHolds test xs s
    | (false, s) => (false, s)

/-- Whether some member passes a test that changes a state; stops at the first that does. -/
def someHolds (test : α → σ → Bool × σ) : List α → σ → Bool × σ
  | [], s => (false, s)
  | x :: xs, s =>
    match test x s with
    | (true, s) => (true, s)
    | (false, s) => someHolds test xs s

namespace World

/-! ## The types that can come up -/

open Classical in
/-- The further types of all interfaces of a world. -/
noncomputable def superTypes (w : World) : List Ty :=
  w.candidates.flatMap fun n => if h : ∃ i, Built w n i then h.choose.supers else []

theorem mem_superTypes {w : World} {n : Nominal} {i : Interface} {t : Ty} (hi : Built w n i)
    (ht : t ∈ i.supers) : t ∈ w.superTypes := by
  have hn : n ∈ w.candidates := by
    cases hi with
    | intro _ hp _ => exact mem_candidates_of_plan hp
  refine List.mem_flatMap.mpr ⟨n, hn, ?_⟩
  have h : ∃ i, Built w n i := ⟨i, hi⟩
  rw [dif_pos h]
  exact hi.unique h.choose_spec ▸ ht

/-- The types that can come up below a question. -/
noncomputable def vocabulary (w : World) (src dest : Ty) : List Ty :=
  (src :: dest :: w.superTypes).flatMap Ty.parts

theorem mem_vocabulary {w : World} {src dest t : Ty} :
    t ∈ w.vocabulary src dest ↔
      t ∈ src.parts ∨ t ∈ dest.parts ∨ ∃ s ∈ w.superTypes, t ∈ s.parts := by
  simp [vocabulary]

/-- Questions about types that can come up lead to no others. -/
theorem vocabulary_subset {w : World} {src dest s t : Ty} (hs : s ∈ w.vocabulary src dest)
    (ht : t ∈ w.vocabulary src dest) : ∀ x ∈ w.vocabulary s t, x ∈ w.vocabulary src dest := by
  have part : ∀ {x y : Ty}, y ∈ w.vocabulary src dest → x ∈ y.parts → x ∈ w.vocabulary src dest := by
    intro x y hy hx
    rw [mem_vocabulary] at hy ⊢
    rcases hy with hy | hy | ⟨z, hz, hy⟩
    · exact .inl (Ty.mem_parts_trans hx hy)
    · exact .inr (.inl (Ty.mem_parts_trans hx hy))
    · exact .inr (.inr ⟨z, hz, Ty.mem_parts_trans hx hy⟩)
  intro x hx
  rcases mem_vocabulary.mp hx with hx | hx | hx
  · exact part hs hx
  · exact part ht hx
  · exact mem_vocabulary.mpr (.inr (.inr hx))

/-- The questions that can come up below one and are not on the trail to it. -/
noncomputable def openGoals (w : World) (trail : List Goal) (src dest : Ty) : List Goal :=
  ((w.vocabulary src dest).flatMap fun s => (w.vocabulary src dest).map fun t => (s, t)).filter
    (· ∉ trail)

theorem mem_openGoals {w : World} {trail : List Goal} {src dest : Ty} {g : Goal} :
    g ∈ w.openGoals trail src dest ↔
      (g.1 ∈ w.vocabulary src dest ∧ g.2 ∈ w.vocabulary src dest) ∧ g ∉ trail := by
  obtain ⟨s, t⟩ := g
  simp [openGoals]

/-- How many different questions can still come up. -/
noncomputable def openCount (w : World) (trail : List Goal) (src dest : Ty) : Nat :=
  (distinct (w.openGoals trail src dest)).length

theorem openCount_lt {w : World} {trail : List Goal} {src dest s t : Ty}
    (hn : (src, dest) ∉ trail) (hs : s ∈ w.vocabulary src dest) (ht : t ∈ w.vocabulary src dest) :
    w.openCount ((src, dest) :: trail) s t < w.openCount trail src dest := by
  refine length_distinct_lt (y := (src, dest)) (fun g hg => ?_) ?_ ?_
  · rw [mem_openGoals] at hg ⊢
    have hsub := vocabulary_subset hs ht
    exact ⟨⟨hsub _ hg.1.1, hsub _ hg.1.2⟩, fun h => hg.2 (List.mem_cons_of_mem _ h)⟩
  · exact mem_openGoals.mpr ⟨⟨mem_vocabulary.mpr (.inl (Ty.self_mem_parts _)),
      mem_vocabulary.mpr (.inr (.inl (Ty.self_mem_parts _)))⟩, hn⟩
  · exact fun h => (mem_openGoals.mp h).2 (List.mem_cons_self ..)

/-- The questions that a question leads to directly: those it comes down to, and those about further
types of the source. -/
inductive Raises (w : World) : Goal → Goal → Prop where
  | part {src dest : Ty} {g : Goal} (mem : g ∈ (w.reduce src dest).goals) : Raises w (src, dest) g
  | super {src dest t : Ty} {n : Nominal} {i : Interface} (reduced : w.reduce src dest = .supers n)
      (built : Built w n.toAbsolute i) (mem : t ∈ i.supers) : Raises w (src, dest) (t, dest)

theorem openCount_lt_of_raises {w : World} {trail : List Goal} {src dest : Ty} {g : Goal}
    (hn : (src, dest) ∉ trail) (h : w.Raises (src, dest) g) :
    w.openCount ((src, dest) :: trail) g.1 g.2 < w.openCount trail src dest := by
  cases h with
  | part hg =>
    have parts := mem_of_mem_goals_reduce hg
    exact openCount_lt hn
      (mem_vocabulary.mpr (parts.1.imp id .inl)) (mem_vocabulary.mpr (parts.2.imp id .inl))
  | super _ hi ht =>
    exact openCount_lt hn
      (mem_vocabulary.mpr (.inr (.inr ⟨_, mem_superTypes hi ht, Ty.self_mem_parts _⟩)))
      (mem_vocabulary.mpr (.inr (.inl (Ty.self_mem_parts _))))

end World

/-! ## The questions in progress -/

/-- What answering questions goes on with: the memo, and the questions that are being answered. -/
structure Inquiry (w : World) where
  memo : Memo w
  asking : List Goal

namespace Inquiry

variable {w : World}

/-- No question in progress. -/
def start (m : Memo w) : Inquiry w := ⟨m, []⟩

/-- Begin with a question. -/
def enter (s : Inquiry w) (g : Goal) : Inquiry w := { s with asking := g :: s.asking }

/-- Be done with a question. -/
def leave (s : Inquiry w) (g : Goal) : Inquiry w := { s with asking := s.asking.erase g }

/-- Go on with another memo. -/
def learn (s : Inquiry w) (m : Memo w) : Inquiry w := { s with memo := m }

/-- The inquiries with the same questions in progress. -/
abbrev Beside (s : Inquiry w) := { t : Inquiry w // t.asking = s.asking }

@[simp] theorem asking_enter (s : Inquiry w) (g : Goal) : (s.enter g).asking = g :: s.asking := rfl

/-- A question that was begun last is taken off again. -/
theorem asking_leave {s t : Inquiry w} {g : Goal} (h : t.asking = (s.enter g).asking) :
    (t.leave g).asking = s.asking := by
  unfold leave
  rw [h, asking_enter, List.erase_cons_head]

end Inquiry

/-! ## The search -/

namespace World

/-- Answer a question by what it comes down to, with `ask` for the questions that it leads to. -/
def relate (w : World) (src dest : Ty) (s : Inquiry w)
    (ask : (g : Goal) → w.Raises (src, dest) g → s.Beside → Bool × s.Beside) : Bool × s.Beside :=
  match hr : w.reduce src dest with
  | .decided holds => (holds, ⟨s, rfl⟩)
  | .all goals =>
    everyHolds (fun g => ask g.1 (.part (by rw [hr]; exact g.2))) goals.attach ⟨s, rfl⟩
  | .any goals =>
    someHolds (fun g => ask g.1 (.part (by rw [hr]; exact g.2))) goals.attach ⟨s, rfl⟩
  | .supers n =>
    match w.link n.toAbsolute s.memo with
    | (.error _, m) => (false, ⟨s.learn m, rfl⟩)
    | (.ok i, m) =>
      someHolds (fun t => ask (t.1, dest) (.super hr i.2 t.2))
        (i.1.supers.attach.filter fun t => t.1 ≠ src) ⟨s.learn m, rfl⟩
  | .methods required provided =>
    match w.link required.toAbsolute s.memo with
    | (.error _, m) => (false, ⟨s.learn m, rfl⟩)
    | (.ok r, m) =>
      match w.link provided.toAbsolute m with
      | (.error _, m) => (false, ⟨s.learn m, rfl⟩)
      | (.ok p, m) => (r.1.methods.keys.all p.1.methods.contains, ⟨s.learn m, rfl⟩)

/-- Whether `src` is assignable to `dest`. While the question is being answered it is in progress;
afterwards the questions in progress are those from before. -/
def testBeside (w : World) (src dest : Ty) (s : Inquiry w) : Bool × s.Beside :=
  if _h : (src, dest) ∈ s.asking then (false, ⟨s, rfl⟩)
  else
    let got := w.relate src dest (s.enter (src, dest)) fun g _ t =>
      let got := w.testBeside g.1 g.2 t.1
      (got.1, ⟨got.2.1, got.2.2.trans t.2⟩)
    (got.1, ⟨got.2.1.leave (src, dest), Inquiry.asking_leave got.2.2⟩)
termination_by w.openCount s.asking src dest
decreasing_by
  rw [t.2]
  exact openCount_lt_of_raises _h (by assumption)

/-- Whether `src` is assignable to `dest`, with the inquiry as it is afterwards. -/
def test (w : World) (src dest : Ty) (s : Inquiry w) : Bool × Inquiry w :=
  let got := w.testBeside src dest s
  (got.1, got.2.1)

/-- Whether values of type `src` may be used where `dest` is expected. -/
def assignable (w : World) (src dest : Ty) (m : Memo w) : Bool × Memo w :=
  let got := w.test src dest (.start m)
  (got.1, got.2.memo)

/-! ## What testing does, case by case -/

variable {w : World} {src dest : Ty} {s : Inquiry w}

theorem test_of_asking (h : (src, dest) ∈ s.asking) : w.test src dest s = (false, s) := by
  unfold test
  rw [testBeside, dif_pos h]

/-- A question that is not in progress is entered, answered by what it comes down to, and left. -/
theorem test_of_not_asking (h : (src, dest) ∉ s.asking) :
    w.test src dest s =
      let got := w.relate src dest (s.enter (src, dest)) fun g _ t =>
        ((w.test g.1 g.2 t.1).1, ⟨(w.test g.1 g.2 t.1).2, (w.testBeside g.1 g.2 t.1).2.2.trans t.2⟩)
      (got.1, got.2.1.leave (src, dest)) := by
  unfold test
  rw [testBeside, dif_neg h]

/-- To prove something of every question, assume it of the questions that it leads to while it is in
progress. -/
theorem test_induction {P : Goal → Inquiry w → Prop}
    (asking : ∀ g s, g ∈ s.asking → P g s)
    (fresh : ∀ g s, g ∉ s.asking →
      (∀ g' s', w.Raises g g' → s'.asking = g :: s.asking → P g' s') → P g s)
    (g : Goal) (s : Inquiry w) : P g s := by
  induction hc : w.openCount s.asking g.1 g.2 using Nat.strongRecOn generalizing g s with
  | ind k ih =>
    subst hc
    by_cases hg : g ∈ s.asking
    · exact asking g s hg
    · refine fresh g s hg fun g' s' hr hs => ih _ ?_ g' s' rfl
      rw [hs]
      exact openCount_lt_of_raises hg hr

end World

end MixinTypes
