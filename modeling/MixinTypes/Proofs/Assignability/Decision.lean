import MixinTypes.Assignable.Session
import MixinTypes.Proofs.Assignability.Derivation
import MixinTypes.Proofs.Linking.Outcome

/-!
# Testing decides assignability

1. When every test on the way gives the right answer, so does asking for all or for one of several
   questions, and so does answering a question by what it comes down to (`decides_relate`). The memo
   is asked for interfaces only, and while nothing is being linked it has the right ones.
2. A test answers whether its question is derivable with the questions in progress cut off, by
   induction on the search: below a question the cut grows by that question, which no derivation of it
   needs (`decides_test`).
3. Between two queries of a session no question is in progress, so every test answers whether the
   relation holds (`test_inquiry_iff`).
-/

namespace MixinTypes

/-- The answer is right about `p`, and the state goes on as it should. -/
structure Decides (inv : σ → Prop) (r : Bool × σ) (p : Prop) : Prop where
  iff : r.1 = true ↔ p
  inv : inv r.2

theorem Decides.congr {inv : σ → Prop} {r : Bool × σ} {p q : Prop} (h : Decides inv r p)
    (hpq : p ↔ q) : Decides inv r q :=
  ⟨h.iff.trans hpq, h.inv⟩

/-- Saying no is right about what does not hold. -/
theorem Decides.no {inv : σ → Prop} {s : σ} {p : Prop} (hs : inv s) (hp : ¬ p) :
    Decides inv (false, s) p :=
  ⟨⟨(absurd · Bool.false_ne_true), fun h => absurd h hp⟩, hs⟩

section Several

variable {inv : σ → Prop} {P : α → Prop} {test : α → σ → Bool × σ} {xs : List α} {s : σ}

theorem decides_everyHolds (h : ∀ x ∈ xs, ∀ s, inv s → Decides inv (test x s) (P x)) (hs : inv s) :
    Decides inv (everyHolds test xs s) (∀ x ∈ xs, P x) := by
  induction xs generalizing s with
  | nil => exact ⟨by simp [everyHolds], hs⟩
  | cons x xs ih =>
    have hx := h x (List.mem_cons_self ..) s hs
    unfold everyHolds
    split
    · next s' ht =>
      rw [ht] at hx
      have hrest := ih (fun y hy => h y (List.mem_cons_of_mem _ hy)) hx.inv
      refine ⟨hrest.iff.trans ?_, hrest.inv⟩
      rw [List.forall_mem_cons]
      exact ⟨fun hall => ⟨hx.iff.mp rfl, hall⟩, And.right⟩
    · next s' hf =>
      rw [hf] at hx
      refine ⟨⟨(absurd · Bool.false_ne_true), fun hall => ?_⟩, hx.inv⟩
      exact hx.iff.mpr (hall x (List.mem_cons_self ..))

theorem decides_someHolds (h : ∀ x ∈ xs, ∀ s, inv s → Decides inv (test x s) (P x)) (hs : inv s) :
    Decides inv (someHolds test xs s) (∃ x ∈ xs, P x) := by
  induction xs generalizing s with
  | nil => exact ⟨by simp [someHolds], hs⟩
  | cons x xs ih =>
    have hx := h x (List.mem_cons_self ..) s hs
    unfold someHolds
    split
    · next s' ht =>
      rw [ht] at hx
      exact ⟨⟨fun _ => ⟨x, List.mem_cons_self .., hx.iff.mp rfl⟩, fun _ => rfl⟩, hx.inv⟩
    · next s' hf =>
      rw [hf] at hx
      have hrest := ih (fun y hy => h y (List.mem_cons_of_mem _ hy)) hx.inv
      refine ⟨hrest.iff.trans ?_, hrest.inv⟩
      constructor
      · rintro ⟨y, hy, hP⟩
        exact ⟨y, List.mem_cons_of_mem _ hy, hP⟩
      · rintro ⟨y, hy, hP⟩
        rcases List.mem_cons.mp hy with rfl | hy
        · exact absurd (hx.iff.mpr hP) Bool.false_ne_true
        · exact ⟨y, hy, hP⟩

end Several

namespace Memo

variable {w : World} {m : Memo w}

/-- Nothing is being linked. -/
def Idle (m : Memo w) : Prop := ∀ k, m.isOpen k = false

theorem Idle.of_extends {m' : Memo w} (hm : m.Idle) (h : m.Extends m') : m'.Idle :=
  fun k => (h.isOpen k).trans (hm k)

end Memo

namespace World

variable {w : World} {src dest : Ty} {n : Nominal} {m m' : Memo w}

theorem not_built_of_link_eq_error {e : LinkError} (hm : m.Idle)
    (h : w.link n m = (.error e, m')) (i : Interface) : ¬ Built w n i := by
  have he : (w.link n m).1 = .error e := by rw [h]
  exact (fails_of_closed hm he).not_built (by simp)

theorem idle_of_link_eq {r : Except LinkError { i // Built w n i }} (hm : m.Idle)
    (h : w.link n m = (r, m')) : m'.Idle := by
  have hx := extends_link n m
  rw [h] at hx
  exact hm.of_extends hx

/-- Answering by what a question comes down to is right when the answers it rests on are. -/
theorem decides_relate {P : Goal → Prop} {s : Inquiry w}
    {ask : (g : Goal) → w.Raises (src, dest) g → s.Beside → Bool × s.Beside} (hs : s.memo.Idle)
    (hask : ∀ g hg t, t.1.memo.Idle → Decides (fun t => t.1.memo.Idle) (ask g hg t) (P g)) :
    Decides (fun t => t.1.memo.Idle) (w.relate src dest s ask) (w.Follows P (src, dest)) := by
  have holds : ∀ {r : Reduction}, w.reduce src dest = r →
      (r.Holds w P (src, dest) ↔ w.Follows P (src, dest)) := by
    rintro r rfl
    exact Iff.rfl
  unfold relate
  split
  · next hr => exact Decides.congr ⟨Iff.rfl, hs⟩ (holds hr)
  · next goals hr =>
    refine Decides.congr (decides_everyHolds (P := fun g => P g.1) ?_ hs) ?_
    · exact fun g _ t ht => hask g.1 _ t ht
    · rw [← holds hr]
      simp [Reduction.Holds]
  · next goals hr =>
    refine Decides.congr (decides_someHolds (P := fun g => P g.1) ?_ hs) ?_
    · exact fun g _ t ht => hask g.1 _ t ht
    · rw [← holds hr]
      simp [Reduction.Holds]
  · next n hr =>
    refine Decides.congr ?_ (holds hr)
    split
    · next e m hl =>
      refine .no (idle_of_link_eq hs hl) ?_
      rintro ⟨i, hi, -⟩
      exact not_built_of_link_eq_error hs hl i hi
    · next i m hl =>
      refine Decides.congr
        (decides_someHolds (P := fun t => P (t.1, dest)) ?_ (idle_of_link_eq hs hl)) ?_
      · exact fun t _ u hu => hask (t.1, dest) _ u hu
      · constructor
        · rintro ⟨t, ht, hP⟩
          exact ⟨i.1, i.2, t.1, t.2, by simpa using (List.mem_filter.mp ht).2, hP⟩
        · rintro ⟨j, hj, t, ht, hne, hP⟩
          obtain rfl := hj.unique i.2
          exact ⟨⟨t, ht⟩, List.mem_filter.mpr ⟨List.mem_attach .., by simpa using hne⟩, hP⟩
  · next required provided hr =>
    refine Decides.congr ?_ (holds hr)
    split
    · next e m hl =>
      refine .no (idle_of_link_eq hs hl) ?_
      rintro ⟨i, -, hi, -⟩
      exact not_built_of_link_eq_error hs hl i hi
    · next r m hl =>
      have hm := idle_of_link_eq hs hl
      split
      · next e m' hl' =>
        refine .no (idle_of_link_eq hm hl') ?_
        rintro ⟨-, j, -, hj, -⟩
        exact not_built_of_link_eq_error hm hl' j hj
      · next p m' hl' =>
        refine ⟨?_, idle_of_link_eq hm hl'⟩
        rw [List.all_eq_true]
        constructor
        · intro h
          exact ⟨r.1, p.1, r.2, p.2, fun name hn => Table.contains_iff_mem_keys.mp (h name hn)⟩
        · rintro ⟨i, j, hi, hj, h⟩
          obtain rfl := hi.unique r.2
          obtain rfl := hj.unique p.2
          exact fun name hn => Table.contains_iff_mem_keys.mpr (h name hn)

/-- A test answers whether there is a derivation without the questions in progress. -/
theorem decides_test (g : Goal) (s : Inquiry w) (hs : s.memo.Idle) :
    Decides (fun t => t.memo.Idle) (w.test g.1 g.2 s) (Derivable w s.asking g) := by
  induction g, s using test_induction with
  | asking g s hg =>
    rw [test_of_asking hg]
    exact .no hs fun h => (derivable_iff_cons.mp h).1 hg
  | fresh g s hg ih =>
    let ask (h : Goal) (_ : w.Raises g h) (t : (s.enter g).Beside) : Bool × (s.enter g).Beside :=
      ((w.test h.1 h.2 t.1).1, ⟨(w.test h.1 h.2 t.1).2, (w.testBeside h.1 h.2 t.1).2.2.trans t.2⟩)
    have h : Decides (fun t => t.1.memo.Idle) (w.relate g.1 g.2 (s.enter g) ask)
        (w.Follows (Derivable w (g :: s.asking)) g) := by
      refine decides_relate hs fun k hk t ht => ?_
      have hd := ih k t.1 hk t.2 ht
      rw [t.2] at hd
      exact ⟨hd.iff, hd.inv⟩
    rw [test_of_not_asking hg]
    refine ⟨h.iff.trans ?_, h.inv⟩
    rw [derivable_iff_cons]
    exact ⟨fun hf => ⟨hg, hf⟩, And.right⟩

/-! ## The memo does not matter -/

/-- While nothing is being linked, the memo changes no answer. -/
theorem assignable_eq (hm : m.Idle) (hm' : m'.Idle) (src dest : Ty) :
    (w.assignable src dest m).1 = (w.assignable src dest m').1 := by
  have h := (decides_test (src, dest) (.start m) hm).iff
  have h' := (decides_test (src, dest) (.start m') hm').iff
  exact Bool.eq_iff_iff.mpr (h.trans h'.symm)

theorem callee_eq (hm : m.Idle) (hm' : m'.Idle) (t : Ty) (method : String) :
    (w.callee t method m).1 = (w.callee t method m').1 := by
  cases t with
  | named n args => rw [fst_callee_named, fst_callee_named, link_eq_link hm hm']
  | _ => rfl

/-! ## Sessions -/

/-- A test leaves the questions in progress as it found them. -/
theorem asking_test (src dest : Ty) (s : Inquiry w) :
    (w.test src dest s).2.asking = s.asking :=
  (w.testBeside src dest s).2.2

theorem extends_callee (t : Ty) (method : String) (m : Memo w) :
    m.Extends (w.callee t method m).2 := by
  unfold callee
  split
  · exact .refl m
  · next n args =>
    have h := extends_link n.toAbsolute m
    split <;> next hl => rw [hl] at h; exact h
  · exact .refl m

theorem asking_answer (s : Inquiry w) (q : Query) : (w.answer s q).asking = s.asking := by
  cases q with
  | operation | callee => rfl
  | test src dest => exact asking_test src dest s

theorem idle_answer {s : Inquiry w} (hs : s.memo.Idle) (q : Query) : (w.answer s q).memo.Idle := by
  cases q with
  | operation op => exact hs.of_extends (extends_perform s.memo op)
  | test src dest => exact (decides_test (src, dest) s hs).inv
  | callee receiver method => exact hs.of_extends (extends_callee receiver method s.memo)

/-- Between two queries no question is in progress. -/
theorem asking_inquiry (history : List Query) : (w.inquiry history).asking = [] := by
  induction history using List.reverseRecOn with
  | nil => rfl
  | append_singleton history q ih => rw [inquiry_concat, asking_answer, ih]

/-- Between two queries nothing is being linked. -/
theorem idle_inquiry (history : List Query) : (w.inquiry history).memo.Idle := by
  induction history using List.reverseRecOn with
  | nil => exact Memo.isOpen_empty
  | append_singleton history q ih =>
    rw [inquiry_concat]
    exact idle_answer ih q

/-- With nothing in progress a test answers whether the relation holds. -/
theorem test_iff {s : Inquiry w} (hs : s.memo.Idle) (ha : s.asking = []) :
    (w.test src dest s).1 = true ↔ Assignable w src dest := by
  have h := (decides_test (src, dest) s hs).iff
  rw [ha] at h
  exact h.trans derivable_nil_iff

/-- At any time in a session, a test leaves the questions in progress as it found them, and it
succeeds exactly when the relation holds: to take a question that comes up below itself to fail never
turns down one that has a derivation. -/
theorem test_inquiry_iff (w : World) (history : List Query) (src dest : Ty) :
    (w.test src dest (w.inquiry history)).2.asking = (w.inquiry history).asking ∧
      ((w.test src dest (w.inquiry history)).1 = true ↔ Assignable w src dest) := by
  refine ⟨asking_test src dest _, ?_⟩
  have h := (decides_test (src, dest) (w.inquiry history) (idle_inquiry history)).iff
  rw [asking_inquiry] at h
  exact h.trans derivable_nil_iff

end World

end MixinTypes
