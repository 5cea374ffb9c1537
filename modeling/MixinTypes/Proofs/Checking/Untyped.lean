import MixinTypes.Check.Questions
import MixinTypes.Proofs.Checking.Independence
import MixinTypes.Proofs.Checking.Invariant

/-!
# Programs without types

Where every call without a receiver goes to a value of type `any`, nothing in a program has another type, and
nothing is wrong with it.

1. A question that consults no interface is answered without the memo (`memo_answer`).
2. The overload for receivers of type `any` takes all arguments and passes on no type but `any`
   (`shapeFaults_permissive`, `any_of_mem_pairs_permissive`).
3. So every step of the checker keeps what is known to be untyped (`keeps_untyped`), and nothing but `any` is
   ever asked about (`check_untyped`).
-/

namespace MixinTypes

variable {σ α : Type} {I : σ → Prop}

/-! ## Questions that need no interface -/

section Several

variable {test : α → σ → Bool × σ} {xs : List α} {s : σ}

theorem everyHolds_preserves (h : ∀ x ∈ xs, ∀ s, I s → I (test x s).2) (hs : I s) :
    I (everyHolds test xs s).2 := by
  induction xs generalizing s with
  | nil => exact hs
  | cons x xs ih =>
    obtain ⟨hx, hxs⟩ := List.forall_mem_cons.mp h
    have hfirst := hx s hs
    unfold everyHolds
    split
    · next s' ht =>
      rw [ht] at hfirst
      exact ih hxs hfirst
    · next s' hf =>
      rw [hf] at hfirst
      exact hfirst

theorem someHolds_preserves (h : ∀ x ∈ xs, ∀ s, I s → I (test x s).2) (hs : I s) :
    I (someHolds test xs s).2 := by
  induction xs generalizing s with
  | nil => exact hs
  | cons x xs ih =>
    obtain ⟨hx, hxs⟩ := List.forall_mem_cons.mp h
    have hfirst := hx s hs
    unfold someHolds
    split
    · next s' ht =>
      rw [ht] at hfirst
      exact hfirst
    · next s' hf =>
      rw [hf] at hfirst
      exact ih hxs hfirst

end Several

namespace World

variable {w : World}

theorem memo_test (g : Goal) (s : Inquiry w) (h : ¬ w.Consults (.test g.1 g.2)) :
    (w.test g.1 g.2 s).2.memo = s.memo := by
  induction g, s using test_induction with
  | asking g s hg => rw [test_of_asking hg]
  | fresh g s hg ih =>
    have below : ∀ k (hk : k ∈ (w.reduce g.1 g.2).goals) s', s'.asking = g :: s.asking →
        (w.test k.1 k.2 s').2.memo = s'.memo := fun k hk s' hs' =>
      ih k s' (.part hk) hs' fun hc => h (.part hk hc)
    rw [test_of_not_asking hg]
    change (w.relate g.1 g.2 (s.enter g) _).2.1.memo = s.memo
    unfold relate
    split
    · rfl
    · next goals hr =>
      rw [hr] at below
      exact everyHolds_preserves (I := fun t : (s.enter g).Beside => t.1.memo = s.memo)
        (fun k _ t ht => (below k.1 k.2 t.1 t.2).trans ht) rfl
    · next goals hr =>
      rw [hr] at below
      exact someHolds_preserves (I := fun t : (s.enter g).Beside => t.1.memo = s.memo)
        (fun k _ t ht => (below k.1 k.2 t.1 t.2).trans ht) rfl
    · next n hr => exact absurd (.supers hr) h
    · next required provided hr => exact absurd (.methods hr) h

/-- Where no interface can be needed, the memo stays as it is, whatever is in it. -/
theorem memo_answer (s : Inquiry w) {q : Query} (h : ¬ w.Consults q) : (w.answer s q).memo = s.memo := by
  cases q with
  | operation op => exact absurd (.operation op) h
  | test src dest => exact memo_test (src, dest) s h
  | callee receiver method =>
    cases receiver with
    | named n args => exact absurd (.callee n args method) h
    | _ => rfl

theorem not_consults_test_any : ¬ w.Consults (.test .any .any) := by
  have hr : w.reduce .any .any = .decided true := reduce_of_trivial (.inl rfl)
  intro h
  cases h with
  | supers reduced => exact nomatch hr.symm.trans reduced
  | methods reduced => exact nomatch hr.symm.trans reduced
  | part mem _ =>
    rw [hr] at mem
    exact nomatch mem

theorem not_consults_callee_any (method : String) : ¬ w.Consults (.callee .any method) := nofun

end World

/-! ## The overload that takes anything -/

theorem shapeFaults_permissive (site : Site) (args : List Node) :
    Overload.permissive.formals.shapeFaults site args = [] := by
  have hmissing : Overload.permissive.formals.missing args = [] := by
    simp [Formals.missing, Overload.permissive, Formals.empty]
  have hkeywords : Overload.permissive.formals.missingKeywords args = [] := rfl
  simp only [Formals.shapeFaults, hmissing, hkeywords]
  rfl

theorem any_of_mem_pairs_permissive {args : List Node} {p : Ty × Node}
    (h : p ∈ Overload.permissive.formals.pairs args) : p.1 = .any := by
  have hany : ∀ t ∈ Overload.permissive.formals.types, t = .any := by decide
  exact hany p.1 (Formals.mem_types_of_mem_pairs h)

/-! ## Walking a program -/

/-- Asked about `any` alone, the oracle has no objection and keeps the invariant of its states. -/
structure Oracle.Permits (o : Oracle σ) (I : σ → Prop) : Prop where
  assignable : ∀ {s}, I s → (o.assignable .any .any s).1 = true ∧ I (o.assignable .any .any s).2
  callee : ∀ method {s}, I s →
    (o.callee .any method s).1 = some .permissive ∧ I (o.callee .any method s).2

namespace Checking

/-- No type other than `any` has been found, and no fault. -/
structure Untyped (I : σ → Prop) (c : Checking σ) : Prop where
  oracle : I c.oracle
  locals : ∀ name, ∀ t ∈ c.locals.get? name, t = .any
  types : ∀ id, ∀ t ∈ c.types.get? id, t = .any
  faults : c.faults = []

/-- Work that gives `any` and finds nothing else. -/
def Plain (I : σ → Prop) (r : Ty × Checking σ) : Prop := r.1 = .any ∧ Untyped I r.2

variable {c : Checking σ}

theorem any_of_insert [DecidableEq κ] {t : Table κ Ty} {k : κ} (h : ∀ k, ∀ u ∈ t.get? k, u = .any) :
    ∀ k', ∀ u ∈ (t.insert k .any).get? k', u = .any := by
  intro k' u hu
  rw [Table.get?_insert] at hu
  split at hu
  · exact (Option.some.inj hu).symm
  · exact h k' u hu

theorem getD_any {o : Option Ty} (h : ∀ t ∈ o, t = .any) : o.getD .any = .any := by
  cases o with
  | none => rfl
  | some t => exact h t rfl

theorem untyped_start {s : σ} (hs : I s) : Untyped I (start s) :=
  ⟨hs, fun _ _ ht => (nomatch ht), fun _ _ ht => (nomatch ht), rfl⟩

theorem plain_record (h : Untyped I c) (site : Site) : Plain I (c.record site .any) :=
  ⟨rfl, h.oracle, h.locals, any_of_insert h.types, h.faults⟩

section Steps

variable {o : Oracle σ} (ho : o.Permits I) (h : Untyped I c)

include ho h

theorem untyped_expect (fault : Fault) : Untyped I (c.expect o .any .any fault) := by
  obtain ⟨hyes, hinv⟩ := ho.assignable h.oracle
  refine ⟨hinv, h.locals, h.types, ?_⟩
  unfold expect
  simp only [hyes, if_true, h.faults]

theorem plain_assign (site : Site) (name : String) : Plain I (c.assign o site name .any) := by
  unfold assign
  split
  · exact ⟨rfl, h.oracle, any_of_insert h.locals, h.types, h.faults⟩
  · next target htarget =>
    obtain rfl := h.locals name target htarget
    exact ⟨rfl, untyped_expect ho h _⟩

theorem untyped_checkPairs {pairs : List (Ty × Node)} (hpairs : ∀ p ∈ pairs, p.1 = .any) :
    Untyped I (c.checkPairs o pairs) := by
  induction pairs generalizing c with
  | nil => exact h
  | cons p pairs ih =>
    obtain ⟨hp, hpairs⟩ := List.forall_mem_cons.mp hpairs
    have hactual : (c.typeOf? p.2).getD .any = .any := getD_any (h.types p.2.id)
    unfold checkPairs at ih ⊢
    rw [List.foldl_cons, hactual, hp]
    exact ih (untyped_expect ho h _) hpairs

/-- A call on `any` takes the permissive overload. -/
theorem untyped_openCall (site : Site) (method : String) (args : List Node) :
    (c.openCall o site .any method args).1 = some .permissive ∧
      Untyped I (c.openCall o site .any method args).2 := by
  obtain ⟨hcallee, hinv⟩ := ho.callee method h.oracle
  unfold openCall
  dsimp only
  rw [hcallee]
  refine ⟨rfl, hinv, h.locals, h.types, ?_⟩
  change c.faults ++ Overload.permissive.formals.shapeFaults site args = []
  rw [h.faults, shapeFaults_permissive]
  rfl

theorem plain_closeCall (args : List Node) : Plain I (c.closeCall o (some .permissive) args) :=
  ⟨rfl, untyped_checkPairs ho h fun _ => any_of_mem_pairs_permissive⟩

end Steps

end Checking

namespace Oracle

open Checking

variable {o : Oracle σ}

/-- Where calls without a receiver go to a value of type `any`, every step keeps what is untyped. -/
theorem keeps_untyped (ho : o.Permits I) :
    o.Keeps .any (Untyped I) (· = .any) (· = some .permissive) where
  any := rfl
  host := rfl
  read hc name := getD_any (hc.locals name)
  record := by
    rintro c _ hc rfl site
    exact (plain_record hc site).2
  assign := by
    rintro c _ hc rfl site name
    exact plain_assign ho hc site name
  openCall := by
    rintro c _ hc rfl site method args
    exact untyped_openCall ho hc site method args
  closeCall := by
    rintro c _ hc rfl args
    exact plain_closeCall ho hc args

/-- Keeping the questions changes no answer. -/
theorem matches_noting (o : Oracle σ) : o.Matches o.noting fun s p => s = p.1 where
  assignable src dest s p h := by
    subst h
    exact ⟨rfl, rfl⟩
  callee receiver method s p h := by
    subst h
    exact ⟨rfl, rfl⟩

end Oracle

/-! ## Untyped programs -/

namespace World

variable {w : World} {s : Inquiry w}

theorem test_any (hs : s.Ready) : w.test .any .any s = (true, s) := by
  have hyes : (w.test .any .any s).1 = true := (test_iff hs.1 hs.2).mpr .anySource
  have hmemo : (w.test .any .any s).2.memo = s.memo :=
    memo_answer s (q := .test .any .any) not_consults_test_any
  exact Prod.ext hyes (congrArg₂ Inquiry.mk hmemo (asking_test .any .any s))

/-- A ready inquiry permits what is untyped: it stays as it is, and no interface is consulted. -/
theorem permits_noting_inquirer (hs : s.Ready) :
    w.inquirer.noting.Permits fun p => p.1 = s ∧ ∀ q ∈ p.2, ¬ w.Consults q where
  assignable {p} h := by
    obtain ⟨rfl, hlog⟩ := h
    have htest : w.inquirer.assignable .any .any p.1 = (true, p.1) := test_any hs
    unfold Oracle.noting
    dsimp only
    rw [htest]
    exact ⟨rfl, rfl, List.forall_mem_append.mpr
      ⟨hlog, List.forall_mem_singleton.mpr not_consults_test_any⟩⟩
  callee method {p} h := by
    obtain ⟨rfl, hlog⟩ := h
    exact ⟨rfl, rfl, List.forall_mem_append.mpr
      ⟨hlog, List.forall_mem_singleton.mpr (not_consults_callee_any method)⟩⟩

/-- At any time in a session, whatever is declared: a program whose calls without a receiver go to a value of
type `any` has no fault and no type but `any`. The inquiry is the same afterwards, and nothing was asked for
which an interface could have been needed. -/
theorem check_untyped (w : World) (history : List Query) (program : Node) :
    let s := w.inquiry history
    let c := w.inquirer.check .any program s
    c.faults = [] ∧ (∀ t ∈ c.types.values, t = .any) ∧ c.oracle = s ∧
      ∀ q ∈ w.inquirer.questions .any program s, ¬ w.Consults q := by
  intro s c
  have ho := permits_noting_inquirer (w := w) ⟨idle_inquiry history, asking_inquiry history⟩
  have hstart := Checking.untyped_start (I := fun p : Inquiry w × List Query =>
    p.1 = s ∧ ∀ q ∈ p.2, ¬ w.Consults q) (s := (s, [])) ⟨rfl, List.forall_mem_nil _⟩
  have hnoted := (Oracle.keeps_untyped ho).check program hstart
  have halike := Oracle.alike_check (Oracle.matches_noting w.inquirer) .any program
    (s := s) (t := (s, [])) rfl
  refine ⟨halike.faults.trans hnoted.faults, fun t ht => ?_, halike.oracle.trans hnoted.oracle.1,
    hnoted.oracle.2⟩
  obtain ⟨⟨id, t⟩, he, rfl⟩ := List.mem_map.mp ht
  rw [halike.types] at he
  exact hnoted.types id t (Table.get?_of_mem_entries he)

end World

end MixinTypes
