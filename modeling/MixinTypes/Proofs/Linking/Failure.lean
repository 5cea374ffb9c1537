import MixinTypes.Proofs.Linking.Dependency
import MixinTypes.Proofs.Linking.Extension

/-!
# How linking fails

`Fails w frames n e` says, without a memo, that `n` cannot be linked while the names in `frames` are
in progress, and why: `n` is one of them, or has no plan, or its first request that cannot be built
fails while `n` is in progress as well.

1. Whatever the memo holds besides, linking fails only as the names in progress in it say
   (`fails_of_link_eq_error`). What the memo has built is skipped, but a built name would not have
   failed anyway.
2. When all frames depend on `n`, a built name does not fail (`Fails.not_built`), and the first
   request to fail is the same every time, so there is one error (`Fails.unique`).
-/

namespace MixinTypes

/-- The name cannot be linked while these names are in progress, for this reason. -/
inductive Fails (w : World) : List Nominal → Nominal → LinkError → Prop where
  | cycle {frames : List Nominal} {n : Nominal} (entered : n ∈ frames) :
      Fails w frames n (.recursive [n])
  | unknown {frames : List Nominal} {n : Nominal} {cause : LookupError} (fresh : n ∉ frames)
      (noPlan : w.plan n = .error cause) : Fails w frames n (.unknown n cause)
  | request {frames : List Nominal} {n r : Nominal} {p : Plan} {before after : List Nominal}
      {e : LinkError} (fresh : n ∉ frames) (plan : w.plan n = .ok p)
      (split : p.requests = before ++ r :: after) (built : ∀ q ∈ before, ∃ i, Built w q i)
      (fails : Fails w (n :: frames) r e) : Fails w frames n (e.within n)

variable {w : World} {frames : List Nominal} {n : Nominal} {e e' : LinkError}

namespace World

/-- Linking fails for a reason that does not depend on what has been built. -/
theorem fails_of_link_eq_error {m : Memo w} (hm : ∀ k, m.isOpen k = true ↔ k ∈ frames)
    (h : (w.link n m).1 = .error e) : Fails w frames n e := by
  induction n, m using link_induction generalizing frames e with
  | done n m i hn =>
    rw [link_of_done hn] at h
    cases h
  | inProgress n m hn =>
    rw [link_of_inProgress hn] at h
    cases h
    exact .cycle ((hm n).mp (Memo.isOpen_iff.mpr hn))
  | unknown n m cause hn hp =>
    rw [link_of_unknown hn hp] at h
    cases h
    exact .unknown (fun hf => by simpa [Memo.isOpen, hn] using (hm n).mpr hf) hp
  | plan n m p hn hp ih =>
    have fresh : n ∉ frames := fun hf => by simpa [Memo.isOpen, hn] using (hm n).mpr hf
    rw [link_of_plan hn hp] at h
    split at h
    · next hg =>
      cases h
      -- all requests find exactly `n` and the frames below it in progress
      obtain ⟨before, r, after, t, hsplit, hbuilt, ht, he⟩ :=
        exists_of_gather_eq_error (m.enter n).Extends (fun s us hs => hs.trans (.note s us))
          (fun r s hs => hs.trans (extends_link r s)) (.refl _) hg
      refine .request fresh hp hsplit hbuilt (ih r t ht.keeps (fun k => ?_) he)
      rw [ht.isOpen, Memo.isOpen_enter, List.mem_cons]
      split
      · next hk => exact ⟨fun _ => .inl hk.symm, fun _ => rfl⟩
      · next hk => rw [hm]; exact ⟨.inr, fun h => h.resolve_left fun e => hk e.symm⟩
    · cases h

end World

namespace Fails

/-- When all frames depend on `n`, then they and `n` depend on whatever `n` depends on. -/
theorem forall_mem_cons_transGen {r : Nominal}
    (hf : ∀ f ∈ frames, Relation.TransGen w.DependsOn f n) (hr : w.DependsOn n r) :
    ∀ f ∈ n :: frames, Relation.TransGen w.DependsOn f r := by
  intro f hmem
  rcases List.mem_cons.mp hmem with rfl | hmem
  · exact .single hr
  · exact (hf f hmem).tail hr

/-- A built name does not fail: it depends neither on itself nor on a name without a plan. -/
theorem not_built (h : Fails w frames n e)
    (hf : ∀ f ∈ frames, Relation.TransGen w.DependsOn f n) {i : Interface} : ¬ Built w n i := by
  induction h generalizing i with
  | cycle entered => exact fun hb => hb.not_dependsOn_self (hf _ entered)
  | unknown fresh noPlan =>
    intro hb
    obtain ⟨p, hp⟩ := World.declared_iff.mp hb.declared
    rw [noPlan] at hp
    cases hp
  | @request frames n r p before after e fresh plan split built fails ih =>
    intro hb
    have hr : w.DependsOn n r := World.dependsOn_of_split plan split
    obtain ⟨j, hj⟩ := hb.of_dependsOn hr
    exact ih (forall_mem_cons_transGen hf hr) hj

/-- When a list is split at one member and at another, they are the same or one of them comes before
the other. -/
theorem eq_or_mem_of_split {α : Type} {as bs cs ds : List α} {a c : α}
    (h : as ++ a :: bs = cs ++ c :: ds) : a = c ∨ a ∈ cs ∨ c ∈ as := by
  rcases List.append_eq_append_iff.mp h with ⟨xs, rfl, hx⟩ | ⟨xs, rfl, hx⟩
  · cases xs with
    | nil => exact .inl (List.cons.inj hx).1
    | cons x xs =>
      obtain ⟨rfl, -⟩ := List.cons.inj hx
      exact .inr (.inl (by simp))
  · cases xs with
    | nil => exact .inl (List.cons.inj hx).1.symm
    | cons x xs =>
      obtain ⟨rfl, -⟩ := List.cons.inj hx
      exact .inr (.inr (by simp))

/-- There is one reason to fail. A request that fails is the first one, since those before it are
built and do not fail. -/
theorem unique (h : Fails w frames n e) (h' : Fails w frames n e')
    (hf : ∀ f ∈ frames, Relation.TransGen w.DependsOn f n) : e = e' := by
  induction h generalizing e' with
  | cycle entered =>
    cases h' with
    | cycle => rfl
    | unknown fresh => exact absurd entered fresh
    | request fresh => exact absurd entered fresh
  | unknown fresh noPlan =>
    cases h' with
    | cycle entered => exact absurd entered fresh
    | unknown _ noPlan' => rw [noPlan] at noPlan'; cases noPlan'; rfl
    | request _ plan' => rw [noPlan] at plan'; cases plan'
  | @request frames n r p before after e fresh plan split built fails ih =>
    cases h' with
    | cycle entered => exact absurd entered fresh
    | unknown _ noPlan' => rw [plan] at noPlan'; cases noPlan'
    | @request _ _ r' p' before' after' e' _ plan' split' built' fails' =>
      rw [plan] at plan'
      cases plan'
      have hr := forall_mem_cons_transGen hf (World.dependsOn_of_split plan split)
      have hr' := forall_mem_cons_transGen hf (World.dependsOn_of_split plan split')
      -- of two different requests that fail, one would come before the other, and be built
      rcases eq_or_mem_of_split (split.symm.trans split') with rfl | hmem | hmem
      · rw [ih fails' hr]
      · obtain ⟨i, hi⟩ := built' r hmem
        exact absurd hi (fails.not_built hr)
      · obtain ⟨i, hi⟩ := built r' hmem
        exact absurd hi (fails'.not_built hr')

end Fails

end MixinTypes
