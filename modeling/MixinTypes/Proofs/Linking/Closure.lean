import MixinTypes.Proofs.Linking.Extension

/-!
# What a memo holds beside an interface

A memo that holds an interface holds all that it was made of: the interfaces that its plan requests, and the
names that its plan could not resolve.

1. Linking does four things to a memo, and what all of them preserve, it preserves (`link_preserves`).
2. When gathering succeeds, all that its steps need is there (`has_of_gather`), so a stored interface comes
   with what it was made of (`Memo.Complete.store`).
3. Therefore every memo of a session is complete (`complete_after`).
-/

namespace MixinTypes

namespace Memo

variable {w : World} {n : Nominal} {m m' : Memo w} {s : Step}

/-- What the step needs is there: the interface that it requests has been built, and the names that it could
not resolve have been noted. -/
structure Has (m : Memo w) (s : Step) : Prop where
  request : ∀ r, s.request? = some r → ∃ i, m.entries.get? r = some (.done i)
  noted : s.noted ⊆ m.unresolved

theorem Has.mono (h : m.Has s)
    (done : ∀ k i, m.entries.get? k = some (.done i) → ∃ j, m'.entries.get? k = some (.done j))
    (unresolved : m.unresolved ⊆ m'.unresolved) : m'.Has s where
  request r hr := (h.request r hr).elim (done r)
  noted _ hu := unresolved (h.noted hu)

/-- What has been built under a name that is not in progress is there after the name in progress is left. -/
theorem get?_leave_of_done {k : Nominal} {i : Interface} (hopen : m.isOpen n = true)
    (hk : m.entries.get? k = some (.done i)) : (m.leave n).entries.get? k = some (.done i) := by
  have hne : n ≠ k := by
    rintro rfl
    rw [isOpen_iff.mp hopen] at hk
    cases hk
  rw [get?_leave, if_neg hne]
  exact hk

/-- Every interface comes with all that its plan needs. -/
def Complete (m : Memo w) : Prop :=
  ∀ n i p, m.entries.get? n = some (.done i) → w.plan n = .ok p → ∀ s ∈ p.steps, m.Has s

namespace Complete

theorem empty (w : World) : (Memo.empty w).Complete := fun _ _ _ h => nomatch h

theorem note (h : m.Complete) (us : List Unresolved) : (m.note us).Complete := fun n i p hn hp s hs =>
  (h n i p hn hp s hs).mono (fun _ i hi => ⟨i, hi⟩) (List.subset_append_left _ us)

theorem enter (h : m.Complete) (hn : m.entries.get? n = none) : (m.enter n).Complete := by
  intro k i p hk hp s hs
  rw [get?_enter] at hk
  split at hk
  · cases hk
  · refine (h k i p hk hp s hs).mono (fun k j hj => ⟨j, ?_⟩) (List.Subset.refl _)
    rw [get?_enter, if_neg (ne_of_get? hn hj)]
    exact hj

theorem leave (h : m.Complete) (hopen : m.isOpen n = true) : (m.leave n).Complete := by
  intro k i p hk hp s hs
  rw [get?_leave] at hk
  split at hk
  · cases hk
  · exact (h k i p hk hp s hs).mono (fun k j hj => ⟨j, get?_leave_of_done hopen hj⟩) (List.Subset.refl _)

theorem store (h : m.Complete) {p : Plan} (hp : w.plan n = .ok p) (hsteps : ∀ s ∈ p.steps, m.Has s)
    (i : { i // Built w n i }) : (m.store i).Complete := by
  have kept : ∀ k j, m.entries.get? k = some (.done j) →
      ∃ j, (m.store i).entries.get? k = some (.done j) := by
    intro k j hj
    rw [get?_store]
    split
    · exact ⟨i.1, rfl⟩
    · exact ⟨j, hj⟩
  intro k j q hk hq s hs
  rw [get?_store] at hk
  split at hk
  · next heq =>
    subst heq
    obtain rfl := Except.ok.inj (hp.symm.trans hq)
    exact (hsteps s hs).mono kept (List.Subset.refl _)
  · exact (h k j q hk hq s hs).mono kept (List.Subset.refl _)

end Complete

end Memo

namespace World

variable {w : World} {n : Nominal} {m m' : Memo w}

/-! ## Linking -/

/-- A name that has been linked is kept with its interface. -/
theorem done_of_link {i : { i // Built w n i }} (h : w.link n m = (.ok i, m')) :
    m'.entries.get? n = some (.done i.1) := by
  match hn : m.entries.get? n with
  | some (.done j) =>
    rw [link_of_done hn] at h
    cases h
    exact hn
  | some .inProgress =>
    rw [link_of_inProgress hn] at h
    cases h
  | none =>
    match hp : w.plan n with
    | .error cause =>
      rw [link_of_unknown hn hp] at h
      cases h
    | .ok p =>
      rw [link_of_plan hn hp] at h
      split at h
      · cases h
      · cases h
        exact (Memo.get?_store ..).trans (if_pos rfl)

/-- Gathering that succeeds leaves all that its steps need. -/
theorem has_of_gather {ss : List Step} {found : Found w ss}
    (h : gather Memo.note w.link ss m = (.ok found, m')) : ∀ s ∈ ss, m'.Has s := by
  induction ss generalizing m with
  | nil => exact List.forall_mem_nil _
  | cons s ss ih =>
    unfold gather at h
    split at h
    · next hs =>
      split at h
      · cases h
      · next hg =>
        cases h
        have hx := extends_gather ss (m.note s.noted)
        rw [hg] at hx
        refine List.forall_mem_cons.mpr ⟨⟨fun r hr => ?_, fun u hu => ?_⟩, ih hg⟩
        · rw [hs] at hr
          cases hr
        · exact hx.unresolved.subset (List.mem_append_right _ hu)
    · next r hs =>
      split at h
      · cases h
      · next i m₁ hl =>
        split at h
        · cases h
        · next hg =>
          cases h
          have hx := extends_gather ss m₁
          rw [hg] at hx
          refine List.forall_mem_cons.mpr ⟨⟨fun k hk => ?_, ?_⟩, ih hg⟩
          · obtain rfl := Option.some.inj (hs.symm.trans hk)
            exact ⟨i.1, hx.done (done_of_link hl)⟩
          · rw [Step.noted_of_request? hs]
            exact List.nil_subset _

/-- To show that linking keeps a property of memos, show that noting what a plan could not resolve keeps it,
and entering, leaving and storing a name. -/
theorem link_preserves {I : Memo w → Prop}
    (note : ∀ {n p m}, w.plan n = .ok p → ∀ s ∈ p.steps, I m → I (m.note s.noted))
    (enter : ∀ {n m}, m.entries.get? n = none → I m → I (m.enter n))
    (leave : ∀ {n m}, m.isOpen n = true → I m → I (m.leave n))
    (store : ∀ {n p m}, w.plan n = .ok p → (∀ s ∈ p.steps, m.Has s) → I m → ∀ i, I (m.store (n := n) i))
    (n : Nominal) (m : Memo w) (hm : I m) : I (w.link n m).2 := by
  have hopen : ∀ n (m : Memo w), (m.enter n).isOpen n = true := fun n m => by
    rw [Memo.isOpen_enter, if_pos rfl]
  induction n, m using link_induction with
  | done n m i h => rw [link_of_done h]; exact hm
  | inProgress n m h => rw [link_of_inProgress h]; exact hm
  | unknown n m cause h hp =>
    rw [link_of_unknown h hp]
    exact leave (hopen n m) (enter h hm)
  | plan n m p h hp ih =>
    have hg : (m.enter n).Keeps (gather Memo.note w.link p.steps (m.enter n)).2 ∧
        I (gather Memo.note w.link p.steps (m.enter n)).2 :=
      gather_preserves_of_mem (fun s => (m.enter n).Keeps s ∧ I s)
        (fun s hs m' hm' => ⟨hm'.1, note hp s hs hm'.2⟩)
        (fun r m' hm' => ⟨hm'.1.trans (extends_link r m').keeps, ih r m' hm'.1 hm'.2⟩)
        ⟨.refl _, enter h hm⟩
    rw [link_of_plan h hp]
    split
    · next hgather =>
      rw [hgather] at hg
      exact leave (hg.1 n (hopen n m)) hg.2
    · next hgather =>
      rw [hgather] at hg
      exact store hp (has_of_gather hgather) hg.2 _

theorem complete_link (hm : m.Complete) : (w.link n m).2.Complete :=
  link_preserves (I := Memo.Complete) (fun _ s _ h => h.note s.noted) (fun hn h => h.enter hn)
    (fun hopen h => h.leave hopen) (fun hp hsteps h i => h.store hp hsteps i) n m hm

/-! ## Sessions -/

theorem complete_after (history : List Operation) : (w.after history).Complete := by
  induction history using List.reverseRecOn with
  | nil => exact .empty w
  | append_singleton history op ih =>
    rw [after_concat]
    cases op with
    | interface | mixin => exact complete_link (ih.note _)
    | name | type | params | signature | method => exact ih.note _

end World

end MixinTypes
