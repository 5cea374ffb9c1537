import Mathlib.Data.List.Induction
import MixinTypes.World.Session

/-!
# Every operation extends the memo

Linking puts names in progress while their plans are carried out, and takes each of them out again
whether it succeeds or fails. What was built before stays built, and notes are only added.

1. A name that is entered and left again, or stored, is in the end no longer in progress; the names
   that were in progress before still are (`Extends.leave`, `Extends.store`).
2. All requests of a plan are made while its name is in progress, and each restores what it found, so
   the names in progress are always those of the plans being carried out (`extends_link`).
3. A session starts with nothing in progress, and each operation extends its memo
   (`extends_perform`), so nothing is in progress between two operations.
-/

namespace MixinTypes

namespace Memo

variable {w : World} {n : Nominal} {a b c m m' : Memo w}

/-- The same names are in progress, what was built still is, and notes were only added. -/
structure Extends (m m' : Memo w) : Prop where
  isOpen : ∀ k, m'.isOpen k = m.isOpen k
  done : ∀ {k i}, m.entries.get? k = some (.done i) → m'.entries.get? k = some (.done i)
  unresolved : m.unresolved <+: m'.unresolved

namespace Extends

theorem refl (m : Memo w) : m.Extends m := ⟨fun _ => rfl, fun h => h, List.prefix_refl _⟩

theorem trans (h : a.Extends b) (h' : b.Extends c) : a.Extends c where
  isOpen k := (h'.isOpen k).trans (h.isOpen k)
  done hk := h'.done (h.done hk)
  unresolved := h.unresolved.trans h'.unresolved

theorem note (m : Memo w) (us : List Unresolved) : m.Extends (m.note us) :=
  ⟨fun _ => rfl, fun h => h, List.prefix_append _ _⟩

theorem keeps (h : m.Extends m') : m.Keeps m' := fun k hk => (h.isOpen k).trans hk

/-- What was built under another name than the one entered stays built. -/
theorem done_of_enter {k : Nominal} {i : Interface} (h : (m.enter n).Extends m') (hne : n ≠ k)
    (hk : m.entries.get? k = some (.done i)) : m'.entries.get? k = some (.done i) := by
  apply h.done
  rw [get?_enter, if_neg hne]
  exact hk

theorem leave (hn : m.entries.get? n = none) (h : (m.enter n).Extends m') :
    m.Extends (m'.leave n) where
  isOpen k := by
    rw [isOpen_leave, h.isOpen, isOpen_enter]
    by_cases hk : n = k
    · subst hk; simp [Memo.isOpen, hn]
    · rw [if_neg hk, if_neg hk]
  done {k i} hk := by
    have hne : n ≠ k := ne_of_get? hn hk
    rw [get?_leave, if_neg hne]
    exact h.done_of_enter hne hk
  unresolved := h.unresolved

theorem store (hn : m.entries.get? n = none) (h : (m.enter n).Extends m')
    (i : { i // Built w n i }) : m.Extends (m'.store i) where
  isOpen k := by
    rw [isOpen_store, ← isOpen_leave]
    exact (leave hn h).isOpen k
  done {k j} hk := by
    have hne : n ≠ k := ne_of_get? hn hk
    rw [get?_store, if_neg hne]
    exact h.done_of_enter hne hk
  unresolved := h.unresolved

end Extends

end Memo

namespace World

variable {w : World}

/-! ## Linking -/

theorem extends_link (n : Nominal) (m : Memo w) : m.Extends (w.link n m).2 := by
  induction n, m using link_induction with
  | done n m i h => rw [link_of_done h]; exact .refl m
  | inProgress n m h => rw [link_of_inProgress h]; exact .refl m
  | unknown n m cause h hp => rw [link_of_unknown h hp]; exact .leave h (.refl _)
  | plan n m p h hp ih =>
    have hg : (m.enter n).Extends (gather Memo.note w.link p.steps (m.enter n)).2 :=
      gather_preserves _ (fun s us hs => hs.trans (.note s us))
        (fun r s hs => hs.trans (ih r s hs.keeps)) p.steps (.refl _)
    rw [link_of_plan h hp]
    split
    · next h' => rw [h'] at hg; exact .leave h hg
    · next h' => rw [h'] at hg; exact .store h hg _

theorem extends_gather (ss : List Step) (m : Memo w) :
    m.Extends (gather Memo.note w.link ss m).2 :=
  gather_preserves _ (fun s us hs => hs.trans (.note s us)) (fun r s hs => hs.trans (extends_link r s))
    ss (.refl m)

theorem extends_interfaceOf (scope : Option Path) (n : Nominal) (m : Memo w) :
    m.Extends (w.interfaceOf scope n m).2 :=
  (Memo.Extends.note m _).trans (extends_link (w.absoluteName scope n) _)

/-! ## Sessions -/

theorem extends_perform (m : Memo w) (op : Operation) : m.Extends (w.perform m op) := by
  cases op with
  | interface scope n => exact extends_interfaceOf scope n m
  | mixin scope n => exact extends_interfaceOf (some scope) n m
  | name | type | params | signature | method => exact .note m _

/-- Between two operations nothing is in progress. -/
theorem isOpen_after (history : List Operation) (n : Nominal) :
    (w.after history).isOpen n = false := by
  induction history using List.reverseRecOn with
  | nil => exact Memo.isOpen_empty n
  | append_singleton history op ih =>
    rw [after_concat, (extends_perform _ op).isOpen, ih]

theorem isOpen_note_after (history : List Operation) (us : List Unresolved) (n : Nominal) :
    ((w.after history).note us).isOpen n = false := by
  rw [Memo.isOpen_note, isOpen_after]

/-- However the operations of a session ended, none of them left a name in progress; and a further
one takes nothing back of what has been built and noted. -/
theorem after_clean_and_grows (w : World) (history : List Operation) :
    (∀ n, (w.after history).entries.get? n ≠ some .inProgress) ∧
      ∀ op, (∀ n i, (w.after history).entries.get? n = some (.done i) →
          (w.after (history ++ [op])).entries.get? n = some (.done i)) ∧
        (w.after history).unresolved <+: (w.after (history ++ [op])).unresolved := by
  constructor
  · intro n hn
    have hopen := Memo.isOpen_iff.mpr hn
    rw [isOpen_after] at hopen
    cases hopen
  · intro op
    have h := extends_perform (w.after history) op
    rw [after_concat]
    exact ⟨fun _ _ hn => h.done hn, h.unresolved⟩

end World

end MixinTypes
