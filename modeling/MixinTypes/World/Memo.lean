import MixinTypes.World.Built

/-!
# Memos

A memo is what linking remembers: which names are in progress, which interfaces have been built, and
which names could not be resolved. Each interface in it is known to be built. A name is entered
before its plan is carried out; after that it is left, or its interface is stored.

Main statement: `remaining_lt`, entering a name that has a plan leaves fewer names to enter.
-/

namespace MixinTypes

/-- What a memo holds under a name. -/
inductive Entry where
  /-- The name has been entered and not been left. -/
  | inProgress
  | done (i : Interface)

/-- The names that are in progress or have been built, and the names that could not be resolved, in
order. -/
structure Memo (w : World) where
  entries : Table Nominal Entry
  unresolved : List Unresolved
  sound : ∀ {n i}, entries.get? n = some (.done i) → Built w n i

namespace Memo

variable {w : World}

/-- Nothing built yet. -/
def empty (w : World) : Memo w := ⟨.empty, [], fun h => nomatch h⟩

/-- Mark a name as in progress. -/
def enter (m : Memo w) (n : Nominal) : Memo w where
  entries := m.entries.insert n .inProgress
  unresolved := m.unresolved
  sound {k j} h := by
    rw [Table.get?_insert] at h
    split at h
    · exact nomatch h
    · exact m.sound h

/-- Forget a name. -/
def leave (m : Memo w) (n : Nominal) : Memo w where
  entries := m.entries.erase n
  unresolved := m.unresolved
  sound {k j} h := by
    rw [Table.get?_erase] at h
    split at h
    · exact nomatch h
    · exact m.sound h

/-- Keep an interface. -/
def store (m : Memo w) (i : { i // Built w n i }) : Memo w where
  entries := m.entries.insert n (.done i.1)
  unresolved := m.unresolved
  sound {k j} h := by
    rw [Table.get?_insert] at h
    split at h
    · next e => subst e; cases h; exact i.2
    · exact m.sound h

/-- Remember names that could not be resolved. -/
def note (m : Memo w) (us : List Unresolved) : Memo w :=
  { m with unresolved := m.unresolved ++ us }

/-- Whether a name is in progress. -/
def isOpen (m : Memo w) (n : Nominal) : Bool :=
  match m.entries.get? n with
  | some .inProgress => true
  | _ => false

theorem get?_enter (m : Memo w) (n k : Nominal) :
    (m.enter n).entries.get? k = if n = k then some .inProgress else m.entries.get? k :=
  Table.get?_insert ..

theorem get?_leave (m : Memo w) (n k : Nominal) :
    (m.leave n).entries.get? k = if n = k then none else m.entries.get? k :=
  Table.get?_erase ..

theorem get?_store {n : Nominal} (m : Memo w) (i : { i // Built w n i }) (k : Nominal) :
    (m.store i).entries.get? k = if n = k then some (.done i.1) else m.entries.get? k :=
  Table.get?_insert ..

/-- A name that has an entry is not one that has none. -/
theorem ne_of_get? {m : Memo w} {n k : Nominal} {e : Entry} (hn : m.entries.get? n = none)
    (hk : m.entries.get? k = some e) : n ≠ k := by
  rintro rfl
  rw [hn] at hk
  cases hk

theorem isOpen_iff {m : Memo w} {n : Nominal} :
    m.isOpen n = true ↔ m.entries.get? n = some .inProgress := by
  unfold isOpen
  split <;> simp_all

@[simp] theorem isOpen_empty (n : Nominal) : (empty w).isOpen n = false := rfl

@[simp] theorem isOpen_enter (m : Memo w) (n k : Nominal) :
    (m.enter n).isOpen k = if n = k then true else m.isOpen k := by
  by_cases h : n = k <;> simp [isOpen, enter, h]

@[simp] theorem isOpen_leave (m : Memo w) (n k : Nominal) :
    (m.leave n).isOpen k = if n = k then false else m.isOpen k := by
  by_cases h : n = k <;> simp [isOpen, leave, h]

@[simp] theorem isOpen_store (m : Memo w) (i : { i // Built w n i }) (k : Nominal) :
    (m.store i).isOpen k = if n = k then false else m.isOpen k := by
  by_cases h : n = k <;> simp [isOpen, store, h]

@[simp] theorem isOpen_note (m : Memo w) (us : List Unresolved) (k : Nominal) :
    (m.note us).isOpen k = m.isOpen k := rfl

/-! ### What stays in progress -/

/-- Everything in progress in `m` is in progress in `m'`. -/
def Keeps (m m' : Memo w) : Prop := ∀ k, m.isOpen k = true → m'.isOpen k = true

theorem Keeps.refl (m : Memo w) : m.Keeps m := fun _ h => h

theorem Keeps.trans {a b c : Memo w} (h : a.Keeps b) (h' : b.Keeps c) : a.Keeps c :=
  fun k hk => h' k (h k hk)

/-- A name that was not in progress is entered and left again. -/
theorem Keeps.leave {m m' : Memo w} {n : Nominal} (hn : m.entries.get? n = none)
    (h : (m.enter n).Keeps m') : m.Keeps (m'.leave n) := by
  intro k hk
  have hne : n ≠ k := ne_of_get? hn (isOpen_iff.mp hk)
  simpa [hne] using h k (by simp [hk])

/-- A name that was not in progress is entered and built. -/
theorem Keeps.store {m m' : Memo w} {n : Nominal} (hn : m.entries.get? n = none)
    (h : (m.enter n).Keeps m') (i : { i // Built w n i }) : m.Keeps (m'.store i) := by
  intro k hk
  simpa using Keeps.leave hn h k hk

/-- How many of the names that can be entered are not in progress. -/
def remaining (m : Memo w) : Nat := (w.candidates.filter fun k => !m.isOpen k).length

/-- Whatever is linked below a name that has been entered has fewer names left to enter. -/
theorem remaining_lt {m m' : Memo w} {n : Nominal} {p : Plan} (hn : m.entries.get? n = none)
    (hp : w.plan n = .ok p) (h : (m.enter n).Keeps m') : m'.remaining < m.remaining := by
  have hopen : m'.isOpen n = true := h n (by simp)
  have hclosed : m.isOpen n = false := by simp [isOpen, hn]
  have split : (w.candidates.filter fun k => !m'.isOpen k) =
      (w.candidates.filter fun k => !m.isOpen k).filter fun k => !m'.isOpen k := by
    rw [List.filter_filter]
    refine List.filter_congr fun k _ => ?_
    cases hk : m.isOpen k with
    | false => simp
    | true => simp [h k (by simp [hk])]
  rw [remaining, split, remaining, List.length_filter_lt_length_iff_exists]
  exact ⟨n, List.mem_filter.mpr ⟨World.mem_candidates_of_plan hp, by simp [hclosed]⟩, by simp [hopen]⟩

/-- A memo in which everything is in progress that is in `m`. -/
abbrev After (m : Memo w) := { m' : Memo w // m.Keeps m' }

/-- Remember names that could not be resolved. -/
def After.note {m : Memo w} (s : m.After) (us : List Unresolved) : m.After := ⟨s.1.note us, s.2⟩

end Memo

end MixinTypes
