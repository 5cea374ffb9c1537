import MixinTypes.Distinct

/-!
# Tables that remember insertion order

A table is a finite map kept as a list of entries with pairwise distinct keys. A key keeps
the position of its first insertion; writing it again replaces the value in place. Two tables
are `==` when they hold the same entries in any order, while `=` also compares the order.

Main statements: `get?_insert`, `get?_erase` and `get?_map` say what each operation does to
look-ups, `keys_insert`, `keys_erase` and `keys_map` what it does to the order of keys;
`mem_keys_iff` ties the two views together. By `beq_iff` tables are `==` when their look-ups agree.
-/

namespace MixinTypes

/-- Finitely many entries in insertion order, one per key. -/
structure Table (κ : Type u) (α : Type v) where
  entries : List (κ × α)
  nodup : (entries.map Prod.fst).Nodup

namespace Table

/-! ## Entry lists -/

/-- Write `v` under `k`: in place when `k` has an entry, otherwise at the end. -/
def putEntry [DecidableEq κ] (k : κ) (v : α) : List (κ × α) → List (κ × α)
  | [] => [(k, v)]
  | (k', v') :: rest => if k' = k then (k, v) :: rest else (k', v') :: putEntry k v rest

theorem fst_putEntry [DecidableEq κ] (k : κ) (v : α) (es : List (κ × α)) :
    (putEntry k v es).map Prod.fst =
      if k ∈ es.map Prod.fst then es.map Prod.fst else es.map Prod.fst ++ [k] := by
  induction es with
  | nil => simp [putEntry]
  | cons e rest ih =>
    obtain ⟨k', v'⟩ := e
    by_cases h : k' = k
    · subst h; simp [putEntry]
    · have h' : ¬ k = k' := fun e => h e.symm
      by_cases hm : k ∈ rest.map Prod.fst
      · simp only [putEntry, if_neg h, List.map_cons, ih, if_pos hm, List.mem_cons, h', false_or]
      · simp only [putEntry, if_neg h, List.map_cons, ih, if_neg hm, List.mem_cons, h', false_or,
          List.cons_append]

theorem nodup_putEntry [DecidableEq κ] (k : κ) (v : α) {es : List (κ × α)}
    (h : (es.map Prod.fst).Nodup) : ((putEntry k v es).map Prod.fst).Nodup := by
  rw [fst_putEntry]
  split
  · exact h
  · next hk =>
    refine List.nodup_append.mpr ⟨h, by simp, ?_⟩
    intro a ha b hb e
    rw [List.mem_singleton] at hb
    subst hb; subst e
    exact hk ha

/-- A key without an entry is written at the end. -/
theorem putEntry_of_not_mem [DecidableEq κ] {k : κ} {es : List (κ × α)} (h : k ∉ es.map Prod.fst)
    (v : α) : putEntry k v es = es ++ [(k, v)] := by
  induction es with
  | nil => rfl
  | cons e es ih =>
    rw [List.map_cons, List.mem_cons, not_or] at h
    rw [putEntry, if_neg (Ne.symm h.1), ih h.2, List.cons_append]

/-- The value under `k`. -/
def valueIn? [DecidableEq κ] (k : κ) : List (κ × α) → Option α
  | [] => none
  | (k', v') :: rest => if k' = k then some v' else valueIn? k rest

theorem mem_putEntry [DecidableEq κ] {k : κ} {v : α} {es : List (κ × α)} {e : κ × α}
    (h : e ∈ putEntry k v es) : e = (k, v) ∨ e ∈ es := by
  induction es with
  | nil => exact .inl (List.mem_singleton.mp h)
  | cons e' rest ih =>
    rw [putEntry] at h
    split at h
    · exact (List.mem_cons.mp h).imp_right (List.mem_cons_of_mem e')
    · rcases List.mem_cons.mp h with rfl | h
      · exact .inr (List.mem_cons_self ..)
      · exact (ih h).imp_right (List.mem_cons_of_mem e')

theorem valueIn?_putEntry [DecidableEq κ] (k k' : κ) (v : α) (es : List (κ × α)) :
    valueIn? k' (putEntry k v es) = if k = k' then some v else valueIn? k' es := by
  induction es with
  | nil => rfl
  | cons e rest ih =>
    obtain ⟨a, b⟩ := e
    by_cases h : a = k
    · subst h
      by_cases h' : a = k' <;> simp [putEntry, valueIn?, h']
    · by_cases h' : a = k'
      · subst h'; simp [putEntry, valueIn?, h, Ne.symm h]
      · simp [putEntry, valueIn?, h, h', ih]

theorem valueIn?_filter_ne [DecidableEq κ] (k k' : κ) (es : List (κ × α)) :
    valueIn? k' (es.filter fun e => e.1 ≠ k) = if k = k' then none else valueIn? k' es := by
  induction es with
  | nil => simp [valueIn?]
  | cons e rest ih =>
    obtain ⟨a, b⟩ := e
    by_cases h : a = k
    · subst h
      rw [List.filter_cons_of_neg (by simp), ih]
      by_cases h' : a = k' <;> simp [valueIn?, h']
    · rw [List.filter_cons_of_pos (by simpa using h)]
      by_cases h' : a = k'
      · subst h'; simp [valueIn?, Ne.symm h]
      · simp only [valueIn?, if_neg h', ih]

theorem filter_ne_eq_self [DecidableEq κ] {k : κ} {es : List (κ × α)} (h : k ∉ es.map Prod.fst) :
    es.filter (fun e => e.1 ≠ k) = es := by
  refine List.filter_eq_self.mpr fun e he => decide_eq_true ?_
  rintro rfl
  exact h (List.mem_map_of_mem he)

theorem filter_putEntry_self [DecidableEq κ] (k : κ) (v : α) (es : List (κ × α)) :
    (putEntry k v es).filter (fun e => e.1 ≠ k) = es.filter fun e => e.1 ≠ k := by
  induction es with
  | nil => simp [putEntry]
  | cons e rest ih =>
    obtain ⟨a, b⟩ := e
    by_cases h : a = k
    · subst h
      simp [putEntry]
    · rw [putEntry, if_neg h, List.filter_cons, List.filter_cons, ih]

theorem filter_putEntry_of_ne [DecidableEq κ] {k k' : κ} (h : k ≠ k') (v : α) (es : List (κ × α)) :
    (putEntry k v es).filter (fun e => e.1 ≠ k') = putEntry k v (es.filter fun e => e.1 ≠ k') := by
  induction es with
  | nil => simp [putEntry, h]
  | cons e rest ih =>
    obtain ⟨a, b⟩ := e
    by_cases ha : a = k
    · subst ha
      simp [putEntry, h]
    · rw [putEntry, if_neg ha, List.filter_cons, List.filter_cons, ih]
      split
      · rw [putEntry, if_neg ha]
      · rfl

theorem putEntry_map_snd [DecidableEq κ] (f : α → β) (k : κ) (v : α) (es : List (κ × α)) :
    (putEntry k v es).map (fun e => (e.1, f e.2)) = putEntry k (f v) (es.map fun e => (e.1, f e.2)) := by
  induction es with
  | nil => rfl
  | cons e rest ih => by_cases h : e.1 = k <;> simp [putEntry, h, ih]

theorem valueIn?_map_snd [DecidableEq κ] (f : α → β) (k : κ) (es : List (κ × α)) :
    valueIn? k (es.map fun e => (e.1, f e.2)) = (valueIn? k es).map f := by
  induction es with
  | nil => rfl
  | cons e rest ih => by_cases h : e.1 = k <;> simp [valueIn?, h, ih]

theorem exists_valueIn?_iff [DecidableEq κ] {k : κ} {es : List (κ × α)} :
    (∃ v, valueIn? k es = some v) ↔ k ∈ es.map Prod.fst := by
  induction es with
  | nil => simp [valueIn?]
  | cons e rest ih =>
    by_cases h : e.1 = k
    · simp [valueIn?, h]
    · have h' : ¬ k = e.1 := fun he => h he.symm
      simp only [valueIn?, if_neg h, ih, List.map_cons, List.mem_cons, h', false_or]

theorem valueIn?_eq_none_iff [DecidableEq κ] {k : κ} {es : List (κ × α)} :
    valueIn? k es = none ↔ k ∉ es.map Prod.fst := by
  rw [← exists_valueIn?_iff, Option.eq_none_iff_forall_ne_some, not_exists]

theorem mem_of_valueIn? [DecidableEq κ] {k : κ} {v : α} {es : List (κ × α)}
    (h : valueIn? k es = some v) : (k, v) ∈ es := by
  induction es with
  | nil => cases h
  | cons e rest ih =>
    rw [valueIn?] at h
    split at h
    · next hk =>
      cases h
      exact hk ▸ List.mem_cons_self ..
    · exact List.mem_cons_of_mem e (ih h)

theorem valueIn?_of_mem [DecidableEq κ] {k : κ} {v : α} {es : List (κ × α)}
    (hn : (es.map Prod.fst).Nodup) (h : (k, v) ∈ es) : valueIn? k es = some v := by
  induction es with
  | nil => cases h
  | cons e rest ih =>
    obtain ⟨hhead, htail⟩ := List.nodup_cons.mp hn
    rcases List.mem_cons.mp h with rfl | h
    · simp [valueIn?]
    · have hne : ¬ e.1 = k := by
        rintro rfl
        exact hhead (List.mem_map.mpr ⟨_, h, rfl⟩)
      rw [valueIn?, if_neg hne]
      exact ih htail h

theorem valueIn?_append [DecidableEq κ] (k : κ) (es fs : List (κ × α)) :
    valueIn? k (es ++ fs) = (valueIn? k es).or (valueIn? k fs) := by
  induction es with
  | nil => rfl
  | cons e rest ih => by_cases h : e.1 = k <;> simp [valueIn?, h, ih]

/-- The first entry of a key counts. -/
theorem valueIn?_eq_some_iff [DecidableEq κ] {k : κ} {v : α} {es : List (κ × α)} :
    valueIn? k es = some v ↔
      ∃ before after, es = before ++ (k, v) :: after ∧ k ∉ before.map Prod.fst := by
  constructor
  · intro h
    induction es with
    | nil => cases h
    | cons e rest ih =>
      rw [valueIn?] at h
      split at h
      · next hk =>
        cases h
        exact ⟨[], rest, hk ▸ rfl, List.not_mem_nil⟩
      · next hk =>
        obtain ⟨before, after, rfl, hbefore⟩ := ih h
        refine ⟨e :: before, after, rfl, ?_⟩
        rw [List.map_cons, List.mem_cons, not_or]
        exact ⟨Ne.symm hk, hbefore⟩
  · rintro ⟨before, after, rfl, hbefore⟩
    rw [valueIn?_append, valueIn?_eq_none_iff.mpr hbefore]
    simp [valueIn?]

/-! ## Operations -/

theorem eq_of_entries {s t : Table κ α} (h : s.entries = t.entries) : s = t := by
  cases s
  cases t
  cases h
  rfl

/-- The table without entries. -/
def empty : Table κ α := ⟨[], by simp⟩

instance : EmptyCollection (Table κ α) := ⟨empty⟩

/-- The keys, in order. -/
def keys (t : Table κ α) : List κ := t.entries.map Prod.fst

/-- The values, in the order of their keys. -/
def values (t : Table κ α) : List α := t.entries.map Prod.snd

def size (t : Table κ α) : Nat := t.entries.length

def isEmpty (t : Table κ α) : Bool := t.entries.isEmpty

variable [DecidableEq κ]

/-- The value under `k`. -/
def get? (t : Table κ α) (k : κ) : Option α := valueIn? k t.entries

/-- Whether `k` has an entry. -/
def contains (t : Table κ α) (k : κ) : Bool := (t.get? k).isSome

/-- Write `v` under `k`, keeping the position of a key that is already there. -/
def insert (t : Table κ α) (k : κ) (v : α) : Table κ α :=
  ⟨putEntry k v t.entries, nodup_putEntry k v t.nodup⟩

/-- Remove the entry of `k`; the others keep their order. -/
def erase (t : Table κ α) (k : κ) : Table κ α :=
  ⟨t.entries.filter (fun e => e.1 ≠ k), t.nodup.sublist (List.filter_sublist.map _)⟩

omit [DecidableEq κ] in
theorem fst_map_snd (f : α → β) (es : List (κ × α)) :
    (es.map fun e => (e.1, f e.2)).map Prod.fst = es.map Prod.fst := by
  simp [List.map_map, Function.comp_def]

omit [DecidableEq κ] in
/-- Apply `f` to every value. -/
def map (f : α → β) (t : Table κ α) : Table κ β :=
  ⟨t.entries.map fun e => (e.1, f e.2), by rw [fst_map_snd]; exact t.nodup⟩

/-- Write the entries of a list one after another. -/
def ofList (es : List (κ × α)) : Table κ α :=
  es.foldl (fun t e => t.insert e.1 e.2) empty

/-- The same keys with `==` values, in any order. -/
instance [BEq α] : BEq (Table κ α) where
  beq s t := s.size == t.size && s.entries.all fun e => t.get? e.1 == some e.2

/-! ## Look-ups after an operation -/

@[simp] theorem get?_empty (k : κ) : (empty : Table κ α).get? k = none := rfl

@[simp] theorem get?_insert (t : Table κ α) (k k' : κ) (v : α) :
    (t.insert k v).get? k' = if k = k' then some v else t.get? k' :=
  valueIn?_putEntry k k' v t.entries

@[simp] theorem get?_erase (t : Table κ α) (k k' : κ) :
    (t.erase k).get? k' = if k = k' then none else t.get? k' :=
  valueIn?_filter_ne k k' t.entries

@[simp] theorem get?_map (f : α → β) (t : Table κ α) (k : κ) :
    (t.map f).get? k = (t.get? k).map f :=
  valueIn?_map_snd f k t.entries

theorem keys_insert (t : Table κ α) (k : κ) (v : α) :
    (t.insert k v).keys = if k ∈ t.keys then t.keys else t.keys ++ [k] :=
  fst_putEntry k v t.entries

theorem keys_erase (t : Table κ α) (k : κ) :
    (t.erase k).keys = t.keys.filter (fun k' => k' ≠ k) := by
  simp [keys, erase, List.filter_map, Function.comp_def]

theorem entries_insert_of_not_mem {t : Table κ α} {k : κ} (h : k ∉ t.keys) (v : α) :
    (t.insert k v).entries = t.entries ++ [(k, v)] :=
  putEntry_of_not_mem h v

theorem mem_entries_insert {t : Table κ α} {k : κ} {v : α} {e : κ × α} (h : e ∈ (t.insert k v).entries) :
    e = (k, v) ∨ e ∈ t.entries :=
  mem_putEntry h

/-- Entries with new keys come at the end, one after another. -/
theorem entries_foldl_insert {t : Table κ α} {es : List (κ × α)}
    (h : ((t.entries ++ es).map Prod.fst).Nodup) :
    (es.foldl (fun t e => t.insert e.1 e.2) t).entries = t.entries ++ es := by
  induction es generalizing t with
  | nil => simp
  | cons e es ih =>
    have hnew : e.1 ∉ t.keys := by
      rw [List.map_append] at h
      intro hmem
      exact (List.nodup_append.mp h).2.2 _ hmem _ (List.mem_cons_self ..) rfl
    have hinsert : (t.insert e.1 e.2).entries = t.entries ++ [e] := entries_insert_of_not_mem hnew e.2
    rw [List.foldl_cons, ih (by rw [hinsert]; simpa using h), hinsert, List.append_assoc]
    rfl

/-- A list that writes no key twice is the list of entries of its table. -/
theorem entries_ofList {es : List (κ × α)} (h : (es.map Prod.fst).Nodup) : (ofList es).entries = es :=
  entries_foldl_insert (t := empty) h

/-- A table is written again from its entries. -/
theorem ofList_entries (t : Table κ α) : ofList t.entries = t :=
  eq_of_entries (entries_ofList t.nodup)

/-- Forgetting a key after writing it. -/
theorem erase_insert_self (t : Table κ α) (k : κ) (v : α) : (t.insert k v).erase k = t.erase k :=
  eq_of_entries (filter_putEntry_self k v t.entries)

theorem erase_insert_of_ne {k k' : κ} (h : k ≠ k') (t : Table κ α) (v : α) :
    (t.insert k v).erase k' = (t.erase k').insert k v :=
  eq_of_entries (filter_putEntry_of_ne h v t.entries)

theorem erase_comm (t : Table κ α) (k k' : κ) : (t.erase k).erase k' = (t.erase k').erase k := by
  refine eq_of_entries ?_
  change (t.entries.filter _).filter _ = (t.entries.filter _).filter _
  rw [List.filter_filter, List.filter_filter]
  exact List.filter_congr fun e _ => Bool.and_comm ..

theorem erase_of_not_mem {t : Table κ α} {k : κ} (h : k ∉ t.keys) : t.erase k = t :=
  eq_of_entries (filter_ne_eq_self h)

theorem map_insert (f : α → β) (t : Table κ α) (k : κ) (v : α) :
    (t.insert k v).map f = (t.map f).insert k (f v) :=
  eq_of_entries (putEntry_map_snd f k v t.entries)

theorem map_erase (f : α → β) (t : Table κ α) (k : κ) : (t.erase k).map f = (t.map f).erase k := by
  refine eq_of_entries ?_
  change (t.entries.filter _).map _ = (t.entries.map _).filter _
  rw [List.filter_map]
  rfl

theorem mem_keys_insert {t : Table κ α} {k k' : κ} {v : α} :
    k' ∈ (t.insert k v).keys ↔ k' = k ∨ k' ∈ t.keys := by
  rw [keys_insert]
  split
  · next hk =>
    constructor
    · exact .inr
    · rintro (rfl | h)
      · exact hk
      · exact h
  · rw [List.mem_append, List.mem_singleton, or_comm]

theorem mem_keys_iff {t : Table κ α} {k : κ} : k ∈ t.keys ↔ ∃ v, t.get? k = some v :=
  exists_valueIn?_iff.symm

theorem contains_iff_mem_keys {t : Table κ α} {k : κ} : t.contains k = true ↔ k ∈ t.keys := by
  rw [mem_keys_iff, contains, Option.isSome_iff_exists]

theorem mem_entries_of_get? {t : Table κ α} {k : κ} {v : α} (h : t.get? k = some v) :
    (k, v) ∈ t.entries :=
  mem_of_valueIn? h

theorem mem_values_of_get? {t : Table κ α} {k : κ} {v : α} (h : t.get? k = some v) : v ∈ t.values :=
  List.mem_map_of_mem (mem_entries_of_get? h)

theorem mem_values_insert {t : Table κ α} {k : κ} {u v : α} (h : u ∈ (t.insert k v).values) :
    u = v ∨ u ∈ t.values := by
  obtain ⟨e, he, rfl⟩ := List.mem_map.mp h
  rcases mem_entries_insert he with rfl | he
  · exact .inl rfl
  · exact .inr (List.mem_map_of_mem he)

theorem get?_of_mem_entries {t : Table κ α} {k : κ} {v : α} (h : (k, v) ∈ t.entries) :
    t.get? k = some v :=
  valueIn?_of_mem t.nodup h

instance [BEq α] [ReflBEq α] : ReflBEq (Table κ α) where
  rfl {t} := by
    change (t.size == t.size && t.entries.all fun e => t.get? e.1 == some e.2) = true
    rw [Bool.and_eq_true, List.all_eq_true]
    refine ⟨beq_self_eq_true _, fun e he => ?_⟩
    rw [get?_of_mem_entries he]
    exact beq_self_eq_true _

theorem size_le_of_keys_subset {s t : Table κ α} (h : ∀ k ∈ s.keys, k ∈ t.keys) : s.size ≤ t.size := by
  have hle := length_le_of_nodup_of_subset s.nodup h
  unfold keys at hle
  rwa [List.length_map, List.length_map] at hle

theorem size_lt_of_keys_subset {s t : Table κ α} (h : ∀ k ∈ s.keys, k ∈ t.keys) {k : κ} (hk : k ∈ t.keys)
    (hnew : k ∉ s.keys) : s.size < t.size := by
  have hle := length_le_of_nodup_of_subset (List.nodup_cons.mpr ⟨hnew, s.nodup⟩)
    (List.forall_mem_cons.mpr ⟨hk, h⟩)
  unfold keys at hle
  rwa [List.length_cons, List.length_map, List.length_map] at hle

/-- Tables whose values are compared by equality are `==` when they agree on every look-up. -/
theorem beq_iff [BEq α] [LawfulBEq α] {s t : Table κ α} : (s == t) = true ↔ ∀ k, s.get? k = t.get? k := by
  change (s.size == t.size && s.entries.all fun e => t.get? e.1 == some e.2) = true ↔ _
  rw [Bool.and_eq_true, List.all_eq_true, beq_iff_eq]
  constructor
  · rintro ⟨hsize, hall⟩ k
    have here : ∀ k v, s.get? k = some v → t.get? k = some v := fun k v hk =>
      eq_of_beq (hall (k, v) (mem_entries_of_get? hk))
    by_cases hk : k ∈ s.keys
    · obtain ⟨v, hv⟩ := mem_keys_iff.mp hk
      rw [hv, here k v hv]
    · have hkeys : ∀ k ∈ s.keys, k ∈ t.keys := by
        intro k hk
        obtain ⟨v, hv⟩ := mem_keys_iff.mp hk
        exact mem_keys_iff.mpr ⟨v, here k v hv⟩
      -- otherwise the second table would be larger
      have hk' : k ∉ t.keys := fun hmem =>
        Nat.ne_of_lt (size_lt_of_keys_subset hkeys hmem hk) hsize
      have hnone : s.get? k = none := valueIn?_eq_none_iff.mpr hk
      exact hnone.trans (valueIn?_eq_none_iff.mpr hk').symm
  · intro h
    have hkeys : ∀ k, k ∈ s.keys ↔ k ∈ t.keys := by
      intro k
      rw [mem_keys_iff, mem_keys_iff, h]
    refine ⟨Nat.le_antisymm ?_ ?_, fun e he => ?_⟩
    · exact size_le_of_keys_subset fun k => (hkeys k).mp
    · exact size_le_of_keys_subset fun k => (hkeys k).mpr
    · rw [← h, get?_of_mem_entries he]
      exact beq_self_eq_true _

theorem beq_comm [BEq α] [LawfulBEq α] (s t : Table κ α) : (s == t) = (t == s) := by
  rw [Bool.eq_iff_iff, beq_iff, beq_iff]
  exact forall_congr' fun k => eq_comm

theorem get?_foldl_insert (es : List (κ × α)) (t : Table κ α) (k : κ) :
    (es.foldl (fun t e => t.insert e.1 e.2) t).get? k = (valueIn? k es.reverse).or (t.get? k) := by
  induction es generalizing t with
  | nil => rfl
  | cons e es ih =>
    rw [List.foldl_cons, ih, get?_insert, List.reverse_cons, valueIn?_append, Option.or_assoc]
    by_cases h : e.1 = k <;> simp [valueIn?, h]

/-- A table written from a list has the last entry of each key. -/
theorem get?_ofList_eq_some_iff {es : List (κ × α)} {k : κ} {v : α} :
    (ofList es).get? k = some v ↔
      ∃ before after, es = before ++ (k, v) :: after ∧ k ∉ after.map Prod.fst := by
  rw [ofList, get?_foldl_insert, get?_empty, Option.or_none, valueIn?_eq_some_iff]
  constructor
  · rintro ⟨after, before, hes, hafter⟩
    refine ⟨before.reverse, after.reverse, ?_, by simpa using hafter⟩
    rw [← List.reverse_reverse es, hes]
    simp
  · rintro ⟨before, after, rfl, hafter⟩
    exact ⟨after.reverse, before.reverse, by simp, by simpa using hafter⟩

/-- A table written from a list holds entries of the list. -/
theorem mem_of_get?_ofList {es : List (κ × α)} {k : κ} {v : α} (h : (ofList es).get? k = some v) :
    (k, v) ∈ es := by
  obtain ⟨before, after, rfl, -⟩ := get?_ofList_eq_some_iff.mp h
  exact List.mem_append_right before (List.mem_cons_self ..)

/-- Apart from their order, the entries are that of a key and the others. -/
theorem perm_entries_erase {t : Table κ α} {k : κ} {v : α} (h : t.get? k = some v) :
    t.entries.Perm ((k, v) :: (t.erase k).entries) := by
  obtain ⟨before, after, hentries, hbefore⟩ := valueIn?_eq_some_iff.mp h
  have hnodup : (t.entries.map Prod.fst).Nodup := t.nodup
  have hafter : k ∉ after.map Prod.fst := by
    rw [hentries, List.map_append, List.map_cons] at hnodup
    exact (List.nodup_cons.mp (List.nodup_append.mp hnodup).2.1).1
  have herase : (t.erase k).entries = before ++ after := by
    change t.entries.filter (fun e => e.1 ≠ k) = before ++ after
    rw [hentries, List.filter_append, List.filter_cons_of_neg (by simp), filter_ne_eq_self hbefore,
      filter_ne_eq_self hafter]
  rw [hentries, herase]
  exact List.perm_middle

/-- Look-ups do not notice the order of the entries. -/
theorem get?_eq_of_perm {s t : Table κ α} (h : s.entries.Perm t.entries) (k : κ) : s.get? k = t.get? k := by
  have half : ∀ {s t : Table κ α}, s.entries.Perm t.entries → ∀ v, s.get? k = some v → t.get? k = some v :=
    fun h v hv => get?_of_mem_entries (h.mem_iff.mp (mem_entries_of_get? hv))
  exact Option.ext fun v => ⟨half h v, half h.symm v⟩

theorem contains_eq_of_perm {s t : Table κ α} (h : s.entries.Perm t.entries) (k : κ) :
    s.contains k = t.contains k := by
  rw [contains, contains, get?_eq_of_perm h]

theorem perm_entries_erase_of_perm {s t : Table κ α} (h : s.entries.Perm t.entries) (k : κ) :
    (s.erase k).entries.Perm (t.erase k).entries :=
  h.filter _

omit [DecidableEq κ] in
/-- Two functions make the same of a table exactly when they agree on its values. -/
theorem map_eq_map_iff {f g : α → β} {t : Table κ α} :
    t.map f = t.map g ↔ ∀ v ∈ t.values, f v = g v := by
  rw [map, map, mk.injEq, List.map_inj_left, values, List.forall_mem_map]
  exact forall₂_congr fun e _ => ⟨fun h => (Prod.ext_iff.mp h).2, fun h => Prod.ext rfl h⟩

omit [DecidableEq κ] in
theorem map_map (f : α → β) (g : β → γ) (t : Table κ α) : (t.map f).map g = t.map (g ∘ f) := by
  simp [map]

omit [DecidableEq κ] in
@[simp] theorem map_id (t : Table κ α) : t.map id = t := by
  simp [map]

omit [DecidableEq κ] in
@[simp] theorem values_map (f : α → β) (t : Table κ α) : (t.map f).values = t.values.map f := by
  simp [map, values]

omit [DecidableEq κ] in
@[simp] theorem keys_map (f : α → β) (t : Table κ α) : (t.map f).keys = t.keys :=
  fst_map_snd f t.entries

end Table

end MixinTypes
