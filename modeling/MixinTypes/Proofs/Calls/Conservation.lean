import MixinTypes.Call.Places
import Mathlib.Data.List.Nodup
import Mathlib.Data.List.Perm.Basic

/-!
# Matching conserves arguments and parameters

Matching, and each of the four reports about what does not fit, takes the arguments apart anew. Together they
account for everything once: all that is passed is paired with its place or reported to have none, and every
parameter that needs something is paired with it or reported to get nothing.

1. What is passed goes to the type at its place: by position this is a list read from the left
   (`zip_append_rest`), by keyword each parameter takes its entry out of a table (`perm_takeNamed`).
2. So the pairs are those of what has a place (`pairs_perm`), and the reports are about what has none.
3. What needs something gets it or is reported (`needed_perm`); `exists_conserving_links` puts these together.
-/

namespace MixinTypes.Formals

variable {f : Formals} {args : List Node} {s : Supplied} {name : String}

/-! ## What is passed -/

/-- What arguments pass, as matching takes them apart. -/
def supplied (f : Formals) (args : List Node) : Supplied := ⟨(f.split args).1, f.passed args⟩

theorem divides_split (f : Formals) (args : List Node) :
    f.Divides args (f.split args).1 ((f.split args).2.getD []) := by
  unfold split
  split
  · next site elements hlast =>
    obtain ⟨given, rfl⟩ := List.getLast?_eq_some_iff.mp hlast
    split
    · next takes =>
      rw [List.dropLast_concat]
      exact .keywords takes
    · next takes => exact .positional fun h => absurd h takes
  · next hother =>
    refine .positional fun _ given site elements h => hother site elements ?_
    rw [h, List.getLast?_concat]

/-- The keywords that are passed are those of the hash, each with its last value. -/
theorem get?_passed_iff {value : Node} :
    (f.passed args).get? name = some value ↔ LastValue ((f.split args).2.getD []) name value := by
  rw [passed, Table.get?_ofList_eq_some_iff]
  constructor
  · rintro ⟨before, after, h, hafter⟩
    obtain ⟨first, second, hsplit, -, h⟩ := List.filterMap_eq_append_iff.mp h
    obtain ⟨between, n, last, rfl, -, hn, rfl⟩ := List.filterMap_eq_cons_iff.mp h
    split at hn
    · next site key name value =>
      cases hn
      refine ⟨first ++ between, site, key, last, ?_, fun site key value hmem => hafter ?_⟩
      · rw [hsplit, List.append_assoc]
      · exact List.mem_map_of_mem (mem_symbolPairs_iff.mpr ⟨site, key, hmem⟩)
    · cases hn
  · rintro ⟨before, site, key, after, h, hafter⟩
    refine ⟨symbolPairs before, symbolPairs after, ?_, fun hmem => ?_⟩
    · rw [h, symbolPairs, List.filterMap_append, List.filterMap_cons]
      rfl
    · obtain ⟨⟨_, value⟩, hpair, rfl⟩ := List.mem_map.mp hmem
      obtain ⟨site, key, helement⟩ := mem_symbolPairs_iff.mp hpair
      exact hafter site key value helement

theorem supplies_supplied (f : Formals) (args : List Node) : f.Supplies args (f.supplied args) :=
  ⟨_, f.divides_split args, fun _ _ => get?_passed_iff⟩

/-! ## The type at a place -/

/-- The type that something that is passed is compared with. -/
def slot? (f : Formals) (x : Item) : Option Ty := (f.place? x).bind f.typeAt?

theorem slot?_position (f : Formals) (i : Nat) : f.slot? (.position i) = (f.positional[i]?).or f.rest := by
  simp only [slot?, place?, positional, List.length_append]
  split
  · next h => simp [typeAt?, List.getElem?_append_left h, List.getElem?_eq_getElem h]
  · next h =>
    rw [List.getElem?_append_right (Nat.le_of_not_lt h)]
    split
    · next h' =>
      have hlt : i - f.required.length < f.optional.length := by omega
      simp [typeAt?, List.getElem?_eq_getElem hlt]
    · next h' =>
      have hle : f.optional.length ≤ i - f.required.length := by omega
      rw [List.getElem?_eq_none hle]
      cases hrest : f.rest <;> simp [typeAt?, hrest]

theorem valueIn?_named (f : Formals) (name : String) :
    Table.valueIn? name f.named = (f.keywords.get? name).or (f.optionalKeywords.get? name) :=
  Table.valueIn?_append ..

theorem slot?_entry (f : Formals) (name : String) :
    f.slot? (.entry name) = (Table.valueIn? name f.named).or f.restKeywords := by
  rw [valueIn?_named]
  simp only [slot?, place?]
  split
  · next h =>
    obtain ⟨t, ht⟩ := Option.isSome_iff_exists.mp h
    simp [typeAt?, ht]
  · next h =>
    rw [Option.not_isSome_iff_eq_none.mp h, Option.none_or]
    split
    · next h' =>
      obtain ⟨t, ht⟩ := Option.isSome_iff_exists.mp h'
      simp [typeAt?, ht]
    · next h' =>
      rw [Option.not_isSome_iff_eq_none.mp h', Option.none_or]
      cases hrest : f.restKeywords <;> simp [typeAt?, hrest]

/-- Every place has a type. -/
theorem exists_typeAt? {x : Item} {p : Place} (h : f.place? x = some p) : ∃ t, f.typeAt? p = some t := by
  cases x with
  | position i =>
    simp only [place?, positional, List.length_append] at h
    split at h
    · next hi =>
      cases h
      exact ⟨_, List.getElem?_eq_getElem hi⟩
    · split at h
      · cases h
        exact ⟨_, List.getElem?_eq_getElem (by omega)⟩
      · obtain ⟨t, ht, rfl⟩ := Option.map_eq_some_iff.mp h
        exact ⟨t, ht⟩
  | entry name =>
    simp only [place?] at h
    split at h
    · next hname =>
      cases h
      exact Option.isSome_iff_exists.mp hname
    · split at h
      · next hname =>
        cases h
        exact Option.isSome_iff_exists.mp hname
      · obtain ⟨t, ht, rfl⟩ := Option.map_eq_some_iff.mp h
        exact ⟨t, ht⟩

theorem isNone_slot? (f : Formals) (x : Item) : (f.slot? x).isNone = (f.place? x).isNone := by
  cases hplace : f.place? x with
  | none => simp [slot?, hplace]
  | some p =>
    obtain ⟨t, ht⟩ := exists_typeAt? hplace
    simp [slot?, hplace, ht]

/-- The pair for something that is passed, if it has a place. -/
def pair? (f : Formals) (s : Supplied) (x : Item) : Option (Ty × Node) :=
  (f.slot? x).bind fun t => (s.value? x).map fun n => (t, n)

/-! ## Pairs -/

/-- Types in order and one for the rest, with what stands at the same positions. -/
theorem zip_append_rest (ts : List Ty) (rest : Option Ty) (ns : List Node) :
    ts.zip ns ++ rest.toList.flatMap (fun t => (ns.drop ts.length).map fun n => (t, n)) =
      (List.range ns.length).filterMap fun i =>
        ((ts[i]?).or rest).bind fun t => (ns[i]?).map fun n => (t, n) := by
  induction ns generalizing ts with
  | nil => simp
  | cons n ns ih =>
    rw [List.length_cons, List.range_succ_eq_map, List.filterMap_cons, List.filterMap_map]
    cases ts with
    | nil =>
      cases rest with
      | none => simp
      | some t => simpa using ih []
    | cons t ts => simpa using ih ts

/-- Parameters that take their entries out of a table, and one for what is left: each entry goes to the first
parameter of its name, or else to that one. -/
theorem perm_takeNamed (params : List (String × Ty)) (rest : Option Ty) (passed : Table String Node) :
    ((takeNamed params passed).1 ++
      rest.toList.flatMap fun t => (takeNamed params passed).2.values.map fun n => (t, n)).Perm
      (passed.entries.filterMap fun e =>
        ((Table.valueIn? e.1 params).or rest).map fun t => (t, e.2)) := by
  induction params generalizing passed with
  | nil =>
    unfold takeNamed Table.values
    cases rest <;> simp [Table.valueIn?, Function.comp_def]
  | cons p params ih =>
    obtain ⟨name, t⟩ := p
    have others : ∀ es : List (String × Node), name ∉ es.map Prod.fst →
        es.filterMap (fun e => ((Table.valueIn? e.1 ((name, t) :: params)).or rest).map fun t => (t, e.2)) =
          es.filterMap fun e => ((Table.valueIn? e.1 params).or rest).map fun t => (t, e.2) := by
      intro es hes
      refine List.filterMap_congr fun e he => ?_
      have hne : name ≠ e.1 := by
        rintro rfl
        exact hes (List.mem_map_of_mem he)
      rw [Table.valueIn?, if_neg hne]
    cases hget : passed.get? name with
    | none =>
      rw [takeNamed, hget, others passed.entries (Table.valueIn?_eq_none_iff.mp hget)]
      exact ih passed
    | some value =>
      have hgone : name ∉ (passed.erase name).entries.map Prod.fst :=
        Table.valueIn?_eq_none_iff.mp (by rw [← Table.get?, Table.get?_erase, if_pos rfl])
      rw [takeNamed, hget]
      refine List.Perm.trans ?_ ((Table.perm_entries_erase hget).filterMap _).symm
      rw [List.filterMap_cons, others _ hgone]
      simp only [Table.valueIn?, if_pos, Option.some_or, Option.map_some, List.cons_append]
      exact (ih (passed.erase name)).cons _

/-- The pairs are those of what is passed and has a place. -/
theorem pairs_perm (f : Formals) (args : List Node) :
    (f.pairs args).Perm ((f.supplied args).items.filterMap (f.pair? (f.supplied args))) := by
  have hpositions := zip_append_rest f.positional f.rest (f.split args).1
  have hentries := perm_takeNamed f.named f.restKeywords (f.passed args)
  have hposition : (fun i => ((f.positional[i]?).or f.rest).bind fun t =>
      ((f.split args).1[i]?).map fun n => (t, n)) = f.pair? (f.supplied args) ∘ Item.position := by
    funext i
    rw [Function.comp_apply, pair?, slot?_position]
    rfl
  have hentry : (f.passed args).entries.filterMap (fun e =>
      ((Table.valueIn? e.1 f.named).or f.restKeywords).map fun t => (t, e.2)) =
        (f.passed args).entries.filterMap (f.pair? (f.supplied args) ∘ Item.entry ∘ Prod.fst) := by
    refine List.filterMap_congr fun e he => ?_
    have hvalue : (f.supplied args).value? (.entry e.1) = some e.2 := Table.get?_of_mem_entries he
    rw [Function.comp_apply, Function.comp_apply, pair?, slot?_entry, hvalue]
    cases (Table.valueIn? e.1 f.named).or f.restKeywords <;> rfl
  rw [hposition] at hpositions
  rw [hentry] at hentries
  unfold pairs Supplied.items Table.keys
  rw [List.append_assoc, List.filterMap_append, List.filterMap_map, List.map_map, List.filterMap_map]
  rw [hpositions]
  exact hentries.append_left _

/-- Something that is passed with its place, if it has one. -/
def link? (f : Formals) (x : Item) : Option (Item × Place) := (f.place? x).map fun p => (x, p)

/-- All that is passed and has a place. -/
def links (f : Formals) (s : Supplied) : List (Item × Place) := s.items.filterMap f.link?

theorem exists_value? {x : Item} (hx : x ∈ s.items) : ∃ n, s.value? x = some n := by
  rcases List.mem_append.mp hx with hx | hx
  · obtain ⟨i, hi, rfl⟩ := List.mem_map.mp hx
    exact ⟨_, List.getElem?_eq_getElem (List.mem_range.mp hi)⟩
  · obtain ⟨name, hname, rfl⟩ := List.mem_map.mp hx
    exact Table.mem_keys_iff.mp hname

theorem forall₂_joins {xs : List Item} (h : ∀ x ∈ xs, ∃ n, s.value? x = some n) :
    List.Forall₂ (f.Joins s) (xs.filterMap (f.pair? s)) (xs.filterMap f.link?) := by
  induction xs with
  | nil => exact .nil
  | cons x xs ih =>
    obtain ⟨⟨n, hn⟩, h⟩ := List.forall_mem_cons.mp h
    cases hplace : f.place? x with
    | none =>
      rw [List.filterMap_cons_none (by simp [pair?, slot?, hplace]),
        List.filterMap_cons_none (by simp [link?, hplace])]
      exact ih h
    | some p =>
      obtain ⟨t, ht⟩ := exists_typeAt? hplace
      have hpair : f.pair? s x = some (t, n) := by simp [pair?, slot?, hplace, ht, hn]
      have hlink : f.link? x = some (x, p) := by simp [link?, hplace]
      rw [List.filterMap_cons_some hpair, List.filterMap_cons_some hlink]
      exact .cons ⟨hplace, ht, hn⟩ (ih h)

/-! ## Reports -/

/-- Numbers below `n` are those that are also below `m` and those from `m` on. -/
theorem range_eq_append (m n : Nat) : List.range n = List.range (min m n) ++ List.range' m (n - m) := by
  rcases Nat.le_total m n with h | h
  · rw [Nat.min_eq_left h, List.range_eq_range', List.range_eq_range']
    have happend := List.range'_append_1 (s := 0) (m := m) (n := n - m)
    rw [Nat.zero_add, Nat.add_sub_cancel' h] at happend
    exact happend.symm
  · rw [Nat.min_eq_right h, Nat.sub_eq_zero_of_le h, List.range'_zero, List.append_nil]

theorem filter_lt_range (m n : Nat) : (List.range n).filter (fun i => i < m) = List.range (min m n) := by
  rw [range_eq_append m, List.filter_append, List.filter_eq_self.mpr, List.filter_eq_nil_iff.mpr,
    List.append_nil]
  · intro i hi h
    exact Nat.not_lt.mpr (List.mem_range'_1.mp hi).1 (of_decide_eq_true h)
  · intro i hi
    exact decide_eq_true (Nat.lt_of_lt_of_le (List.mem_range.mp hi) (Nat.min_le_left ..))

theorem filter_le_range (m n : Nat) : (List.range n).filter (fun i => m ≤ i) = List.range' m (n - m) := by
  rw [range_eq_append m, List.filter_append, List.filter_eq_nil_iff.mpr, List.filter_eq_self.mpr,
    List.nil_append]
  · intro i hi
    exact decide_eq_true (List.mem_range'_1.mp hi).1
  · intro i hi h
    exact Nat.not_lt.mpr (of_decide_eq_true h) (Nat.lt_of_lt_of_le (List.mem_range.mp hi) (Nat.min_le_left ..))

/-- An argument has no place beyond the last parameter, unless there is a rest. -/
theorem isNone_place?_position (f : Formals) (i : Nat) :
    (f.place? (.position i)).isNone = (f.rest.isNone && decide (f.positional.length ≤ i)) := by
  rw [← isNone_slot?, slot?_position, Option.isNone_or, Bool.and_comm, Bool.eq_iff_iff]
  simp

/-- An entry has no place without a parameter of its name, unless there is a rest. -/
theorem isNone_place?_entry (f : Formals) (name : String) :
    (f.place? (.entry name)).isNone = (f.restKeywords.isNone && !f.declares name) := by
  rw [← isNone_slot?, slot?_entry, valueIn?_named, Option.isNone_or, Bool.and_comm]
  simp [declares, Table.contains]

/-- What has a place is all but what is reported to have none. -/
theorem map_fst_links (f : Formals) (s : Supplied) :
    (f.links s).map Prod.fst = s.items.filter fun x => (f.place? x).isSome := by
  rw [links, List.map_filterMap, ← List.filterMap_eq_filter]
  refine List.filterMap_congr fun x _ => ?_
  cases hplace : f.place? x <;> simp [link?, Option.guard, hplace]

theorem extra_eq_filter (f : Formals) (args : List Node) :
    f.extra args =
      (List.range (f.split args).1.length).filter fun i => (f.place? (.position i)).isNone := by
  simp only [extra, isNone_place?_position]
  cases f.rest with
  | none => simp [filter_le_range]
  | some t => simp

theorem extraKeywords_eq_filter (f : Formals) (args : List Node) :
    f.extraKeywords args =
      (f.passed args).keys.filter fun name => (f.place? (.entry name)).isNone := by
  simp only [extraKeywords, isNone_place?_entry]
  cases f.restKeywords with
  | none => simp
  | some t => simp

theorem unplaced_eq_filter (f : Formals) (args : List Node) :
    f.unplaced args = (f.supplied args).items.filter fun x => (f.place? x).isNone := by
  rw [unplaced, extra_eq_filter, extraKeywords_eq_filter, Supplied.items, List.filter_append,
    List.filter_map, List.filter_map]
  rfl

/-- What is passed either has a place or is reported. -/
theorem placed_perm (f : Formals) (args : List Node) :
    ((f.links (f.supplied args)).map Prod.fst ++ f.unplaced args).Perm (f.supplied args).items := by
  rw [map_fst_links, unplaced_eq_filter]
  have h := List.filter_append_perm (fun x => (f.place? x).isSome) (f.supplied args).items
  simpa only [Option.not_isSome] using h

/-- Only required parameters need something, by position and by keyword. -/
theorem filter_needed_place?_position (f : Formals) (i : Nat) :
    (f.place? (.position i)).filter Place.needed =
      if i < f.required.length then some (.required i) else none := by
  simp only [place?]
  split
  · rfl
  · split
    · rfl
    · cases f.rest <;> rfl

theorem filter_needed_place?_entry (f : Formals) (name : String) :
    (f.place? (.entry name)).filter Place.needed =
      if f.keywords.contains name then some (.keyword name) else none := by
  simp only [place?]
  split
  · rfl
  · split
    · rfl
    · cases f.restKeywords <;> rfl

theorem map_snd_links (f : Formals) (s : Supplied) :
    (f.links s).map Prod.snd = s.items.filterMap f.place? := by
  rw [links, List.map_filterMap]
  refine List.filterMap_congr fun x _ => ?_
  cases hplace : f.place? x <;> simp [link?, hplace]

/-- The parameters that something has to go to and goes to. -/
theorem filter_needed_links (f : Formals) (s : Supplied) :
    ((f.links s).map Prod.snd).filter Place.needed =
      (List.range (min f.required.length s.given.length)).map .required ++
        (s.entries.keys.filter f.keywords.contains).map .keyword := by
  rw [map_snd_links, List.filter_filterMap, Supplied.items, List.filterMap_append, List.filterMap_map,
    List.filterMap_map, ← filter_lt_range, ← List.filterMap_eq_map, ← List.filterMap_eq_map,
    List.filterMap_filter, List.filterMap_filter]
  congr 1
  · refine List.filterMap_congr fun i _ => ?_
    simp only [Function.comp_apply, filter_needed_place?_position, decide_eq_true_eq]
  · refine List.filterMap_congr fun name _ => ?_
    simp only [Function.comp_apply, filter_needed_place?_entry]

/-- The keys of one table that another has, and those that it has not. -/
theorem keys_perm {α β : Type} (t : Table String α) (u : Table String β) :
    (t.keys.filter u.contains ++ u.keys.filter fun name => !t.contains name).Perm u.keys := by
  have hboth : (t.keys.filter u.contains).Perm (u.keys.filter t.contains) := by
    refine (List.perm_ext_iff_of_nodup (t.nodup.filter _) (u.nodup.filter _)).mpr fun name => ?_
    simp only [List.mem_filter, Table.contains_iff_mem_keys]
    exact And.comm
  exact (hboth.append_right _).trans (List.filter_append_perm ..)

theorem needed_perm (f : Formals) (args : List Node) :
    (((f.links (f.supplied args)).map Prod.snd).filter Place.needed ++ f.lacking args).Perm f.demands := by
  rw [filter_needed_links, lacking, demands, missing, missingKeywords,
    range_eq_append (f.split args).1.length f.required.length, Nat.min_comm, List.map_append]
  simp only [List.append_assoc]
  refine List.Perm.append_left _ ((List.perm_append_comm_assoc ..).trans (List.Perm.append_left _ ?_))
  rw [← List.map_append]
  exact (keys_perm (f.passed args) f.keywords).map _

theorem nodup_range_append {α : Type} {g : Nat → α} {h : String → α} (hg : g.Injective) (hh : h.Injective)
    (hne : ∀ i name, g i ≠ h name) (n : Nat) {names : List String} (hnames : names.Nodup) :
    ((List.range n).map g ++ names.map h).Nodup := by
  refine (List.Nodup.map hg List.nodup_range).append (hnames.map hh) fun x hx hx' => ?_
  obtain ⟨i, -, rfl⟩ := List.mem_map.mp hx
  obtain ⟨name, -, heq⟩ := List.mem_map.mp hx'
  exact hne i name heq.symm

/-- Everything that is passed is paired with its place or reported, and so is every parameter that something has
to go to; each of them once. -/
theorem exists_conserving_links (f : Formals) (args : List Node) :
    ∃ (s : Supplied) (links : List (Item × Place)), f.Supplies args s ∧
      List.Forall₂ (f.Joins s) (f.pairs args) links ∧
      (links.map Prod.fst ++ f.unplaced args).Perm s.items ∧ s.items.Nodup ∧
      (∀ x ∈ f.unplaced args, f.place? x = none) ∧
      ((links.map Prod.snd).filter Place.needed ++ f.lacking args).Perm f.demands ∧ f.demands.Nodup := by
  have hjoins := forall₂_joins (f := f) fun x (hx : x ∈ (f.supplied args).items) => exists_value? hx
  obtain ⟨links, hjoins, hperm⟩ := List.perm_comp_forall₂ (f.pairs_perm args) hjoins
  refine ⟨f.supplied args, links, f.supplies_supplied args, hjoins, ?_, ?_, ?_, ?_, ?_⟩
  · exact ((hperm.map _).append_right _).trans (f.placed_perm args)
  · exact nodup_range_append (fun _ _ h => Item.position.inj h) (fun _ _ h => Item.entry.inj h)
      (fun _ _ h => Item.noConfusion h) _ (f.passed args).nodup
  · intro x hx
    rw [unplaced_eq_filter] at hx
    exact Option.isNone_iff_eq_none.mp (List.mem_filter.mp hx).2
  · exact (((hperm.map _).filter _).append_right _).trans (f.needed_perm args)
  · exact nodup_range_append (fun _ _ h => Place.required.inj h) (fun _ _ h => Place.keyword.inj h)
      (fun _ _ h => Place.noConfusion h) _ f.keywords.nodup

end MixinTypes.Formals
