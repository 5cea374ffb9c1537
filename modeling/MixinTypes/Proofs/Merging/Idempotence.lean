import MixinTypes.Interface.Basic

/-!
# Merging an interface again

Merging loses nothing that was there: names keep their places, and the chain of each method is the end of the
chain that is there afterwards. It brings all that is merged: each method is covered under its name. What is
covered is not put over anything once more, so to merge the same interface a second time changes no method.
-/

namespace MixinTypes

variable {es : List (String × Method)} {t : MethodTable} {g : Gathered} {i : Interface} {args : List Ty}

namespace MethodTable

/-- New names come after those that are there, in their order. -/
theorem keys_foldl_override (hn : (es.map Prod.fst).Nodup) (t : MethodTable) :
    (es.foldl (fun t e => t.override e.1 e.2) t).keys =
      t.keys ++ (es.map Prod.fst).filter (· ∉ t.keys) := by
  induction es generalizing t with
  | nil => simp
  | cons e es ih =>
    obtain ⟨hfresh, hn⟩ := List.nodup_cons.mp hn
    rw [List.foldl_cons, ih hn, keys_override, List.map_cons]
    by_cases h : e.1 ∈ t.keys
    · rw [if_pos h, List.filter_cons_of_neg (by simpa using h)]
    · have hrest : (es.map Prod.fst).filter (· ∉ t.keys ++ [e.1]) =
          (es.map Prod.fst).filter (· ∉ t.keys) := by
        refine List.filter_congr fun key hkey => ?_
        have hne : key ≠ e.1 := by
          rintro rfl
          exact hfresh hkey
        simp [hne]
      rw [if_neg h, hrest, List.filter_cons_of_pos (by simpa using h), List.append_assoc]
      rfl

/-- What is covered under its name changes nothing. -/
theorem foldl_override_eq_self
    (h : ∀ e ∈ es, ∃ base, t.get? e.1 = some base ∧ base.covers e.2.own = true) :
    es.foldl (fun t e => t.override e.1 e.2) t = t := by
  induction es with
  | nil => rfl
  | cons e es ih =>
    obtain ⟨⟨base, hbase, hcovers⟩, hrest⟩ := List.forall_mem_cons.mp h
    have hsame : t.override e.1 e.2 = t := by
      rw [override, hbase]
      exact if_pos hcovers
    rw [List.foldl_cons, hsame]
    exact ih hrest

end MethodTable

namespace Gathered

/-- The names that were there come first, then the new ones in the order of the interface. -/
theorem keys_merge (g : Gathered) (i : Interface) (args : List Ty) :
    (g.merge i args).methods.keys = g.methods.keys ++ i.methods.keys.filter (· ∉ g.methods.keys) := by
  have hkeys : (i.instantiate args .id).methods.entries.map Prod.fst = i.methods.keys := Table.keys_map ..
  rw [← hkeys]
  exact MethodTable.keys_foldl_override (i.instantiate args .id).methods.nodup g.methods

/-- Where all that would be put over something is covered, the methods stay as they are. -/
theorem methods_merge_eq_self (h : ∀ name m, (i.instantiate args .id).methods.get? name = some m →
      ∃ base, g.methods.get? name = some base ∧ base.covers m.own = true) :
    (g.merge i args).methods = g.methods :=
  MethodTable.foldl_override_eq_self fun e he => h e.1 e.2 (Table.get?_of_mem_entries he)

/-- Each method of the interface is covered after merging. -/
theorem exists_covers_merge {name : String} {m : Method}
    (hm : (i.instantiate args .id).methods.get? name = some m) :
    ∃ now, (g.merge i args).methods.get? name = some now ∧ now.covers m.own = true := by
  refine ⟨m.atop (g.methods.get? name), ?_, m.covers_atop _⟩
  rw [get?_merge, hm]

/-- Each method that was there is the end of the chain that is there after merging. -/
theorem exists_suffix_merge {name : String} {old : Method} (hold : g.methods.get? name = some old) :
    ∃ now, (g.merge i args).methods.get? name = some now ∧ old.chain <:+ now.chain ∧
      ((∀ m, (i.instantiate args .id).methods.get? name = some m → old.covers m.own = true) → now = old) := by
  rw [get?_merge, hold]
  cases hm : (i.instantiate args .id).methods.get? name with
  | none => exact ⟨old, rfl, List.suffix_refl _, fun _ => rfl⟩
  | some m => exact ⟨_, rfl, m.chain_suffix_atop old, fun hcovers => if_pos (hcovers m rfl)⟩

/-- Whatever has been gathered and whatever is merged into it: the names keep their order and are followed by
the new ones in theirs; the chain of each method that was there is the end of the one that is there now, and the
same where all that is merged under the name was covered; each method of the applied interface is covered under
its name; its further types are added at the end; and merging the same once more leaves the methods as they
are. -/
theorem merge_conservative (g : Gathered) (i : Interface) (args : List Ty) :
    (g.merge i args).methods.keys = g.methods.keys ++ i.methods.keys.filter (· ∉ g.methods.keys) ∧
      (∀ name old, g.methods.get? name = some old →
        ∃ now, (g.merge i args).methods.get? name = some now ∧ old.chain <:+ now.chain ∧
          ((∀ m, (i.instantiate args .id).methods.get? name = some m → old.covers m.own = true) →
            now = old)) ∧
      (∀ name m, (i.instantiate args .id).methods.get? name = some m →
        ∃ now, (g.merge i args).methods.get? name = some now ∧ now.covers m.own = true) ∧
      (g.merge i args).supers = g.supers ++ (i.instantiate args .id).supers ∧
      ((g.merge i args).merge i args).methods = (g.merge i args).methods :=
  ⟨keys_merge g i args, fun _ _ => exists_suffix_merge, fun _ _ => exists_covers_merge, rfl,
    methods_merge_eq_self fun _ _ => exists_covers_merge⟩

end Gathered

end MixinTypes
