import MixinTypes.Method

/-!
# Interfaces

An interface is what is known of the values of one nominal type: its type parameters, its methods
with all they override, and the types that its values are declared to have besides. Merging puts
the methods of one interface over those gathered so far.
-/

namespace MixinTypes

/-- The methods and further types of the values of one nominal type. -/
structure Interface where
  name : Nominal
  params : List String
  methods : MethodTable
  supers : List Ty
deriving BEq

/-- Methods and further types gathered so far. -/
structure Gathered where
  methods : MethodTable
  supers : List Ty

namespace Interface

/-- An interface that offers nothing. -/
def bare (name : Nominal) : Interface := ⟨name, [], .empty, []⟩

/-- Replace parameters and pseudo-types as `σ` says after binding the parameters to `args`. -/
def instantiate (i : Interface) (args : List Ty) (σ : Subst) : Interface :=
  let σ := σ.bind i.params args
  { i with
    methods := i.methods.map (Method.subst σ)
    supers := i.supers.map (Ty.subst σ) }

/-- When no parameter takes an argument and there is nothing else to replace, an interface stays as it
is. -/
theorem instantiate_eq_self {i : Interface} {args : List Ty} (h : i.params.zip args = []) :
    i.instantiate args .id = i := by
  have methods : i.methods.map (Method.subst .id) = i.methods := by
    rw [funext Method.subst_id]
    exact Table.map_id i.methods
  have supers : i.supers.map (Ty.subst .id) = i.supers := by
    rw [funext Ty.subst_id]
    exact List.map_id' ..
  rw [instantiate, Subst.bind, h, List.foldl_nil, methods, supers]

theorem instantiate_nil (i : Interface) : i.instantiate [] .id = i :=
  instantiate_eq_self List.zip_nil_right

/-- Without parameters arguments change nothing. -/
theorem instantiate_of_params {i : Interface} (h : i.params = []) (args : List Ty) :
    i.instantiate args .id = i :=
  instantiate_eq_self (by rw [h, List.zip_nil_left])

/-- The names in its types: those of the further types, and of all that its methods hold. -/
def names (i : Interface) : List Nominal :=
  i.supers.flatMap Ty.names ++ i.methods.values.flatMap Method.names

theorem forall_mem_names_iff {P : Nominal → Prop} {i : Interface} :
    (∀ n ∈ i.names, P n) ↔
      (∀ t ∈ i.supers, ∀ n ∈ t.names, P n) ∧ i.methods.All fun d => ∀ n ∈ d.names, P n := by
  simp only [names, Method.names, List.forall_mem_append, List.forall_mem_flatMap, MethodTable.all_iff]

/-- Names come from the interface or from the arguments. -/
theorem names_instantiate {P : Nominal → Prop} {i : Interface} (hi : ∀ n ∈ i.names, P n) {args : List Ty}
    (hargs : ∀ t ∈ args, ∀ n ∈ t.names, P n) : ∀ n ∈ (i.instantiate args .id).names, P n := by
  have hid : Subst.id.Each fun t => ∀ n ∈ t.names, P n :=
    ⟨fun _ => List.forall_mem_nil _, List.forall_mem_nil _, List.forall_mem_nil _, List.forall_mem_nil _⟩
  have hσ := hid.bind i.params hargs
  obtain ⟨hsupers, hmethods⟩ := forall_mem_names_iff.mp hi
  refine forall_mem_names_iff.mpr ⟨?_, hmethods.subst fun _ hd => Definition.names_subst hσ hd⟩
  exact List.forall_mem_map.mpr fun t ht => Ty.names_subst hσ (hsupers t ht)

end Interface

namespace Gathered

/-- Nothing yet. -/
def empty : Gathered := ⟨.empty, []⟩

/-- Merge `i`, applied to `args`: its further types are added, and each of its methods is put over
the one gathered under the same name. -/
def merge (g : Gathered) (i : Interface) (args : List Ty) : Gathered :=
  let i := i.instantiate args .id
  { methods := i.methods.entries.foldl (fun t e => t.override e.1 e.2) g.methods
    supers := g.supers ++ i.supers }

/-- After merging, each method of the interface has been put over what was there under its name. -/
theorem get?_merge (g : Gathered) (i : Interface) (args : List Ty) (key : String) :
    (g.merge i args).methods.get? key =
      match (i.instantiate args .id).methods.get? key with
      | none => g.methods.get? key
      | some m => some (m.atop (g.methods.get? key)) :=
  MethodTable.get?_foldl_override (i.instantiate args .id).methods.nodup g.methods key

/-- Merging into nothing takes the methods as they are. -/
theorem methods_merge_empty (i : Interface) (args : List Ty) :
    (empty.merge i args).methods = (i.instantiate args .id).methods := by
  have h : (empty.merge i args).methods.entries = [] ++ (i.instantiate args .id).methods.entries :=
    MethodTable.entries_foldl_override (i.instantiate args .id).methods.nodup
  exact Table.eq_of_entries h

/-- Merging adds the names of the methods that are merged. -/
theorem mem_keys_merge {g : Gathered} {i : Interface} {args : List Ty} {key : String} :
    key ∈ (g.merge i args).methods.keys ↔ key ∈ i.methods.keys ∨ key ∈ g.methods.keys := by
  have hkeys : (i.methods.map (Method.subst (Subst.id.bind i.params args))).entries.map Prod.fst =
      i.methods.keys := Table.keys_map ..
  rw [← hkeys]
  exact MethodTable.mem_keys_foldl_override

/-- Every method that is merged is put over what was gathered under its name. -/
theorem each_merge {P : String → Method → Prop} {g : Gathered} {i : Interface} {args : List Ty}
    (hP : Method.KeptAtop P) (hg : g.methods.Each P) (hi : (i.instantiate args .id).methods.Each P) :
    (g.merge i args).methods.Each P := by
  intro key m hget
  rw [get?_merge] at hget
  split at hget
  · exact hg key m hget
  · next m' hm' =>
    cases hget
    exact hP key m' _ (hi key m' hm') (hg key)

/-- The definitions after merging are those from before and those of the applied interface. -/
theorem all_merge {P : Definition → Prop} {g : Gathered} {i : Interface} {args : List Ty}
    (hg : g.methods.All P) (hi : (i.instantiate args .id).methods.All P) : (g.merge i args).methods.All P :=
  each_merge (Method.keptAtop_forall_mem P) hg hi

end Gathered

end MixinTypes
