import MixinTypes.Ty.Subst

/-!
# Names inside a type

`names` lists the nominal names of a type in the order they are written: a name before the names in
its arguments. `mapNames` replaces each one and leaves the shape alone. Main statements:
`names_mapNames` and `mapNames_mapNames`, and `names_subst`: substitution brings in no names but those
of what it puts in.
-/

namespace MixinTypes.Ty

mutual

/-- The nominal names of a type, as written from left to right. -/
def names : Ty → List Nominal
  | .named name args => name :: namesList args
  | .union ts => namesList ts
  | .inter ts => namesList ts
  | _ => []

/-- The nominal names of a list of types. -/
def namesList : List Ty → List Nominal
  | [] => []
  | t :: ts => names t ++ namesList ts

end

mutual

/-- Replace every nominal name. -/
def mapNames (f : Nominal → Nominal) : Ty → Ty
  | .named name args => .named (f name) (mapNamesList f args)
  | .union ts => .union (mapNamesList f ts)
  | .inter ts => .inter (mapNamesList f ts)
  | .any => .any
  | .var name => .var name
  | .self => .self
  | .inst => .inst
  | .cls => .cls

/-- Replace every nominal name in a list of types. -/
def mapNamesList (f : Nominal → Nominal) : List Ty → List Ty
  | [] => []
  | t :: ts => mapNames f t :: mapNamesList f ts

end

@[simp] theorem namesList_eq (ts : List Ty) : namesList ts = ts.flatMap names := by
  induction ts with
  | nil => rfl
  | cons t ts ih => simp [namesList, ih]

@[simp] theorem mapNamesList_eq (f : Nominal → Nominal) (ts : List Ty) :
    mapNamesList f ts = ts.map (mapNames f) := by
  induction ts with
  | nil => rfl
  | cons t ts ih => simp [mapNamesList, ih]

theorem flatMap_names_mapNames {f : Nominal → Nominal} {ts : List Ty}
    (h : ∀ t ∈ ts, (t.mapNames f).names = t.names.map f) :
    (ts.map (mapNames f)).flatMap names = (ts.flatMap names).map f := by
  induction ts with
  | nil => rfl
  | cons t ts ih =>
    rw [List.map_cons, List.flatMap_cons, List.flatMap_cons, List.map_append,
      h t (List.mem_cons_self ..), ih fun x hx => h x (List.mem_cons_of_mem _ hx)]

theorem names_mapNames (f : Nominal → Nominal) (t : Ty) :
    (t.mapNames f).names = t.names.map f := by
  induction t using Ty.induction with
  | named name args ih => simp [mapNames, names, flatMap_names_mapNames ih]
  | union ts ih => simp [mapNames, names, flatMap_names_mapNames ih]
  | inter ts ih => simp [mapNames, names, flatMap_names_mapNames ih]
  | _ => rfl

theorem mapNames_mapNames (f g : Nominal → Nominal) (t : Ty) :
    (t.mapNames f).mapNames g = t.mapNames (g ∘ f) := by
  induction t using Ty.induction with
  | named name args ih => simpa [mapNames] using ih
  | union ts ih => simpa [mapNames] using ih
  | inter ts ih => simpa [mapNames] using ih
  | _ => rfl

theorem mapNames_id (t : Ty) : t.mapNames id = t := by
  induction t using Ty.induction with
  | named name args ih => simpa [mapNames] using (List.map_congr_left ih).trans (List.map_id' _)
  | union ts ih => simpa [mapNames] using (List.map_congr_left ih).trans (List.map_id' _)
  | inter ts ih => simpa [mapNames] using (List.map_congr_left ih).trans (List.map_id' _)
  | _ => rfl

/-- Only the names that occur matter. -/
theorem mapNames_congr {f g : Nominal → Nominal} {t : Ty} (h : ∀ n ∈ t.names, f n = g n) :
    t.mapNames f = t.mapNames g := by
  induction t using Ty.induction with
  | named name args ih =>
    simp only [names, namesList_eq, List.mem_cons, List.mem_flatMap] at h
    simp only [mapNames, mapNamesList_eq, Ty.named.injEq]
    exact ⟨h _ (.inl rfl), List.map_congr_left fun t ht => ih t ht fun n hn => h n (.inr ⟨t, ht, hn⟩)⟩
  | union ts ih =>
    simp only [names, namesList_eq, List.mem_flatMap] at h
    simp only [mapNames, mapNamesList_eq, Ty.union.injEq]
    exact List.map_congr_left fun t ht => ih t ht fun n hn => h n ⟨t, ht, hn⟩
  | inter ts ih =>
    simp only [names, namesList_eq, List.mem_flatMap] at h
    simp only [mapNames, mapNamesList_eq, Ty.inter.injEq]
    exact List.map_congr_left fun t ht => ih t ht fun n hn => h n ⟨t, ht, hn⟩
  | _ => rfl

/-- A property of all names that are there and of all that are put in is one of all names in the end. -/
theorem names_subst {P : Nominal → Prop} {σ : Subst} (hσ : σ.Each fun t => ∀ n ∈ t.names, P n) {t : Ty}
    (ht : ∀ n ∈ t.names, P n) : ∀ n ∈ (t.subst σ).names, P n := by
  induction t using Ty.induction with
  | any => exact List.forall_mem_nil _
  | var name => exact hσ.var name
  | self => exact hσ.self
  | inst => exact hσ.inst
  | cls => exact hσ.cls
  | named name args ih =>
    simp only [names, namesList_eq, List.forall_mem_cons, List.forall_mem_flatMap] at ht
    simp only [subst, names, substList_eq, namesList_eq, List.forall_mem_cons, List.forall_mem_flatMap,
      List.forall_mem_map]
    exact ⟨ht.1, fun t h => ih t h (ht.2 t h)⟩
  | union ts ih | inter ts ih =>
    simp only [names, namesList_eq, List.forall_mem_flatMap] at ht
    simp only [subst, names, substList_eq, namesList_eq, List.forall_mem_flatMap, List.forall_mem_map]
    exact fun t h => ih t h (ht t h)

end MixinTypes.Ty
